import RubyEngine.Isolation
import RubyEngine.Serde

/-!
# The policy of the guest

`enter` on Linux: the timers, the limits, the inherited descriptors and the filter, one
system call after another. A call that fails ends the start, but for those whose
result is not looked at and for `close_range`, which has a listing to fall back on.
-/
namespace RubyEngine.Isolation

/-- `libc::timeval` -/
structure Timeval where
  tvSec : Nat
  tvUsec : Nat
  deriving DecidableEq, Repr

def Timeval.ofMillis (ms : Nat) : Timeval := ⟨ms / 1000, ms % 1000 * 1000⟩

/-- The signal of a timer is set to its default action. -/
inductive Timer where
  | real
  | prof
  deriving DecidableEq, Repr

inductive Resource where
  | cpu
  | core
  | addressSpace
  deriving DecidableEq, Repr

inductive Call where
  | signal (timer : Timer)
  /-- A timer that does not repeat. -/
  | setitimer (timer : Timer) (value : Timeval)
  /-- The soft limit and the hard one. -/
  | setrlimit (resource : Resource) (limit : Nat)
  | closeRange (first : Nat)
  | readDir
  | close (fd : Int)
  | setNoNewPrivs
  | setSeccomp (program : SockFprog)

inductive Response where
  | ok
  | failed (e : IoError)
  | listing (entries : List (Except IoError String))

/-- `cpu_ms.div_ceil(1000) + 1` -/
def cpuSeconds (cpuMs : Nat) : Nat := (cpuMs + 999) / 1000 + 1

def ADDRESS_SPACE : Nat := 256 * 1024 * 1024

/-- The calls of `enter`, as long as none of them fails. -/
def policy (target : Target) (number : Syscall → Int64) (wallMs cpuMs : Nat) : List Call :=
  [.signal .real, .setitimer .real (.ofMillis wallMs),
    .signal .prof, .setitimer .prof (.ofMillis cpuMs),
    .setrlimit .cpu (cpuSeconds cpuMs), .setrlimit .core 0, .closeRange 3,
    .setrlimit .addressSpace ADDRESS_SPACE, .setNoNewPrivs, .setSeccomp (platform target number)]

/-! ## The listing -/

def ofDigits (digits : List Char) : Option Nat :=
  if digits ≠ [] ∧ digits.all Char.isDigit then
    some (digits.foldl (fun n c => 10 * n + (c.toNat - 0x30)) 0)
  else none

/-- `str::parse::<i32>` -/
def parseI32 (name : String) : Option Int :=
  let number := match name.toList with
    | '-' :: digits => (ofDigits digits).map (fun n => -(n : Int))
    | '+' :: digits => (ofDigits digits).map Int.ofNat
    | digits => (ofDigits digits).map Int.ofNat
  number.filter (fun i => -2147483648 ≤ i ∧ i ≤ 2147483647)

/-- The descriptors of a listing, in its order. -/
def descriptors (entries : List (Except IoError String)) : Except IoError (List Int) :=
  entries.mapM (fun entry => do
    let name ← entry
    match parseI32 name with
    | some fd => .ok fd
    | none => .error (IoError.other "Invalid process descriptor listing"))

/-! ## One call -/

/-- What is left to call, or why the start ends. -/
def respond : Call → List Call → Response → Option (Except IoError (List Call))
  | .signal _, rest, .ok | .signal _, rest, .failed _ => some (.ok rest)
  | .close _, rest, .ok | .close _, rest, .failed _ => some (.ok rest)
  | .closeRange _, rest, .failed _ => some (.ok (.readDir :: rest))
  | .readDir, rest, .listing entries =>
      some ((descriptors entries).map (fun fds => (fds.filter (3 ≤ ·)).map .close ++ rest))
  | .setitimer _ _, rest, .ok | .setrlimit _ _, rest, .ok | .closeRange _, rest, .ok
  | .setNoNewPrivs, rest, .ok | .setSeccomp _, rest, .ok => some (.ok rest)
  | .setitimer _ _, _, .failed e | .setrlimit _ _, _, .failed e | .readDir, _, .failed e
  | .setNoNewPrivs, _, .failed e | .setSeccomp _, _, .failed e => some (.error e)
  | _, _, _ => none

/-! ## Whole starts -/

/-- Some calls with their answers, to the last one. -/
inductive Runs : List Call → List (Call × Response) → Prop where
  | nil : Runs [] []
  | call {call : Call} {rest next : List Call} {response : Response}
      {trace : List (Call × Response)} : respond call rest response = some (.ok next) →
      Runs next trace → Runs (call :: rest) ((call, response) :: trace)

/-- The inherited descriptors are closed at once, or one by one as they are listed. -/
inductive Closes : List (Call × Response) → Prop where
  | range : Closes [(.closeRange 3, .ok)]
  | listed {e : IoError} {entries : List (Except IoError String)} {fds : List Int}
      {closed : List (Call × Response)} : descriptors entries = .ok fds →
      closed.map Prod.fst = (fds.filter (3 ≤ ·)).map .close →
      Closes ((.closeRange 3, .failed e) :: (.readDir, .listing entries) :: closed)

/-- Every call of the policy has been made, in its order, and each of those whose failure ends the
start has succeeded. What the signal calls, a refused `close_range` and the single closes
came to is ignored. -/
def Installed (target : Target) (number : Syscall → Int64) (wallMs cpuMs : Nat)
    (trace : List (Call × Response)) : Prop :=
  ∃ alarm profile closing, Closes closing ∧
    trace = [(.signal .real, alarm), (.setitimer .real (.ofMillis wallMs), .ok),
      (.signal .prof, profile), (.setitimer .prof (.ofMillis cpuMs), .ok),
      (.setrlimit .cpu (cpuSeconds cpuMs), .ok), (.setrlimit .core 0, .ok)] ++ closing ++
      [(.setrlimit .addressSpace ADDRESS_SPACE, .ok), (.setNoNewPrivs, .ok),
        (.setSeccomp (platform target number), .ok)]

section

variable {rest : List Call} {trace : List (Call × Response)}

/-- The calls that end the start if they fail. -/
def Call.strict : Call → Bool
  | .setitimer _ _ | .setrlimit _ _ | .setNoNewPrivs | .setSeccomp _ => true
  | .signal _ | .closeRange _ | .readDir | .close _ => false

theorem respond_strict {call : Call} {response : Response} {next : List Call}
    (hcall : call.strict = true) (h : respond call rest response = some (.ok next)) :
    response = .ok ∧ next = rest := by
  cases call with
  | signal | closeRange | readDir | close => cases hcall
  | setitimer | setrlimit | setNoNewPrivs | setSeccomp =>
    cases response with
    | ok => exact ⟨rfl, (Except.ok.inj (Option.some.inj h)).symm⟩
    | failed | listing => cases h

theorem Runs.strict {call : Call} (h : Runs (call :: rest) trace) (hcall : call.strict = true) :
    ∃ later, trace = (call, .ok) :: later ∧ Runs rest later := by
  cases h with
  | call hstep hlater =>
    obtain ⟨rfl, rfl⟩ := respond_strict hcall hstep
    exact ⟨_, rfl, hlater⟩

theorem Runs.signal {timer : Timer} (h : Runs (.signal timer :: rest) trace) :
    ∃ response later, trace = (.signal timer, response) :: later ∧ Runs rest later := by
  cases h with
  | @call _ _ next response later hstep hlater =>
    have hnext : next = rest := by
      cases response with
      | ok | failed => exact (Except.ok.inj (Option.some.inj hstep)).symm
      | listing => cases hstep
    exact ⟨response, later, rfl, hnext ▸ hlater⟩

theorem Runs.closed {fds : List Int} (h : Runs (fds.map .close ++ rest) trace) :
    ∃ closed later, trace = closed ++ later ∧ closed.map Prod.fst = fds.map .close ∧
      Runs rest later := by
  induction fds generalizing trace with
  | nil => exact ⟨[], trace, rfl, rfl, h⟩
  | cons fd fds ih =>
    cases h with
    | @call _ _ next response later hstep hlater =>
      have hnext : next = fds.map .close ++ rest := by
        cases response with
        | ok | failed => exact (Except.ok.inj (Option.some.inj hstep)).symm
        | listing => cases hstep
      obtain ⟨closed, after, rfl, hclosed, hafter⟩ := ih (hnext ▸ hlater)
      exact ⟨(.close fd, response) :: closed, after, rfl,
        congrArg (Call.close fd :: ·) hclosed, hafter⟩

theorem Runs.closeRange (h : Runs (.closeRange 3 :: rest) trace) :
    ∃ closing later, trace = closing ++ later ∧ Closes closing ∧ Runs rest later := by
  cases h with
  | @call _ _ next response later hstep hlater =>
    cases response with
    | listing => cases hstep
    | ok =>
      obtain rfl := Except.ok.inj (Option.some.inj hstep)
      exact ⟨_, later, rfl, .range, hlater⟩
    | failed e =>
      obtain rfl := Except.ok.inj (Option.some.inj hstep)
      cases hlater with
      | @call _ _ next response later hstep hlater =>
        cases response with
        | ok | failed => cases hstep
        | listing entries =>
          have hmap := Option.some.inj hstep
          cases hfds : descriptors entries with
          | error e =>
            rw [hfds] at hmap
            cases hmap
          | ok fds =>
            rw [hfds] at hmap
            obtain rfl := Except.ok.inj hmap
            obtain ⟨closed, after, rfl, hclosed, hafter⟩ := hlater.closed
            exact ⟨_ :: _ :: closed, after, rfl, .listed hfds hclosed, hafter⟩

/-- A start that comes to its end has installed the policy. -/
theorem Runs.installed {target : Target} {number : Syscall → Int64} {wallMs cpuMs : Nat}
    (h : Runs (policy target number wallMs cpuMs) trace) :
    Installed target number wallMs cpuMs trace := by
  obtain ⟨alarm, _, rfl, hwall⟩ := h.signal
  obtain ⟨_, rfl, hprofile⟩ := hwall.strict rfl
  obtain ⟨profile, _, rfl, htimer⟩ := hprofile.signal
  obtain ⟨_, rfl, hcpu⟩ := htimer.strict rfl
  obtain ⟨_, rfl, hcore⟩ := hcpu.strict rfl
  obtain ⟨_, rfl, hrange⟩ := hcore.strict rfl
  obtain ⟨closing, _, rfl, hclosing, hspace⟩ := hrange.closeRange
  obtain ⟨_, rfl, hprivs⟩ := hspace.strict rfl
  obtain ⟨_, rfl, hfilter⟩ := hprivs.strict rfl
  obtain ⟨_, rfl, hend⟩ := hfilter.strict rfl
  cases hend
  exact ⟨alarm, profile, closing, hclosing, by simp⟩

end

/-! ## The timers -/

/-- A timer is set for exactly so many milliseconds. -/
theorem Timeval.ofMillis_exact (ms : Nat) :
    (Timeval.ofMillis ms).tvSec * 1000000 + (Timeval.ofMillis ms).tvUsec = ms * 1000 ∧
      (Timeval.ofMillis ms).tvUsec < 1000000 := by
  simp only [Timeval.ofMillis]
  omega

/-- The limit on CPU time is a whole second behind the timer, and no more than two. -/
theorem cpuSeconds_behind (cpuMs : Nat) :
    cpuMs + 1000 ≤ cpuSeconds cpuMs * 1000 ∧ cpuSeconds cpuMs * 1000 < cpuMs + 2000 := by
  simp only [cpuSeconds]
  omega

end RubyEngine.Isolation
