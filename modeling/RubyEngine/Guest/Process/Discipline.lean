import RubyEngine.Guest.Process.Steps
import RubyEngine.Supervisor.Capability

/-!
# The discipline of the guest process

Whatever comes in and whatever the program does, the process writes the frames of the
protocol: events of its own execution, calls numbered from one and within the request, and
at most one terminal event behind them. The program is let in behind the whole policy.
-/
namespace RubyEngine.Guest.Process

open Json (Value)
open Transition (Outcome Machine)
open Isolation (Target Syscall Call Response Runs Installed)
open Supervisor.Capability (Numbered isCall sequenceOf numbered_append)

/-! ## Events of a program -/

/-- An event ahead of the terminal one. -/
structure Event (request : Request) (v : Value) : Prop where
  protocol : (v.index "protocol").asStr = some PROTOCOL
  identity : (v.index "execution_id").asStr = some request.executionId
  kind : (v.index "kind").asStr = some "log" ∨ isCall v = true

/-- What a program has written and read, and the host that counts with it. -/
structure Spoken (request : Request) (host : Host) (events replies : List Value) : Prop where
  counted : host.Counted request
  calls : (events.filter isCall).length = host.calls
  numbered : Numbered (events.filter isCall)
  permitted : ∀ v ∈ events.filter isCall, Supervisor.Capability.Permitted request v
  framed : ∀ v ∈ events, Event request v
  silent : request.validateOnly = true → events = []
  replies : replies.length ≤ host.calls

/-- What may stand behind the events. -/
inductive Terminal (request : Request) (host : Host) : List Value → Prop where
  | none : Terminal request host []
  | failed (message : String) :
      Terminal request host [failure request.executionId "engine_error" message]
  | completed (native : NativeResult) (result time : Value) :
      Terminal request host [completedEvent request host native result time]

/-- A history in which the program has been let in. -/
structure Program (target : Target) (number : Syscall → Int64) (request : Request) (host : Host)
    (events terminal replies : List Value) (history : List Effect) : Prop where
  valid : request.validate = .ok ()
  begun : ∃ v, heard history = v :: replies ∧ Request.ofValue v = some request
  installed : Installed target number request.limits.wallMs request.limits.cpuMs (called history)
  wrote : printed history = events ++ terminal
  spoken : Spoken request host events replies

/-- Nothing has been read but one value, which does not name another execution. -/
def Names (execution : String) (history : List Effect) : Prop :=
  .unread ∈ history ∨ ∃ v, heard history = [v] ∧
    ∀ request, Request.ofValue v = some request → execution = request.executionId

/-- A history without a program: nothing is written but a failure. -/
structure Early (history : List Effect) : Prop where
  once : (heard history).length ≤ 1
  idle : returned history = []
  wrote : printed history = [] ∨ ∃ execution message,
    printed history = [failure execution "engine_error" message] ∧ Names execution history

/-- What the history of a process looks like. -/
inductive Story (target : Target) (number : Syscall → Int64) (history : List Effect) : Prop where
  | early : Early history → Story target number history
  | program (request : Request) (host : Host) (events terminal replies : List Value) :
      Program target number request host events terminal replies history →
      Terminal request host terminal → Story target number history

/-- What has been written, as bytes. -/
structure Written (serde : SerdeJson) (history : List Effect) : Prop where
  bounded : ∀ v ∈ printed history, (serde.toVec v).length ≤ MAX_FRAME
  stream : sent history <+: wire serde (printed history)

section

variable {serde : SerdeJson} {request : Request} {host next : Host}
  {events replies : List Value}

theorem isCall_callEvent (execution : String) (n : Nat) (path : String) (args : Value) :
    isCall (callEvent execution n path args) = true := by
  simp [isCall, callEvent, SortedMap.lookup, Json.Doc.asStr]

theorem isCall_logEvent (execution : String) (values : Value) :
    isCall (logEvent execution values) = false := by
  simp [isCall, logEvent, SortedMap.lookup, Json.Doc.asStr]

theorem sequenceOf_callEvent (execution : String) {n : Nat} (hn : n < 2 ^ 64) (path : String)
    (args : Value) : sequenceOf (callEvent execution n path args) = some n := by
  simp [sequenceOf, callEvent, SortedMap.lookup, Json.Doc.asU64_u64 hn]

theorem event_callEvent (request : Request) (n : Nat) (path : String) (args : Value) :
    Event request (callEvent request.executionId n path args) := by
  refine ⟨?_, ?_, Or.inr (isCall_callEvent ..)⟩ <;>
    simp [callEvent, SortedMap.lookup, Json.Doc.asStr]

theorem event_logEvent (request : Request) (values : Value) :
    Event request (logEvent request.executionId values) := by
  refine ⟨?_, ?_, Or.inl ?_⟩ <;> simp [logEvent, SortedMap.lookup, Json.Doc.asStr]

theorem permitted_callEvent (hexecutes : request.validateOnly = false) {path : String}
    (hpath : path ∈ request.catalog) (n : Nat) (args : Value) :
    Supervisor.Capability.Permitted request (callEvent request.executionId n path args) := by
  refine ⟨hexecutes, (event_callEvent request n path args).identity, path, hpath, ?_⟩
  simp [callEvent, SortedMap.lookup, Json.Doc.asStr]

theorem spoken_new (request : Request) : Spoken request (.new request) [] [] := by
  refine ⟨Host.counted_new request, rfl, rfl, ?_, ?_, fun _ => rfl, Nat.zero_le _⟩ <;> simp

/-- The path of a call is one of the catalog, as text. -/
theorem path_mem (hrequest : Request) {path : String} (h : utf8 path ∈ pathsOf hrequest) :
    path ∈ hrequest.catalog := by
  obtain ⟨allowed, hallowed, hpath⟩ := List.mem_map.mp h
  rwa [← utf8_injective hpath]

/-- What a turn makes of the events, by the event it writes. -/
inductive Grown (request : Request) (host next : Host) : Turn → Prop where
  | quiet (turn : Turn) : turn.event = none → next.calls = host.calls →
      Grown request host next turn
  | log (v : Value) : next.calls = host.calls →
      Grown request host next (.log (logEvent request.executionId v))
  | call (path : String) (v : Value) : path ∈ request.catalog → next.calls = host.calls + 1 →
      Grown request host next (.call (callEvent request.executionId (host.calls + 1) path v))

theorem grown (hhost : host.Counted request) {callback : Callback}
    (hcallback : callback.Bounded request) {turn : Turn}
    (h : host.turn serde callback.kind callback.path callback.json = (next, turn)) :
    Grown request host next turn := by
  unfold Host.turn at h
  split at h
  · next name value hname _ =>
    cases hkind : callback.kind with
    | unknown | json =>
      rw [hkind] at h
      cases h
      exact .quiet _ rfl rfl
    | log =>
      rw [hkind] at h
      dsimp only at h
      split at h
      · cases h
        exact .quiet _ rfl rfl
      · cases h
        rw [hhost.execution]
        exact .log value rfl
    | call =>
      have hpath := hcallback.path hkind
      rw [← decodeUtf8_eq_some.mp hname] at hpath
      rw [hkind] at h
      dsimp only at h
      split at h
      · cases h
        exact .quiet _ rfl rfl
      · cases h
        rw [hhost.execution, hhost.sequence]
        exact .call name value (path_mem request hpath) rfl
  · cases h
    exact .quiet _ rfl rfl

theorem calls_lt_word (hrequest : request.validate = .ok ()) (h : host.Counted request) :
    host.calls + 1 < 2 ^ 64 := by
  have hlimits := (Request.validate_iff.mp hrequest).limits
  have hcalls := h.calls
  simp only [Limits.exceeds, Bool.or_eq_false_iff, decide_eq_false_iff_not] at hlimits
  omega

/-- A turn keeps what has been spoken in order, with the event that it writes. -/
theorem Spoken.turn (h : Spoken request host events replies) (hrequest : request.validate = .ok ())
    (hexecutes : request.validateOnly = false) {callback : Callback}
    (hcallback : callback.Bounded request) {turn : Turn}
    (hturn : host.turn serde callback.kind callback.path callback.json = (next, turn)) :
    Spoken request next (events ++ turn.event.toList) replies ∧
      ∀ event, turn = .call event → replies.length + 1 ≤ next.calls := by
  have hcounted := h.counted.turn serde callback.kind callback.path callback.json
  rw [hturn] at hcounted
  have hreplies := h.replies
  cases grown h.counted hcallback hturn with
  | quiet _ hevent hcalls =>
    rw [hevent, Option.toList_none, List.append_nil]
    refine ⟨⟨hcounted, by rw [hcalls, h.calls], h.numbered, h.permitted, h.framed, h.silent,
      by rwa [hcalls]⟩, ?_⟩
    rintro event rfl
    cases hevent
  | log v hcalls =>
    have hfilter : (events ++ [logEvent request.executionId v]).filter isCall =
        events.filter isCall := by
      rw [List.filter_append]
      simp [isCall_logEvent]
    refine ⟨⟨hcounted, ?_, ?_, ?_, ?_, ?_, by rwa [hcalls]⟩, ?_⟩
    · rw [Turn.event, Option.toList_some, hfilter, h.calls, hcalls]
    · rw [Turn.event, Option.toList_some, hfilter]
      exact h.numbered
    · rw [Turn.event, Option.toList_some, hfilter]
      exact h.permitted
    · intro w hw
      rcases List.mem_append.mp hw with hw | hw
      · exact h.framed w hw
      · rw [List.mem_singleton.mp hw]
        exact event_logEvent request v
    · intro hsilent
      rw [hsilent] at hexecutes
      cases hexecutes
    · intro event hcall
      cases hcall
  | call path v hpath hcalls =>
    have hword := calls_lt_word hrequest h.counted
    have hfilter :
        (events ++ [callEvent request.executionId (host.calls + 1) path v]).filter isCall =
          events.filter isCall ++ [callEvent request.executionId (host.calls + 1) path v] := by
      rw [List.filter_append]
      simp [isCall_callEvent]
    refine ⟨⟨hcounted, ?_, ?_, ?_, ?_, ?_, by omega⟩, fun _ _ => by omega⟩
    · rw [Turn.event, Option.toList_some, hfilter, List.length_append, h.calls, hcalls,
        List.length_singleton]
    · rw [Turn.event, Option.toList_some, hfilter]
      refine numbered_append h.numbered ?_
      rw [h.calls]
      exact sequenceOf_callEvent _ hword _ _
    · rw [Turn.event, Option.toList_some, hfilter]
      intro w hw
      rcases List.mem_append.mp hw with hw | hw
      · exact h.permitted w hw
      · rw [List.mem_singleton.mp hw]
        exact permitted_callEvent hexecutes hpath _ _
    · intro w hw
      rcases List.mem_append.mp hw with hw | hw
      · exact h.framed w hw
      · rw [List.mem_singleton.mp hw]
        exact event_callEvent request _ _ _
    · intro hsilent
      rw [hsilent] at hexecutes
      cases hexecutes

theorem Spoken.reply (h : Spoken request host events replies) {reply : Value}
    (hroom : replies.length + 1 ≤ host.calls) :
    Spoken request host events (replies ++ [reply]) :=
  { h with replies := by rwa [List.length_append, List.length_singleton] }

end

/-! ## The history by phases -/

/-- The request has been read, and these calls of the policy are left. -/
structure Entering (target : Target) (number : Syscall → Int64) (request : Request)
    (calls : List Call) (history : List Effect) : Prop where
  valid : request.validate = .ok ()
  begun : ∃ v, heard history = [v] ∧ Request.ofValue v = some request
  silent : printed history = []
  idle : returned history = []
  calls : ∀ more, Runs calls more →
    Runs (Isolation.policy target number request.limits.wallMs request.limits.cpuMs)
      (called history ++ more)

/-- The program is running, and so many replies may still be read for it. -/
def Speaks (target : Target) (number : Syscall → Int64) (request : Request) (host : Host)
    (owed : Nat) (history : List Effect) : Prop :=
  ∃ events replies, Program target number request host events [] replies history ∧
    replies.length + owed ≤ host.calls

def Phase.Told (target : Target) (number : Syscall → Int64) (history : List Effect) : Phase → Prop
  | .starting => heard history = [] ∧ printed history = [] ∧ called history = [] ∧
      returned history = []
  | .entering request calls => Entering target number request calls history
  | .running request host => Speaks target number request host 0 history
  | .printing request host call _ => Speaks target number request host call.toNat history
  | .awaiting request host => Speaks target number request host 1 history
  | .finishing _ _ _ => Story target number history

section

variable {serde : SerdeJson} {target : Target} {number : Syscall → Int64} {request : Request}
  {host : Host} {events terminal replies : List Value} {history effects : List Effect}

/-- Effects that a history of a program does not look at. -/
theorem Program.quiet (h : Program target number request host events terminal replies history)
    (hheard : heard effects = []) (hprinted : printed effects = [])
    (hcalled : called effects = []) :
    Program target number request host events terminal replies (history ++ effects) where
  valid := h.valid
  begun := by rw [heard_append, hheard, List.append_nil]; exact h.begun
  installed := by rw [called_append, hcalled, List.append_nil]; exact h.installed
  wrote := by rw [printed_append, hprinted, List.append_nil]; exact h.wrote
  spoken := h.spoken

theorem Speaks.quiet {owed less : Nat} (h : Speaks target number request host owed history)
    (hless : less ≤ owed) (hheard : heard effects = []) (hprinted : printed effects = [])
    (hcalled : called effects = []) :
    Speaks target number request host less (history ++ effects) := by
  obtain ⟨events, replies, hprogram, howed⟩ := h
  exact ⟨events, replies, hprogram.quiet hheard hprinted hcalled, by omega⟩

theorem Names.quiet {execution : String} (h : Names execution history)
    (hheard : heard effects = []) : Names execution (history ++ effects) := by
  rcases h with hunread | ⟨v, hone, hnames⟩
  · exact Or.inl (List.mem_append_left _ hunread)
  · exact Or.inr ⟨v, by rw [heard_append, hheard, List.append_nil, hone], hnames⟩

theorem Early.quiet (h : Early history) (hheard : heard effects = [])
    (hprinted : printed effects = []) (hreturned : returned effects = []) :
    Early (history ++ effects) := by
  refine ⟨?_, ?_, ?_⟩
  · rw [heard_append, hheard, List.append_nil]
    exact h.once
  · rw [returned_append, hreturned, List.append_nil]
    exact h.idle
  · rw [printed_append, hprinted, List.append_nil]
    rcases h.wrote with hnone | ⟨execution, message, hone, hnames⟩
    · exact Or.inl hnone
    · exact Or.inr ⟨execution, message, hone, hnames.quiet hheard⟩

theorem Story.quiet (h : Story target number history) (hheard : heard effects = [])
    (hprinted : printed effects = []) (hcalled : called effects = [])
    (hreturned : returned effects = []) : Story target number (history ++ effects) := by
  cases h with
  | early h => exact .early (h.quiet hheard hprinted hreturned)
  | program request host events terminal replies hprogram hterminal =>
    exact .program request host events terminal replies (hprogram.quiet hheard hprinted hcalled)
      hterminal

theorem Phase.Told.quiet {phase : Phase} (h : phase.Told target number history)
    (hheard : heard effects = []) (hprinted : printed effects = []) (hcalled : called effects = [])
    (hreturned : returned effects = []) : phase.Told target number (history ++ effects) := by
  cases phase with
  | starting =>
    obtain ⟨h1, h2, h3, h4⟩ := h
    simp [Phase.Told, h1, h2, h3, h4, hheard, hprinted, hcalled, hreturned]
  | entering request calls =>
    obtain ⟨hvalid, hfirst, hsilent, hnothing, hcalls⟩ := h
    exact ⟨hvalid, by simpa [hheard] using hfirst, by simp [hsilent, hprinted],
      by simp [hnothing, hreturned], by simpa [hcalled] using hcalls⟩
  | running | printing | awaiting => exact Speaks.quiet h (Nat.le_refl _) hheard hprinted hcalled
  | finishing => exact Story.quiet h hheard hprinted hcalled hreturned

/-- Every phase tells a story of its own. -/
theorem Phase.Told.story {phase : Phase} (h : phase.Told target number history) :
    Story target number history := by
  cases phase with
  | starting =>
    obtain ⟨hheard, hprinted, -, hreturned⟩ := h
    exact .early ⟨by simp [hheard], hreturned, Or.inl hprinted⟩
  | entering request calls =>
    obtain ⟨v, hheard, -⟩ := h.begun
    exact .early ⟨by simp [hheard], h.idle, Or.inl h.silent⟩
  | running | printing | awaiting =>
    obtain ⟨events, replies, hprogram, -⟩ := h
    exact .program _ _ events [] replies hprogram .none
  | finishing => exact h

/-- The terminal event of a program. -/
theorem Speaks.ends {owed : Nat} (h : Speaks target number request host owed history)
    (hprinted : printed effects = terminal) (hterminal : Terminal request host terminal)
    (hheard : heard effects = []) (hcalled : called effects = []) :
    Story target number (history ++ effects) := by
  obtain ⟨events, replies, hprogram, -⟩ := h
  refine .program request host events terminal replies ⟨hprogram.valid, ?_, ?_, ?_,
    hprogram.spoken⟩ hterminal
  · rw [heard_append, hheard, List.append_nil]
    exact hprogram.begun
  · rw [called_append, hcalled, List.append_nil]
    exact hprogram.installed
  · rw [printed_append, hprinted, hprogram.wrote, List.append_nil]

/-- A failure ahead of the program. -/
theorem Fails.early {s t : State} {execution : String} {more : List Effect}
    (h : Fails serde s execution effects (.next t more)) (hheard : (heard history).length +
      (heard effects).length ≤ 1) (hreturned : returned history = [] ∧ returned effects = [])
    (hprinted : printed history = [] ∧ printed effects = [])
    (hnames : Names execution (history ++ effects)) :
    t.phase.Told target number (history ++ more) := by
  obtain ⟨message, hfinishes⟩ := h
  cases hfinishes with
  | whole hfits =>
    refine .early ⟨by simpa using hheard, by simp [hreturned],
      Or.inr ⟨execution, message, by simp [hprinted], ?_⟩⟩
    rw [← List.append_assoc]
    exact hnames.quiet rfl
  | none => exact .early ⟨by simpa using hheard, by simp [hreturned], Or.inl (by simp [hprinted])⟩

/-- A failure behind the program. -/
theorem Fails.late {s t : State} {owed : Nat} {more : List Effect}
    (h : Fails serde s request.executionId [] (.next t more))
    (hspeaks : Speaks target number request host owed history) :
    t.phase.Told target number (history ++ more) := by
  obtain ⟨message, hfinishes⟩ := h
  cases hfinishes with
  | whole hfits => exact hspeaks.ends rfl (.failed message) rfl rfl
  | none => exact hspeaks.ends rfl .none rfl rfl

theorem conclusion_completed {native : NativeResult} {cpuMs : Option UInt64} {event : Value}
    (h : conclusion serde request host native cpuMs = .ok event) :
    ∃ result time, event = completedEvent request host native result time := by
  unfold conclusion at h
  split at h
  · exact ⟨_, _, (Except.ok.inj h).symm⟩
  · split at h
    · exact ⟨_, _, (Except.ok.inj h).symm⟩
    · cases h

/-! ## Steps and runs -/

theorem told_step (hs : serde.Standard) (hn : serde.Numeric) (hstrict : serde.Strict) {s t : State}
    {answer : Answer} (h : s.phase.Told target number history)
    (hstep : step serde target number s answer = some (.next t effects)) :
    t.phase.Told target number (history ++ effects) := by
  have hc := step_cases hstep
  generalize hout : Outcome.next t effects = out at hc
  cases hc with
  | died | exited | cutLast => cases hout
  | retried =>
    cases hout
    exact h.quiet rfl rfl rfl rfl
  | took bytes =>
    cases hout
    exact h.quiet rfl rfl rfl rfl
  | admitted v rest request hphase _ hrequest hvalid =>
    cases hout
    rw [hphase] at h
    obtain ⟨hheard, hprinted, hcalled, hreturned⟩ := h
    refine ⟨hvalid, ⟨v, by simp [hheard], hrequest⟩, by simp [hprinted], by simp [hreturned],
      fun more hmore => ?_⟩
    simpa [hcalled] using hmore
  | refused _ input execution first _ hphase hfirst hfails =>
    rw [hphase] at h
    obtain ⟨hheard, hprinted, -, hreturned⟩ := h
    subst hout
    rcases hfirst with ⟨rfl, -⟩ | ⟨v, rfl, -, hnames⟩
    · exact hfails.early (by simp [hheard]) ⟨hreturned, rfl⟩ ⟨hprinted, rfl⟩ (Or.inl (by simp))
    · exact hfails.early (by simp [hheard]) ⟨hreturned, rfl⟩ ⟨hprinted, rfl⟩
        (Or.inr ⟨v, by simp [hheard], hnames⟩)
  | called request call rest calls response hphase hrespond =>
    cases hout
    rw [hphase] at h
    refine ⟨h.valid, by simpa using h.begun, by simp [h.silent], by simp [h.idle],
      fun more hmore => ?_⟩
    simpa using h.calls _ (.call hrespond hmore)
  | started request hphase _ =>
    cases hout
    rw [hphase] at h
    obtain ⟨v, hheard, hrequest⟩ := h.begun
    have hinstalled := (h.calls [] .nil).installed
    rw [List.append_nil] at hinstalled
    refine ⟨[], [], ⟨h.valid, ⟨v, by simp [hheard], hrequest⟩, by simpa using hinstalled,
      by simp [h.silent], spoken_new request⟩, Nat.zero_le _⟩
  | unready _ request calls first _ hphase hfirst hfails =>
    rw [hphase] at h
    obtain ⟨v, hheard, hrequest⟩ := h.begun
    have hnames : ∀ other, Request.ofValue v = some other →
        request.executionId = other.executionId := by
      intro other hother
      rw [Option.some.inj (hrequest.symm.trans hother)]
    subst hout
    rcases hfirst with rfl | ⟨call, response, rfl⟩ <;>
      exact hfails.early (by simp [hheard]) ⟨h.idle, rfl⟩ ⟨h.silent, rfl⟩
        (Or.inr ⟨v, by simp [hheard], hnames⟩)
  | raised _ request host e hphase _ =>
    cases hout
    rw [hphase] at h
    exact Speaks.quiet h (Nat.le_refl 0) rfl rfl rfl
  | answered _ request host next sent turn result hphase hexecutes hcrosses hturn hevent =>
    cases hout
    rw [hphase] at h
    obtain ⟨events, replies, hprogram, -⟩ := h
    have hadmissible := Request.validate_iff.mp hprogram.valid
    have hnone : turn.event = none := by
      rcases hevent with hnone | ⟨event, hsome, hlarge⟩
      · exact hnone
      · have htravels := turn_travels hs hn hstrict hadmissible hcrosses.bounded
          hprogram.spoken.counted.execution hturn hsome
        exact absurd htravels.1 (Nat.not_le.mpr hlarge)
    have hspoken := (hprogram.spoken.turn hprogram.valid hexecutes hcrosses.bounded hturn).1
    rw [hnone, Option.toList_none, List.append_nil] at hspoken
    exact ⟨events, replies, { hprogram.quiet rfl rfl rfl with spoken := hspoken },
      hspoken.replies⟩
  | printed _ request host next sent turn event hphase hexecutes hcrosses hturn hevent _ =>
    cases hout
    rw [hphase] at h
    obtain ⟨events, replies, hprogram, -⟩ := h
    obtain ⟨hspoken, hcall⟩ :=
      hprogram.spoken.turn hprogram.valid hexecutes hcrosses.bounded hturn
    refine ⟨events ++ turn.event.toList, replies, ⟨hprogram.valid, by simpa using hprogram.begun,
      by simpa using hprogram.installed, ?_, hspoken⟩, ?_⟩
    · simp [hprogram.wrote, hevent]
    · by_cases hturncall : turn = .call event
      · simpa [hturncall] using hcall event hturncall
      · simpa [hturncall] using hspoken.replies
  | concluded _ request host native cpuMs event hphase _ hevent _ =>
    cases hout
    rw [hphase] at h
    obtain ⟨result, time, rfl⟩ := conclusion_completed hevent
    exact Speaks.ends h rfl (.completed native result time) rfl rfl
  | inconclusive _ request host _ hphase hfails =>
    rw [hphase] at h
    subst hout
    exact hfails.late h
  | sent request host call rest n hphase _ _ =>
    cases hout
    rw [hphase] at h
    exact Speaks.quiet h (Nat.le_refl _) rfl rfl rfl
  | sentLog request host rest n hphase _ _ =>
    cases hout
    rw [hphase] at h
    exact Speaks.quiet h (Nat.le_refl _) rfl rfl rfl
  | sentCall request host rest n hphase _ _ =>
    cases hout
    rw [hphase] at h
    exact Speaks.quiet h (Nat.le_refl _) rfl rfl rfl
  | cut _ request host call rest hphase _ =>
    cases hout
    rw [hphase] at h
    exact Speaks.quiet h (Nat.zero_le _) rfl rfl rfl
  | replied request host v rest hphase _ =>
    cases hout
    rw [hphase] at h
    obtain ⟨events, replies, hprogram, howed⟩ := h
    obtain ⟨first, hheard, hrequest⟩ := hprogram.begun
    have hspoken : Spoken request host events (replies ++ [v]) := hprogram.spoken.reply howed
    exact ⟨events, replies ++ [v], ⟨hprogram.valid, ⟨first, by simp [hheard], hrequest⟩,
      by simpa using hprogram.installed, by simpa using hprogram.wrote, hspoken⟩, hspoken.replies⟩
  | unreplied _ request host rest hphase _ =>
    cases hout
    rw [hphase] at h
    exact Speaks.quiet h (Nat.zero_le 1) rfl rfl rfl
  | sentLast execution completed rest n hphase _ =>
    cases hout
    rw [hphase] at h
    exact Story.quiet h rfl rfl rfl rfl

theorem told_reaches (hs : serde.Standard) (hn : serde.Numeric) (hstrict : serde.Strict) {s : State}
    (h : (machine serde target number).Reaches s history) :
    s.phase.Told target number history := by
  refine h.invariant (I := fun s history => s.phase.Told target number history) ?_ ?_
  · intro s history hstart
    obtain ⟨rfl, rfl⟩ := hstart
    exact ⟨rfl, rfl, rfl, rfl⟩
  · intro s answer t history effects hi hstep
    exact told_step hs hn hstrict hi hstep

/-- The last step of a process has no effect. -/
theorem effects_exit {s : State} {answer : Answer} {status : ExitStatus}
    (h : step serde target number s answer = some (.exit status effects)) : effects = [] := by
  have hc := step_cases h
  generalize hout : Outcome.exit status effects = out at hc
  cases hc with
  | died | exited | cutLast =>
    cases hout
    rfl
  | refused _ _ _ _ _ _ _ hfails | unready _ _ _ _ _ _ _ hfails | inconclusive _ _ _ _ _ hfails =>
    obtain ⟨message, hfinishes⟩ := hfails
    subst hout
    cases hfinishes
  | _ => cases hout

/-! ## The stream -/

/-- What is left of the frame that is being written. -/
def Phase.rest : Phase → Bytes
  | .printing _ _ _ rest | .finishing _ _ rest => rest
  | .starting | .entering _ _ | .running _ _ | .awaiting _ _ => []

/-- The stream against the state: as long as no write fails, what is left of it is known. -/
structure Output (serde : SerdeJson) (s : State) (history : List Effect) : Prop where
  written : Written serde history
  whole : s.broken = false → sent history ++ s.phase.rest = wire serde (printed history)

/-- Nothing is written, and nothing is left to write. -/
theorem Output.quiet {s t : State} (h : Output serde s history) (hprinted : printed effects = [])
    (hsent : sent effects = [])
    (hwhole : t.broken = false → s.broken = false ∧ t.phase.rest = s.phase.rest) :
    Output serde t (history ++ effects) := by
  refine ⟨⟨?_, ?_⟩, fun hbroken => ?_⟩
  · rw [printed_append, hprinted, List.append_nil]
    exact h.written.bounded
  · rw [sent_append, printed_append, hsent, hprinted, List.append_nil, List.append_nil]
    exact h.written.stream
  · obtain ⟨hsound, hrest⟩ := hwhole hbroken
    rw [sent_append, printed_append, hsent, hprinted, List.append_nil, List.append_nil, hrest]
    exact h.whole hsound

/-- A value is handed to the stream while nothing is left of the one before. -/
theorem Output.print {s t : State} {v : Value} (h : Output serde s history)
    (hprinted : printed effects = [v]) (hsent : sent effects = []) (hbroken : t.broken = s.broken)
    (hidle : s.phase.rest = []) (hfits : (serde.toVec v).length ≤ MAX_FRAME)
    (hrest : t.phase.rest = Framing.frame (serde.toVec v)) :
    Output serde t (history ++ effects) := by
  refine ⟨⟨?_, ?_⟩, fun hsound => ?_⟩
  · intro w hw
    rw [printed_append, hprinted] at hw
    rcases List.mem_append.mp hw with hw | hw
    · exact h.written.bounded w hw
    · rwa [List.mem_singleton.mp hw]
  · rw [sent_append, printed_append, hsent, hprinted, List.append_nil, wire_append]
    exact h.written.stream.trans (List.prefix_append _ _)
  · have hwhole := h.whole (hbroken ▸ hsound)
    rw [hidle, List.append_nil] at hwhole
    rw [sent_append, printed_append, hsent, hprinted, List.append_nil, hwhole, hrest, wire_append,
      wire_singleton hfits]

/-- A write takes some bytes of what is left. -/
theorem Output.send {s t : State} {rest : Bytes} {n : Nat} (h : Output serde s history)
    (hprinted : printed effects = []) (hsent : sent effects = rest.take n)
    (hbroken : s.broken = false) (hrest : s.phase.rest = rest)
    (hleft : t.phase.rest = rest.drop n) : Output serde t (history ++ effects) := by
  have hwhole := h.whole hbroken
  rw [hrest] at hwhole
  have hall : sent (history ++ effects) ++ rest.drop n =
      wire serde (printed (history ++ effects)) := by
    rw [sent_append, printed_append, hsent, hprinted, List.append_nil, List.append_assoc,
      List.take_append_drop, hwhole]
  refine ⟨⟨?_, ?_⟩, fun _ => by rw [hleft, hall]⟩
  · rw [printed_append, hprinted, List.append_nil]
    exact h.written.bounded
  · rw [← hall]
    exact List.prefix_append _ _

/-- A failure is written, if it is, behind everything else. -/
theorem Fails.output {s t : State} {input : Bytes} {execution : String} {more : List Effect}
    (h : Fails serde { s with input := input } execution effects (.next t more))
    (houtput : Output serde s history) (hidle : s.phase.rest = []) (hprinted : printed effects = [])
    (hsent : sent effects = []) : Output serde t (history ++ more) := by
  obtain ⟨message, hfinishes⟩ := h
  cases hfinishes with
  | whole hfits => exact houtput.print (by simp [hprinted]) (by simp [hsent]) rfl hidle hfits rfl
  | none => exact houtput.quiet hprinted hsent fun hsound => ⟨hsound, hidle.symm⟩

theorem output_step {s t : State} {answer : Answer} (h : Output serde s history)
    (hstep : step serde target number s answer = some (.next t effects)) :
    Output serde t (history ++ effects) := by
  have hc := step_cases hstep
  generalize hout : Outcome.next t effects = out at hc
  cases hc with
  | died | exited | cutLast => cases hout
  | retried =>
    cases hout
    exact h.quiet rfl rfl fun hsound => ⟨hsound, rfl⟩
  | took bytes =>
    cases hout
    exact h.quiet rfl rfl fun hsound => ⟨hsound, rfl⟩
  | admitted v rest request hphase | called request call rest calls response hphase
  | started request hphase | raised _ request host e hphase
  | answered _ request host next sent turn result hphase | replied request host v rest hphase
  | unreplied _ request host rest hphase =>
    cases hout
    exact h.quiet rfl rfl fun hsound => ⟨hsound, by simp [hphase, Phase.rest]⟩
  | refused _ input execution first _ hphase hfirst hfails =>
    subst hout
    refine hfails.output h (by rw [hphase]; rfl) ?_ ?_ <;>
      rcases hfirst with ⟨rfl, -⟩ | ⟨v, rfl, -⟩ <;> rfl
  | unready _ request calls first _ hphase hfirst hfails =>
    subst hout
    refine Fails.output (s := s) hfails h (by rw [hphase]; rfl) ?_ ?_ <;>
      rcases hfirst with rfl | ⟨call, response, rfl⟩ <;> rfl
  | printed _ request host next sent turn event hphase _ _ _ _ hfits =>
    cases hout
    exact h.print rfl rfl rfl (by rw [hphase]; rfl) hfits rfl
  | concluded _ request host native cpuMs event hphase _ _ hfits =>
    cases hout
    exact h.print rfl rfl rfl (by rw [hphase]; rfl) hfits rfl
  | inconclusive _ request host _ hphase hfails =>
    subst hout
    exact Fails.output (s := s) hfails h (by rw [hphase]; rfl) rfl rfl
  | sent request host call rest n hphase hbroken _ =>
    cases hout
    exact h.send rfl (List.append_nil _) hbroken (by rw [hphase]; rfl) rfl
  | sentLog request host rest n hphase hbroken hnil
  | sentCall request host rest n hphase hbroken hnil =>
    cases hout
    exact h.send rfl (List.append_nil _) hbroken (by rw [hphase]; rfl) hnil.symm
  | cut _ request host call rest hphase _ =>
    cases hout
    exact h.quiet rfl rfl fun hsound => by cases hsound
  | sentLast execution completed rest n hphase hbroken =>
    cases hout
    exact h.send rfl (List.append_nil _) hbroken (by rw [hphase]; rfl) rfl

theorem output_reaches {s : State} (h : (machine serde target number).Reaches s history) :
    Output serde s history := by
  refine h.invariant (I := fun s history => Output serde s history) ?_ ?_
  · intro s history hstart
    obtain ⟨rfl, rfl⟩ := hstart
    exact ⟨⟨by simp, List.nil_prefix⟩, fun _ => rfl⟩
  · intro s answer t history effects hi hstep
    exact output_step hi hstep

/-! ## A run with one call -/

/-- The array that every native method of the sample is called with. -/
def sampleHeap : Heap := fun _ => .array []

def sampleReply : Value :=
  Value.object [("protocol", .string PROTOCOL), ("execution_id", .string "e"),
    ("kind", .string "reply"), ("sequence", .u64 1), ("ok", .bool true), ("value", .null)]

/-- The request is read in two parts, the policy is installed, `app.a` is called and answered,
and the program returns `nil`. -/
def sampleRun : List Answer :=
  let serde := SerdeJson.unicode
  let request := Framing.frame (serde.toVec Request.sample.toValue)
  [.read (.data (request.take 5)), .read (.data (request.drop 5)), .goes] ++
    List.replicate 10 (.system .ok) ++
    [.goes, .invokes sampleHeap (.call (utf8 "a") 0), .write (.room CHUNK),
      .read (.data (Framing.frame (serde.toVec sampleReply))), .goes,
      .ends sampleHeap none 0 0 (.returned .nil) none, .write (.room CHUNK), .goes]

theorem sampleRun_observes : ∃ history,
    (machine SerdeJson.unicode .x86_64 (fun _ => 0)).Observes history ∧
      (returned history).length = 1 ∧ (printed history).length = 2 := by
  have hstart : (machine SerdeJson.unicode .x86_64 (fun _ => 0)).Reaches {} [] := .start ⟨rfl, rfl⟩
  have hplay : ((machine SerdeJson.unicode .x86_64 (fun _ => 0)).play {} [] sampleRun).map
      (fun history => ((returned history).length, (printed history).length)) = some (1, 2) := by
    decide +kernel
  obtain ⟨history, hrun, hlists⟩ := Option.map_eq_some_iff.mp hplay
  exact ⟨history, hstart.observes_of_play hrun, congrArg Prod.fst hlists, congrArg Prod.snd hlists⟩

/-! ## Every run -/

/-- A run of the guest process in any environment, finished or not: the events are those of a
story, and standard output holds a beginning of their frames. -/
theorem guest_discipline (hs : serde.Standard) (hn : serde.Numeric) (hstrict : serde.Strict)
    (h : (machine serde target number).Observes history) :
    Story target number history ∧ Written serde history := by
  refine h.of_invariant (I := fun s history => s.phase.Told target number history ∧
    Output serde s history)
    (P := fun history => Story target number history ∧ Written serde history) ?_ ?_ ?_
  · exact fun s history hreach => ⟨told_reaches hs hn hstrict hreach, output_reaches hreach⟩
  · exact fun s history hi => ⟨hi.1.story, hi.2.written⟩
  · intro s answer status history effects hi hstep
    rw [effects_exit hstep, List.append_nil]
    exact ⟨hi.1.story, hi.2.written⟩

theorem guest_discipline_sample : ∃ history, (printed history).length = 2 ∧
    Story .x86_64 (fun _ => 0) history ∧ Written SerdeJson.unicode history := by
  obtain ⟨history, hobserves, -, hprinted⟩ := sampleRun_observes
  exact ⟨history, hprinted, guest_discipline SerdeJson.unicode_standard SerdeJson.unicode_numeric
    SerdeJson.unicode_strict hobserves⟩

/-- The program has control, or is behind a native method that has not returned. -/
def Phase.inProgram : Phase → Bool
  | .running _ _ | .printing _ _ _ _ | .awaiting _ _ => true
  | .starting | .entering _ _ | .finishing _ _ _ => false

/-- What shows that a program has control or has had it: a native method has returned to it, or
something but a failure of the engine is written. -/
def Ran (s : State) (history : List Effect) : Prop :=
  s.phase.inProgram = true ∨ returned history ≠ [] ∨
    ∃ v ∈ printed history, ∀ execution message, v ≠ failure execution "engine_error" message

theorem not_ran_of_early {s : State} (hphase : s.phase.inProgram = false) (h : Early history) :
    ¬ Ran s history := by
  rintro (hin | hreturned | ⟨v, hv, hother⟩)
  · rw [hphase] at hin
    cases hin
  · exact hreturned h.idle
  · rcases h.wrote with hnone | ⟨execution, message, hone, -⟩
    · rw [hnone] at hv
      cases hv
    · rw [hone] at hv
      exact hother execution message (List.mem_singleton.mp hv)

/-- A history that does not end in the story of a program has none. -/
theorem Phase.Told.program {s : State} (h : s.phase.Told target number history)
    (hran : Ran s history) : ∃ request host events terminal replies,
      Program target number request host events terminal replies history := by
  have hstory := h.story
  cases hphase : s.phase with
  | starting | entering =>
    rw [hphase] at h
    cases hstory with
    | early hearly => exact absurd hran (not_ran_of_early (by rw [hphase]; rfl) hearly)
    | program request host events terminal replies hprogram =>
      exact ⟨request, host, events, terminal, replies, hprogram⟩
  | running request host | printing request host | awaiting request host =>
    rw [hphase] at h
    obtain ⟨events, replies, hprogram, -⟩ := h
    exact ⟨request, host, events, [], replies, hprogram⟩
  | finishing =>
    cases hstory with
    | early hearly => exact absurd hran (not_ran_of_early (by rw [hphase]; rfl) hearly)
    | program request host events terminal replies hprogram =>
      exact ⟨request, host, events, terminal, replies, hprogram⟩

/-- A program has control only of a process that has read an admissible request first and has
made all the calls of the policy for it since, with success where a failure ends the start. -/
theorem contained (hs : serde.Standard) (hn : serde.Numeric) (hstrict : serde.Strict) {s : State}
    (h : (machine serde target number).Reaches s history) (hran : Ran s history) :
    ∃ v replies request, heard history = v :: replies ∧ Request.ofValue v = some request ∧
      request.Admissible ∧
      Installed target number request.limits.wallMs request.limits.cpuMs (called history) := by
  obtain ⟨request, host, events, terminal, replies, hprogram⟩ :=
    (told_reaches hs hn hstrict h).program hran
  obtain ⟨v, hheard, hrequest⟩ := hprogram.begun
  exact ⟨v, replies, request, hheard, hrequest, Request.validate_iff.mp hprogram.valid,
    hprogram.installed⟩

theorem contained_sample : ∃ (s : State) (history : List Effect), s.phase.inProgram = true ∧
    ∃ v replies request, heard history = v :: replies ∧ Request.ofValue v = some request ∧
      request.Admissible ∧ Installed .x86_64 (fun _ => 0) request.limits.wallMs
        request.limits.cpuMs (called history) := by
  have hfollow : ((machine SerdeJson.unicode .x86_64 (fun _ => 0)).follow {} []
      (sampleRun.take 14)).map (fun p => p.1.phase.inProgram) = some true := by decide +kernel
  obtain ⟨⟨s, history⟩, hrun, hphase⟩ := Option.map_eq_some_iff.mp hfollow
  have hstart : (machine SerdeJson.unicode .x86_64 (fun _ => 0)).Reaches {} [] := .start ⟨rfl, rfl⟩
  have hreach := hstart.follow hrun
  exact ⟨s, history, hphase, contained SerdeJson.unicode_standard SerdeJson.unicode_numeric
    SerdeJson.unicode_strict hreach (Or.inl hphase)⟩

end

end RubyEngine.Guest.Process
