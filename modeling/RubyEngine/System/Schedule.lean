import RubyEngine.System

/-!
# Schedules

The turns of the three processes, one after the other, as something that runs. A turn that
the system does not allow stops it.
-/
namespace RubyEngine

open Json (Value)
open Transition.Machine (Position)
open Supervisor (Loop decodedFrames sentTo tookFrom)
open Guest (Process.front Process.heard Process.machine Process.Reports Process.sampleHeap
  Process.sampleReply Process.sent Process.took)

theorem replies_iff {serde : SerdeJson} {call v : Value} {payload : Bytes} :
    Replies serde call payload v ↔ (serde.fromSlice payload).toOption = some v ∧
      (0 < payload.length ∧ payload.length ≤ MAX_FRAME) ∧ (serde.toVec v).length ≤ MAX_FRAME ∧
      (v.index "protocol").asStr = some PROTOCOL ∧
      v.index "execution_id" = call.index "execution_id" ∧
      v.index "sequence" = call.index "sequence" ∧ (v.index "kind").asStr = some "reply" ∧
      (v.index "ok").isBoolean = true := by
  constructor
  · intro h
    exact ⟨by rw [h.parsed]; rfl, ⟨h.fits.nonempty, h.fits.bounded⟩, h.forwarded, h.protocol,
      h.identity, h.sequence, h.kind, h.ok⟩
  · rintro ⟨hparsed, ⟨hnonempty, hbounded⟩, hforwarded, hprotocol, hidentity, hsequence, hkind, hok⟩
    refine ⟨?_, ⟨hnonempty, hbounded⟩, hforwarded, hprotocol, hidentity, hsequence, hkind, hok⟩
    cases hread : serde.fromSlice payload with
    | error e =>
      rw [hread] at hparsed
      cases hparsed
    | ok w =>
      rw [hread] at hparsed
      rw [Option.some.inj hparsed]

instance (serde : SerdeJson) (call v : Value) (payload : Bytes) :
    Decidable (Replies serde call payload v) := decidable_of_iff' _ replies_iff

namespace System

instance (σ : System) (bytes : Bytes) : Decidable (σ.HostShows bytes) :=
  inferInstanceAs (Decidable (_ ∨ _))

instance (σ : System) (bytes : Bytes) : Decidable (σ.GuestShows bytes) :=
  inferInstanceAs (Decidable (if bytes = [] then _ else _))

instance (σ : System) (s : Loop) (answer : Supervisor.Answer) : Decidable (σ.LoopReads s answer) :=
  match answer with
  | .read (.data _) => inferInstanceAs (Decidable (_ ∧ _))
  | .read (.failed _) => inferInstanceAs (Decidable (_ ≠ _))
  | .clock _ | .resident _ | .write _ | .waited _ | .polled _ => isTrue trivial

instance (σ : System) (answer : Guest.Process.Answer) : Decidable (σ.GuestReads answer) :=
  match answer with
  | .read (.data bytes) => inferInstanceAs (Decidable (if bytes = [] then _ else _))
  | .read (.failed _) => inferInstanceAs (Decidable (_ = _))
  | .goes | .write _ | .system _ | .invokes _ _ | .ends _ _ _ _ _ _ | .dies _ => isTrue trivial

inductive Turn where
  | loop (answer : Supervisor.Answer)
  | guest (answer : Guest.Process.Answer)
  | read (bytes : Bytes)
  | reply (payload : Bytes) (v : Value)
  | write (n : Nat)

section

variable (serde : SerdeJson) (target : Isolation.Target) (number : Isolation.Syscall → Int64)
  (request : Request)

def answered (σ : System) (answer : Supervisor.Answer) : System :=
  { σ with loop := (Supervisor.machine serde request).advance σ.loop answer }

def turn (σ : System) : Turn → Option System
  | .loop answer =>
      match σ.loop with
      | .ended _ _ => some (σ.answered serde request answer)
      | .running s _ =>
          if σ.LoopReads s answer then some (σ.answered serde request answer) else none
  | .guest answer =>
      if σ.GuestReads answer then
        some { σ with guest := (Process.machine serde target number).advance σ.guest answer }
      else none
  | .read bytes =>
      if σ.caller.took ++ bytes <+: sentTo .host σ.loop.history then
        some { σ with caller := { σ.caller with took := σ.caller.took ++ bytes } }
      else none
  | .reply payload v =>
      match (σ.caller.calls serde)[σ.caller.replies.length]? with
      | none => none
      | some call =>
          if Replies serde call payload v then
            some { σ with caller :=
              { σ.caller with replies := σ.caller.replies ++ [(payload, v)] } }
          else none
  | .write n =>
      some { σ with caller :=
        { σ.caller with
          sent := σ.caller.sent ++ (σ.caller.stream.drop σ.caller.sent.length).take n } }

/-- A scheduler that looks at the system to choose each turn. -/
def play (σ : System) : List (System → Turn) → Option System
  | [] => some σ
  | choose :: rest => (σ.turn serde target number request (choose σ)).bind fun τ => τ.play rest

variable {serde target number request} {σ τ : System}

/-- The turns are the steps. -/
theorem step_iff_turn :
    Step serde target number request σ τ ↔ ∃ t, σ.turn serde target number request t = some τ := by
  constructor
  · intro h
    cases h with
    | loop answer hreads =>
      refine ⟨.loop answer, ?_⟩
      cases hloop : σ.loop with
      | ended => simp only [turn, hloop, answered]
      | running s history =>
        have hread := hreads s history hloop
        simp only [turn, hloop, if_pos hread, answered]
    | guest answer hreads => exact ⟨.guest answer, if_pos hreads⟩
    | caller c hstep =>
      cases hstep with
      | read bytes hfront => exact ⟨.read bytes, if_pos hfront⟩
      | reply call payload v hcall hreply =>
        refine ⟨.reply payload v, ?_⟩
        rw [turn, hcall]
        exact if_pos hreply
      | write n => exact ⟨.write n, rfl⟩
  · rintro ⟨t, h⟩
    cases t with
    | loop answer =>
      rw [turn] at h
      split at h
      · next result history hloop =>
        cases h
        refine .loop answer fun s past hrun => ?_
        rw [hloop] at hrun
        cases hrun
      · next s history hloop =>
        split at h
        · next hreads =>
          cases h
          refine .loop answer fun t past hrun => ?_
          rw [hloop] at hrun
          cases hrun
          exact hreads
        · cases h
    | guest answer =>
      rw [turn] at h
      split at h
      · next hreads =>
        cases h
        exact .guest answer hreads
      · cases h
    | read bytes =>
      rw [turn] at h
      split at h
      · next hfront =>
        cases h
        exact .caller _ (.read bytes hfront)
      · cases h
    | reply payload v =>
      rw [turn] at h
      split at h
      · cases h
      · next call hcall =>
        split at h
        · next hreply =>
          cases h
          exact .caller _ (.reply call payload v hcall hreply)
        · cases h
    | write n =>
      cases h
      exact .caller _ (.write n)

theorem Reachable.play {choices : List (System → Turn)}
    (h : Reachable serde target number request σ)
    (hplay : σ.play serde target number request choices = some τ) :
    Reachable serde target number request τ := by
  induction choices generalizing σ with
  | nil =>
    cases hplay
    exact h
  | cons choose rest ih =>
    rw [System.play, Option.bind_eq_some_iff] at hplay
    obtain ⟨next, hturn, hrest⟩ := hplay
    exact ih (.step h (step_iff_turn.mpr ⟨_, hturn⟩)) hrest

/-- A play that begins with another one goes on where that one has led. -/
theorem play_onward {first whole : List (System → Turn)} (hfirst : first <+: whole) {ρ : System}
    (hplay : σ.play serde target number request first = some τ)
    (hrest : τ.play serde target number request (whole.drop first.length) = some ρ) :
    σ.play serde target number request whole = some ρ := by
  obtain ⟨rest, rfl⟩ := hfirst
  rw [List.drop_left] at hrest
  induction first generalizing σ with
  | nil =>
    cases hplay
    exact hrest
  | cons choose first ih =>
    rw [System.play, Option.bind_eq_some_iff] at hplay
    obtain ⟨next, hturn, hfirst⟩ := hplay
    rw [List.cons_append, System.play, hturn]
    exact ih hfirst

end

/-! ## An execution with one call -/

/-- What waits in a pipe is read as a whole. -/
def readsHost (σ : System) : Turn :=
  .loop (.read (.data (σ.caller.sent.drop (tookFrom .host σ.loop.history).length)))

def readsGuest (σ : System) : Turn :=
  .loop (.read (.data ((Process.sent σ.guest.history).drop (tookFrom .guest σ.loop.history).length)))

def readsNothing (_ : System) : Turn := .loop (.read (.failed ⟨.wouldBlock, ""⟩))

def guestReads (σ : System) : Turn :=
  .guest (.read (.data ((sentTo .guest σ.loop.history).drop (Process.took σ.guest.history).length)))

def callerReads (σ : System) : Turn :=
  .read ((sentTo .host σ.loop.history).drop σ.caller.took.length)

/-- The first part of an iteration, up to the write to the host. -/
def relays (host : System → Turn) : List (System → Turn) :=
  [fun _ => .loop (.clock false), fun _ => .loop (.resident none), host,
    fun _ => .loop (.write (.room CHUNK)), fun _ => .loop (.write (.room CHUNK))]

def iteration (host guest : System → Turn) : List (System → Turn) :=
  relays host ++ [guest, fun _ => .loop (.waited (.ok none)), fun _ => .loop (.polled (.ok ()))]

def goes (_ : System) : Turn := .guest .goes

def guestWrites (_ : System) : Turn := .guest (.write (.room CHUNK))

/-- The request goes to the guest, the guest calls, and the caller has the call. -/
def sampleCalled : List (System → Turn) :=
  iteration readsNothing readsNothing ++ [guestReads, goes] ++
    List.replicate 10 (fun _ => .guest (.system .ok)) ++
    [goes, fun _ => .guest (.invokes Process.sampleHeap (.call (utf8 "a") 0)), guestWrites] ++
    iteration readsNothing readsGuest ++ iteration readsNothing readsGuest ++
    iteration readsNothing readsNothing ++ [callerReads]

/-- The caller replies, and the reply goes to the guest. -/
def sampleAnswered : List (System → Turn) :=
  sampleCalled ++ [fun _ => .reply (SerdeJson.unicode.toVec Process.sampleReply) Process.sampleReply,
    fun _ => .write CHUNK] ++
    iteration readsHost readsNothing ++ iteration readsHost readsNothing ++ [guestReads]

/-- The program returns, and the terminal event goes to the caller. -/
def sampleCompleted : List (System → Turn) :=
  sampleAnswered ++ [goes,
    fun _ => .guest (.ends Process.sampleHeap none 0 0 (.returned .nil) none), guestWrites, goes] ++
    iteration readsNothing readsGuest ++ iteration readsNothing readsGuest ++
    relays readsNothing ++ [callerReads]

def sampleStart : System where
  loop := .running { toGuest := Supervisor.fresh SerdeJson.unicode Request.sample.toValue }
    [.enqueued .guest Request.sample.toValue]
  guest := .running {} []
  caller := {}

/-- The same program goes on from any state. -/
def sampleFrom (σ : System) (choices : List (System → Turn)) : Option System :=
  σ.play SerdeJson.unicode .x86_64 (fun _ => 0) Request.sample choices

def samplePlay (choices : List (System → Turn)) : Option System :=
  sampleStart.play SerdeJson.unicode .x86_64 (fun _ => 0) Request.sample choices

theorem sample_reachable {choices : List (System → Turn)} {σ : System}
    (h : samplePlay choices = some σ) :
    Reachable SerdeJson.unicode .x86_64 (fun _ => 0) Request.sample σ := by
  have hplain : Plain Request.sample.toValue := ⟨by decide, by decide⟩
  refine Reachable.play (.start ⟨?_, ⟨_, ?_, rfl⟩, rfl, rfl⟩) h
  · exact ⟨_, Request.sample.toValue, SerdeJson.unicode_documented.back hplain, by decide⟩
  · exact Supervisor.enter_of_fits (by decide) (by decide +kernel)

/-- The place and the error of a loop that an answer ends. -/
def failing (serde : SerdeJson) (request : Request) (answer : Supervisor.Answer) (σ : System) :
    Option (Supervisor.Phase × IoError) :=
  match σ.loop with
  | .ended _ _ => none
  | .running s _ =>
      match Supervisor.step serde request s answer with
      | some (.exit (.error e) _) => some (s.phase, e)
      | _ => none

/-- The host that a waiting guest has, and what waits for it. -/
def waiting (serde : SerdeJson) (σ : System) : Option (Guest.Host × Value) :=
  match σ.guest with
  | .ended _ _ => none
  | .running s _ =>
      match s.phase, Process.front serde s.input with
      | .awaiting _ host, .value v _ => some (host, v)
      | _, _ => none

theorem waiting_some {serde : SerdeJson} {σ : System} {host : Guest.Host} {v : Value}
    (h : waiting serde σ = some (host, v)) : ∃ s history r rest, σ.guest = .running s history ∧
      s.phase = .awaiting r host ∧ Process.front serde s.input = .value v rest := by
  unfold waiting at h
  split at h
  · cases h
  · next s history hguest =>
    split at h
    · next r host' v' rest hphase hfront =>
      cases h
      exact ⟨s, history, r, rest, hguest, hphase, hfront⟩
    · cases h

/-- Nothing is on its way, and the guest waits for a reply. -/
def resting (serde : SerdeJson) (σ : System) : Bool :=
  match σ.loop, σ.guest with
  | .running s history, .running g _ =>
      decide (tookFrom .guest history = Process.sent σ.guest.history) &&
        decide (tookFrom .host history = σ.caller.sent) &&
        decide (Process.took σ.guest.history = sentTo .guest history) &&
        decide (σ.caller.took = sentTo .host history) && !s.toGuest.pending &&
        !s.toHost.pending && decide (σ.caller.sent = σ.caller.stream) &&
        (match g.phase, Process.front serde g.input with
          | .awaiting _ _, .more => true
          | _, _ => false)
  | _, _ => false

/-- What the stages of the execution show: the call, the caller that is gone behind it, the reply
and the terminal event. -/
theorem sample_plays : ∃ called cut answered completed : System,
    (samplePlay sampleCalled = some called ∧ resting SerdeJson.unicode called = true) ∧
    (samplePlay (sampleCalled ++ (relays readsNothing).take 2) = some cut ∧
      (cut.caller.calls SerdeJson.unicode).length = 1 ∧
      failing SerdeJson.unicode Request.sample (.read (.data [])) cut =
        some (.host, disconnected)) ∧
    (samplePlay sampleAnswered = some answered ∧
      (waiting SerdeJson.unicode answered).isSome = true) ∧
    samplePlay sampleCompleted = some completed ∧
      (Process.heard completed.guest.history).length = 2 ∧
      ∃ v ∈ decodedFrames SerdeJson.unicode completed.caller.took, Process.Reports v := by
  -- each stage goes on from the one before: the run is evaluated once
  have hshown : (samplePlay sampleCalled).any (fun called => resting SerdeJson.unicode called &&
      (called.sampleFrom ((relays readsNothing).take 2)).any (fun cut =>
        decide ((cut.caller.calls SerdeJson.unicode).length = 1) &&
        decide (failing SerdeJson.unicode Request.sample (.read (.data [])) cut =
          some (.host, disconnected))) &&
      (called.sampleFrom (sampleAnswered.drop sampleCalled.length)).any (fun answered =>
        (waiting SerdeJson.unicode answered).isSome &&
        (answered.sampleFrom (sampleCompleted.drop sampleAnswered.length)).any (fun completed =>
          decide ((Process.heard completed.guest.history).length = 2) &&
          (decodedFrames SerdeJson.unicode completed.caller.took).any
            fun v => decide (Process.Reports v)))) = true := by decide +kernel
  obtain ⟨called, hcalled, hstages⟩ := (Option.any_eq_true _ _).mp hshown
  simp only [Bool.and_eq_true, decide_eq_true_eq, Option.any_eq_true, List.any_eq_true] at hstages
  obtain ⟨⟨hresting, cut, hcut, hcalls, hfailing⟩, answered, hanswered, hwaiting, completed,
    hcompleted, hheard, v, hv, hreports⟩ := hstages
  have hfirst : sampleCalled <+: sampleAnswered := by
    simp only [sampleAnswered, List.append_assoc]
    exact List.prefix_append _ _
  have hsecond : sampleAnswered <+: sampleCompleted := by
    simp only [sampleCompleted, List.append_assoc]
    exact List.prefix_append _ _
  have hreplied := play_onward hfirst hcalled hanswered
  refine ⟨called, cut, answered, completed, ⟨hcalled, hresting⟩, ⟨?_, hcalls, hfailing⟩,
    ⟨hreplied, hwaiting⟩, play_onward hsecond hreplied hcompleted, hheard, v, hv, hreports⟩
  exact play_onward (List.prefix_append _ _) hcalled (List.drop_left ▸ hcut)

end System

end RubyEngine
