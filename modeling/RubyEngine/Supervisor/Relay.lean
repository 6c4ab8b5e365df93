import RubyEngine.Supervisor.Streams

/-!
# Relay fidelity and the terminal event

What the host reads is what the guest wrote, frame by frame, and at its end at
most one diagnostic of the supervisor. Two facts that no test of the loop states
carry the proof: a completed loop still owes a frame to the host, and a loop whose
guest has closed its output owes none until it completes.
-/
namespace RubyEngine.Supervisor.Relay

open Json (Value)
open Transition (Outcome Machine)

def isCompleted (v : Value) : Bool := (v.index "kind").asStr = some "completed"

/-- A terminal event that the supervisor writes in place of the guest. -/
inductive Synthesized (request : Request) : Value → Prop where
  | wallTimeout : Synthesized request (wallTimeout request)
  | memoryLimit : Synthesized request (memoryLimit request)
  | guestExit (status : ExitStatus) : Synthesized request (guestExit request status)

structure Relayed (serde : SerdeJson) (request : Request) (history : List Effect) : Prop where
  fidelity : ∃ relayed synthesized, enqueuedTo .host history = relayed ++ synthesized ∧
    synthesized.length ≤ 1 ∧ (∀ v ∈ synthesized, Synthesized request v) ∧
    ∀ stream, tookFrom .guest history <+: stream → relayed <+: decodedFrames serde stream
  unique : ((enqueuedTo .host history).filter isCompleted).length ≤ 1
  final : ∀ before v after, enqueuedTo .host history = before ++ v :: after →
    isCompleted v = true → after = []

/-- A terminal event has been delivered, and nothing is left behind it. -/
def Delivered (serde : SerdeJson) (history : List Effect) : Prop :=
  ∃ before last, enqueuedTo .host history = before ++ [last] ∧ isCompleted last = true ∧
    sentTo .host history = wire serde (enqueuedTo .host history)

/-- The value that a step gives to `to_host.enqueue`, whatever becomes of it. -/
def hostEnqueue (serde : SerdeJson) (request : Request) (s : Loop) (answer : Answer) :
    Option Value :=
  match s.phase, answer with
  | .deadline, .clock true => if s.toHost.pending then none else some (wallTimeout request)
  | .memory, .resident bytes =>
      if !s.completed && bytes.any (fun n => MEMORY_CEILING < n) && !s.toHost.pending then
        some (memoryLimit request)
      else none
  | .guest, .read outcome =>
      if !s.completed && !s.toHost.pending && !s.guestClosed then
        match (s.guest.receive serde outcome).result with
        | .ok (some event) =>
            if (event.index "protocol").asStr ≠ some PROTOCOL ∨
                (event.index "execution_id").asStr ≠ some request.executionId then none
            else
              match admitEvent request { s with guest := (s.guest.receive serde outcome).reader }
                event with
              | .ok _ => some event
              | .error _ => none
        | _ => none
      else none
  | .childExit, .waited (.ok (some status)) =>
      if s.guestClosed && !s.completed then some (guestExit request status) else none
  | _, _ => none

/-! ## The invariant -/

/-- The loop has its terminal event, or is about to end without one. -/
def Closing (s : Loop) : Prop := s.completed = true ∨ s.phase = .lastSend

structure Inv (request : Request) (s : Loop) (history : List Effect) : Prop where
  relayed : ∃ synthesized, enqueuedTo .host history = receivedFrom .guest history ++ synthesized ∧
    synthesized.length ≤ 1 ∧ (∀ v ∈ synthesized, Synthesized request v) ∧
    (¬ Closing s → synthesized = [])
  opened : ¬ Closing s → ∀ v ∈ enqueuedTo .host history, isCompleted v = false
  closed : Closing s → ∃ before last, enqueuedTo .host history = before ++ [last] ∧
    isCompleted last = true ∧ ∀ v ∈ before, isCompleted v = false
  owing : Closing s → s.toHost.pending = true
  drained : s.guestClosed = true → ¬ Closing s → s.toHost.pending = false

theorem isCompleted_failure (execution kind message : String) :
    isCompleted (failure execution kind message) = true := by
  simp [isCompleted, failure, SortedMap.lookup, Json.Doc.asStr]

theorem Synthesized.completed {request : Request} {v : Value} (h : Synthesized request v) :
    isCompleted v = true := by
  cases h <;> exact isCompleted_failure _ _ _

/-- A step that neither receives from the guest nor enqueues for the host. -/
theorem inv_of_quiet {request : Request} {s t : Loop} {history effects : List Effect}
    (h : Inv request s history) (henq : enqueuedTo .host effects = [])
    (hrec : receivedFrom .guest effects = []) (hclosing : Closing t ↔ Closing s)
    (howing : Closing s → t.toHost.pending = true)
    (hdrained : t.guestClosed = true → ¬ Closing s → t.toHost.pending = false) :
    Inv request t (history ++ effects) := by
  obtain ⟨hr, ho, hc, hw, hd⟩ := h
  refine ⟨?_, ?_, ?_, ?_, ?_⟩
  · simpa [henq, hrec, hclosing] using hr
  · simpa [henq, hclosing] using ho
  · simpa [henq, hclosing] using hc
  · simpa [hclosing] using howing
  · simpa [hclosing] using hdrained

/-- The terminal event that the supervisor itself puts at the end. -/
theorem inv_synthesized {request : Request} {s t : Loop} {history effects : List Effect} {v : Value}
    (h : Inv request s history) (hs : ¬ Closing s) (hv : Synthesized request v)
    (henq : enqueuedTo .host effects = [v]) (hrec : receivedFrom .guest effects = [])
    (ht : Closing t) (hw : t.toHost.pending = true) :
    Inv request t (history ++ effects) := by
  obtain ⟨synthesized, heq, _, _, hnone⟩ := h.relayed
  obtain rfl := hnone hs
  rw [List.append_nil] at heq
  refine ⟨⟨[v], ?_, Nat.le_refl 1, ?_, fun hn => absurd ht hn⟩, fun hn => absurd ht hn,
    fun _ => ⟨enqueuedTo .host history, v, ?_, hv.completed, h.opened hs⟩, fun _ => hw,
    fun _ hn => absurd ht hn⟩
  · rw [enqueuedTo_append, receivedFrom_append, henq, hrec, heq, List.append_nil]
  · intro x hx
    rw [List.mem_singleton.mp hx]
    exact hv
  · rw [enqueuedTo_append, henq]

/-- An event of the guest that is relayed. -/
theorem inv_relayed {request : Request} {s t : Loop} {history effects : List Effect} {v : Value}
    (h : Inv request s history) (hs : ¬ Closing s) (henq : enqueuedTo .host effects = [v])
    (hrec : receivedFrom .guest effects = [v]) (ht : Closing t ↔ isCompleted v = true)
    (hopen : t.guestClosed = false) (hw : t.toHost.pending = true) :
    Inv request t (history ++ effects) := by
  obtain ⟨synthesized, heq, _, _, hnone⟩ := h.relayed
  obtain rfl := hnone hs
  rw [List.append_nil] at heq
  refine ⟨⟨[], ?_, by simp, by simp, fun _ => rfl⟩, ?_, ?_, fun _ => hw, ?_⟩
  · rw [enqueuedTo_append, receivedFrom_append, henq, hrec, heq, List.append_nil]
  · intro hn x hx
    rw [enqueuedTo_append, henq, List.mem_append, List.mem_singleton] at hx
    rcases hx with hx | rfl
    · exact h.opened hs x hx
    · exact Bool.eq_false_of_not_eq_true (fun hc => hn (ht.mpr hc))
  · intro hc
    exact ⟨enqueuedTo .host history, v, by rw [enqueuedTo_append, henq], ht.mp hc, h.opened hs⟩
  · intro hg
    rw [hopen] at hg
    cases hg

theorem inv_start {serde : SerdeJson} {request : Request} {s : Loop}
    (h : enter serde request = .ok s) : Inv request s [.enqueued .guest request.toValue] := by
  obtain ⟨_, _, hs⟩ := enter_cases h
  have hopen : ¬ Closing s := by
    rw [hs]
    simp [Closing]
  refine ⟨⟨[], by simp, by simp, by simp, fun _ => rfl⟩, by simp, fun hc => absurd hc hopen,
    fun hc => absurd hc hopen, ?_⟩
  intro hg
  rw [hs] at hg
  cases hg

/-- A buffer that took a value was empty, so the loop was not closing. -/
theorem Inv.not_closing {serde : SerdeJson} {request : Request} {s : Loop} {history : List Effect}
    {v : Value} {w : Writer} (h : Inv request s history) (hw : Loads serde s.toHost v w) :
    ¬ Closing s := by
  intro hc
  have hp := h.owing hc
  rw [hw.drained] at hp
  cases hp

theorem inv_step {serde : SerdeJson} {request : Request} {s t : Loop} {answer : Answer}
    {history effects : List Effect} (h : Inv request s history)
    (hstep : step serde request s answer = some (.next t effects)) :
    Inv request t (history ++ effects) := by
  have hc := step_cases hstep
  cases hc with
  | idle _ phase hleave henter =>
    exact inv_of_quiet h rfl rfl (by simp [Closing, hleave, henter]) h.owing h.drained
  | expired w _ hw =>
    exact inv_synthesized h (h.not_closing hw) .wallTimeout (by simp) (by simp) (Or.inr rfl)
      hw.pending
  | ceiling bytes w _ _ hw =>
    exact inv_synthesized h (h.not_closing hw) .memoryLimit (by simp) (by simp) (Or.inl rfl)
      hw.pending
  | hostTook outcome hphase _ =>
    exact inv_of_quiet h (by simp) (by simp) (by simp [Closing, hphase]) h.owing h.drained
  | reply outcome v w hphase _ _ _ =>
    exact inv_of_quiet h (by simp) (by simp) (by simp [Closing, hphase]) h.owing h.drained
  | guestSent outcome hphase _ =>
    exact inv_of_quiet h (by simp) (by simp) (by simp [Closing, hphase]) h.owing h.drained
  | hostSent outcome hphase _ hmore =>
    refine inv_of_quiet h (by simp) (by simp) (by simp [Closing, hphase]) ?_ ?_
    · rintro (hc | hl)
      · exact hmore hc
      · rw [hphase] at hl; cases hl
    · intro hg hn
      have hidle := h.drained hg hn
      rw [Writer.send_of_not_pending hidle]
      exact hidle
  | guestTook outcome hphase _ _ _ _ =>
    exact inv_of_quiet h (by simp) (by simp) (by simp [Closing, hphase]) h.owing h.drained
  | event outcome v s' w hphase hopen hguest _ _ _ hadmit hw =>
    have hs := h.not_closing hw
    cases hadmit with
    | completed hk =>
      have ht : Closing { s with completed := true, phase := .childExit, toHost := w } ↔
          isCompleted v = true := by simp [Closing, isCompleted, hk]
      exact inv_relayed h hs (by simp) (by simp) ht hguest hw.pending
    | log hk | call hk _ =>
      have ht : Closing { s with phase := .childExit, toHost := w } ↔ isCompleted v = true := by
        simp [Closing, isCompleted, hk, hopen]
      exact inv_relayed h hs (by simp) (by simp) ht hguest hw.pending
  | guestEof outcome e hphase hopen hidle _ _ _ =>
    exact inv_of_quiet h (by simp) (by simp) (by simp [Closing, hphase]) h.owing
      (fun _ _ => hidle)
  | childExited status w _ _ _ hw =>
    exact inv_synthesized h (h.not_closing hw) (.guestExit status) (by simp) (by simp)
      (Or.inl rfl) hw.pending

theorem inv_reaches {serde : SerdeJson} {request : Request} {s : Loop} {history : List Effect}
    (h : (machine serde request).Reaches s history) : Inv request s history := by
  refine h.invariant ?_ ?_
  · rintro s history ⟨hs, rfl⟩
    exact inv_start hs
  · intro s answer t history effects hi hstep
    exact inv_step hi hstep

/-! ## Where the loop enqueues -/

/-- What becomes of a value that a step offers to `to_host.enqueue`. -/
def Offered (serde : SerdeJson) (s : Loop) (out : Next) : Option Value → Prop
  | none => enqueuedTo .host out.effects = []
  | some v =>
      match (s.toHost.enqueue serde v).2 with
      | .ok () => enqueuedTo .host out.effects = [v]
      | .error e => out.result = some (.error e)

theorem offered_deadline {serde : SerdeJson} {request : Request} {s : Loop}
    (hphase : s.phase = .deadline) (expired : Bool) :
    Offered serde s (deadlinePhase serde request s expired)
      (hostEnqueue serde request s (.clock expired)) := by
  cases expired with
  | false => simp [hostEnqueue, deadlinePhase, Offered, Outcome.effects]
  | true =>
    cases hp : s.toHost.pending with
    | true => simp [hostEnqueue, hphase, hp, deadlinePhase, Offered, Outcome.effects]
    | false =>
      simp only [hostEnqueue, hphase, hp, deadlinePhase, Offered, Bool.false_eq_true, ↓reduceIte]
      rcases s.toHost.enqueue serde (wallTimeout request) with ⟨w, _ | _⟩
      · simp [Outcome.result]
      · simp [Outcome.effects]

theorem offered_memory {serde : SerdeJson} {request : Request} {s : Loop}
    (hphase : s.phase = .memory) (bytes : Option Nat) :
    Offered serde s (memoryPhase serde request s bytes)
      (hostEnqueue serde request s (.resident bytes)) := by
  simp only [hostEnqueue, hphase, memoryPhase]
  cases hkill : !s.completed && bytes.any (fun n => MEMORY_CEILING < n) with
  | false => simp [Offered, Outcome.effects]
  | true =>
    cases hp : s.toHost.pending with
    | true => simp [Offered, Outcome.effects, fail]
    | false =>
      simp only [Bool.not_false, Bool.and_self, ↓reduceIte, Bool.false_eq_true, Offered]
      rcases s.toHost.enqueue serde (memoryLimit request) with ⟨w, _ | _⟩
      · simp [Outcome.result]
      · simp [Outcome.effects]

theorem offered_host {serde : SerdeJson} {request : Request} {s : Loop}
    (hphase : s.phase = .host) (outcome : ReadOutcome) :
    Offered serde s (hostPhase serde request s outcome)
      (hostEnqueue serde request s (.read outcome)) := by
  simp only [hostEnqueue, hphase, Offered, hostPhase]
  rcases (s.host.receive serde outcome).result with _ | (_ | reply)
  · simp [Outcome.effects]
  · simp [Outcome.effects]
  · simp only [acceptReply]
    split
    · simp [Outcome.effects, fail]
    · split
      · simp [Outcome.effects, fail]
      · split
        · simp [Outcome.effects, fail]
        · rcases s.toGuest.enqueue serde reply with ⟨w, _ | _⟩ <;> simp [Outcome.effects]

theorem offered_toHost {serde : SerdeJson} {request : Request} {s : Loop}
    (hphase : s.phase = .toHost) (outcome : WriteOutcome) :
    Offered serde s (toHostPhase s outcome) (hostEnqueue serde request s (.write outcome)) := by
  simp only [hostEnqueue, hphase, Offered, toHostPhase]
  rcases (s.toHost.send outcome).result with _ | _
  · simp [Outcome.effects]
  · dsimp only
    split <;> simp [Outcome.effects]

theorem offered_guest {serde : SerdeJson} {request : Request} {s : Loop}
    (hphase : s.phase = .guest) (outcome : ReadOutcome) :
    Offered serde s (guestPhase serde request s outcome)
      (hostEnqueue serde request s (.read outcome)) := by
  simp only [hostEnqueue, hphase, guestPhase]
  split
  · rcases (s.guest.receive serde outcome).result with e | (_ | event)
    · dsimp only
      split <;> simp [Offered, Outcome.effects]
    · simp [Offered, Outcome.effects]
    · simp only [acceptEvent]
      split
      · simp [Offered, Outcome.effects, fail]
      · cases hadmit : admitEvent request
            { s with phase := .guest, guest := (s.guest.receive serde outcome).reader } event with
        | error e => simp [Offered, Outcome.effects]
        | ok s' =>
          have htoHost : s'.toHost = s.toHost := by cases admits_of_ok hadmit <;> rfl
          simp only [htoHost, Offered]
          rcases s.toHost.enqueue serde event with ⟨w, _ | _⟩
          · simp [Outcome.result]
          · simp [Outcome.effects]
  · simp [Offered, Outcome.effects]

theorem offered_childExit {serde : SerdeJson} {request : Request} {s : Loop}
    (hphase : s.phase = .childExit) (status : Except IoError (Option ExitStatus)) :
    Offered serde s (childExitPhase serde request s status)
      (hostEnqueue serde request s (.waited status)) := by
  cases hopen : s.guestClosed && !s.completed with
  | false => rcases status with _ | (_ | _) <;>
      simp [hostEnqueue, hphase, childExitPhase, hopen, Offered, Outcome.effects]
  | true =>
    rcases status with _ | (_ | status)
    · simp [hostEnqueue, childExitPhase, hopen, Offered, Outcome.effects]
    · simp [hostEnqueue, childExitPhase, hopen, Offered, Outcome.effects]
    · simp only [hostEnqueue, hphase, childExitPhase, hopen, ↓reduceIte, Offered]
      rcases s.toHost.enqueue serde (guestExit request status) with ⟨w, _ | _⟩
      · simp [Outcome.result]
      · simp [Outcome.effects]

/-- `hostEnqueue` names every enqueue for the host: a step that offers nothing
enqueues nothing, and one that offers a value enqueues it or ends with the error. -/
theorem offered_of_step {serde : SerdeJson} {request : Request} {s : Loop} {answer : Answer}
    {out : Next} (h : step serde request s answer = some out) :
    Offered serde s out (hostEnqueue serde request s answer) := by
  unfold step at h
  split at h
  all_goals cases h
  · exact offered_deadline ‹_› _
  · next hphase => simp [hostEnqueue, hphase, lastSendPhase, Offered, Outcome.effects]
  · exact offered_memory ‹_› _
  · exact offered_host ‹_› _
  · next hphase =>
    simp only [hostEnqueue, hphase, Offered, toGuestPhase]
    rcases (s.toGuest.send _).result with _ | _ <;> simp [Outcome.effects]
  · exact offered_toHost ‹_› _
  · exact offered_guest ‹_› _
  · exact offered_childExit ‹_› _
  · next result hphase =>
    simp only [hostEnqueue, hphase, Offered, pollPhase]
    rcases result with _ | _
    · dsimp only
      split <;> simp [Outcome.effects]
    · simp [Outcome.effects]

/-- No value is offered to a buffer that still owes bytes. -/
theorem idle_of_hostEnqueue {serde : SerdeJson} {request : Request} {s : Loop} {answer : Answer}
    {history : List Effect} {v : Value} (h : Inv request s history)
    (hv : hostEnqueue serde request s answer = some v) : s.toHost.pending = false := by
  unfold hostEnqueue at hv
  split at hv
  · split at hv
    · cases hv
    · next hp => exact Bool.eq_false_of_not_eq_true hp
  · split at hv
    · next hkill =>
      simp only [Bool.and_eq_true, Bool.not_eq_true'] at hkill
      exact hkill.2
    · cases hv
  · split at hv
    · next hopen =>
      simp only [Bool.and_eq_true, Bool.not_eq_true'] at hopen
      exact hopen.1.2
    · cases hv
  · next hphase =>
    split at hv
    · next hopen =>
      simp only [Bool.and_eq_true, Bool.not_eq_true'] at hopen
      exact h.drained hopen.1 (by simp [Closing, hopen.2, hphase])
    · cases hv
  · cases hv

/-! ## The claims about whole runs -/

theorem Inv.terminal {request : Request} {s : Loop} {history : List Effect}
    (h : Inv request s history) :
    ∀ before v after, enqueuedTo .host history = before ++ v :: after →
      isCompleted v = true → after = [] := by
  intro before v after heq hv
  by_cases hs : Closing s
  · obtain ⟨init, last, hlast, _, hinit⟩ := h.closed hs
    rw [hlast] at heq
    rcases List.eq_nil_or_concat' after with rfl | ⟨mid, x, rfl⟩
    · rfl
    · rw [← List.cons_append, ← List.append_assoc] at heq
      have hmem : v ∈ init := by
        rw [(List.append_inj' heq rfl).1]
        simp
      rw [hinit v hmem] at hv
      cases hv
  · rw [h.opened hs v (by rw [heq]; simp)] at hv
    cases hv

theorem Inv.unique {request : Request} {s : Loop} {history : List Effect}
    (h : Inv request s history) :
    ((enqueuedTo .host history).filter isCompleted).length ≤ 1 := by
  by_cases hs : Closing s
  · obtain ⟨init, last, hlast, hdone, hinit⟩ := h.closed hs
    have hnone : init.filter isCompleted = [] := by
      rw [List.filter_eq_nil_iff]
      intro v hv
      simp [hinit v hv]
    simp [hlast, hnone, hdone]
  · have hnone : (enqueuedTo .host history).filter isCompleted = [] := by
      rw [List.filter_eq_nil_iff]
      intro v hv
      simp [h.opened hs v hv]
    simp [hnone]

/-- The two accounts of a state give the claims about its history, and about any
history that goes on without an enqueue. -/
theorem relayed_of_inv {serde : SerdeJson} {request : Request} {s : Loop}
    {history effects : List Effect} (h : Inv request s history) (hb : Balanced serde s history)
    (henq : enqueuedTo .host effects = []) : Relayed serde request (history ++ effects) := by
  obtain ⟨synthesized, heq, hlen, hmem, _⟩ := h.relayed
  have hsame : enqueuedTo .host (history ++ effects) = enqueuedTo .host history := by
    rw [enqueuedTo_append, henq, List.append_nil]
  refine ⟨⟨receivedFrom .guest history, synthesized, hsame.trans heq, hlen, hmem, ?_⟩,
    by rw [hsame]; exact h.unique, by rw [hsame]; exact h.terminal⟩
  intro stream hstream
  refine hb.guestDecoded.prefix_of ?_
  rw [tookFrom_append] at hstream
  exact (List.prefix_append _ _).trans hstream

theorem relayed_observes {serde : SerdeJson} {request : Request} {history : List Effect}
    (h : (machine serde request).Observes history) : Relayed serde request history := by
  refine h.of_invariant (I := fun s history => Inv request s history ∧ Balanced serde s history)
    (fun s history hr => ⟨inv_reaches hr, balanced_reaches hr⟩) ?_ ?_
  · rintro s history ⟨hi, hb⟩
    have h := relayed_of_inv hi hb (enqueuedTo_nil .host)
    rwa [List.append_nil] at h
  · rintro s answer result history effects ⟨hi, hb⟩ hstep
    have hc := step_cases hstep
    cases hc with
    | expiredPending | lastSent | done => exact relayed_of_inv hi hb (by simp)
    | failed _ e _ _ hquiet _ => exact relayed_of_inv hi hb (enqueuedTo_quiet hquiet .host)

/-- The clock runs out in no other way than at the head of the loop. -/
theorem expired_of_lastSend {serde : SerdeJson} {request : Request} {s : Loop}
    {history : List Effect} (h : (machine serde request).Reaches s history) :
    s.phase = .lastSend → .expired ∈ history := by
  refine h.invariant (I := fun s history => s.phase = .lastSend → .expired ∈ history) ?_ ?_
  · rintro s history ⟨hs, rfl⟩ hphase
    obtain ⟨_, _, heq⟩ := enter_cases hs
    rw [heq] at hphase
    cases hphase
  · intro s answer t history effects _ hstep hphase
    have hc := step_cases hstep
    cases hc with
    | idle _ phase _ hne => exact absurd hphase hne
    | expired w _ _ => simp
    | event outcome v s' w _ _ _ _ _ _ _ _ => cases hphase
    | ceiling | hostTook | reply | guestSent | hostSent | guestTook | guestEof | childExited =>
      cases hphase

theorem delivered_of_ok {serde : SerdeJson} {request : Request} {history : List Effect}
    (h : (machine serde request).Ends (.ok ()) history) :
    .expired ∈ history ∨ Delivered serde history := by
  cases h with
  | exit hreach hstep =>
    have hi := inv_reaches hreach
    have hb := balanced_reaches hreach
    generalize hres : (Except.ok () : Except IoError Unit) = result at hstep
    have hc := step_cases hstep
    cases hc with
    | expiredPending => exact Or.inl (by simp)
    | lastSent outcome hphase =>
      exact Or.inl (List.mem_append_left _ (expired_of_lastSend hreach hphase))
    | done outcome hphase hok hdone hidle =>
      obtain ⟨before, last, heq, hlast, _⟩ := hi.closed (Or.inl hdone)
      have htotal := (hb.toHost.send outcome).total
      rw [(Writer.not_pending_iff _).mp hidle, List.append_nil] at htotal
      exact Or.inr ⟨before, last, by simpa using heq, hlast, by simpa using htotal⟩
    | failed => cases hres

/-- In a run that ends well and in time, a completed event of the guest has been written
to the host, behind everything else. -/
theorem completed_sent {serde : SerdeJson} {request : Request} {history : List Effect} {v : Value}
    (h : (machine serde request).Ends (.ok ()) history) (htime : .expired ∉ history)
    (hv : v ∈ receivedFrom .guest history) (hdone : isCompleted v = true) :
    ∃ before, sentTo .host history = wire serde before ++ wire serde [v] := by
  cases h with
  | exit hreach hstep =>
    have hi := inv_reaches hreach
    have hb := balanced_reaches hreach
    generalize hres : (Except.ok () : Except IoError Unit) = result at hstep
    have hc := step_cases hstep
    cases hc with
    | expiredPending => exact absurd (by simp) htime
    | lastSent outcome hphase =>
      exact absurd (List.mem_append_left _ (expired_of_lastSend hreach hphase)) htime
    | done outcome hphase hok hcompleted hidle =>
      obtain ⟨before, last, heq, _, hopen⟩ := hi.closed (Or.inl hcompleted)
      obtain ⟨synthesized, hrelayed, _⟩ := hi.relayed
      have hmem : v ∈ before ++ [last] := by
        rw [← heq, hrelayed]
        refine List.mem_append_left _ ?_
        simpa using hv
      have hlast : v = last := by
        rcases List.mem_append.mp hmem with hbefore | hlast
        · rw [hopen v hbefore] at hdone
          cases hdone
        · exact List.mem_singleton.mp hlast
      have htotal := (hb.toHost.send outcome).total
      rw [(Writer.not_pending_iff _).mp hidle, List.append_nil, heq, ← hlast, wire_append] at htotal
      exact ⟨before, by simpa using htotal⟩
    | failed => cases hres

/-- Relay fidelity and the unique terminal event of the supervisor, over all its
runs; no value is ever offered to a buffer that still owes bytes to the host; and
a run that ends well has delivered a terminal event or has run out of time. -/
theorem relay_fidelity (serde : SerdeJson) (request : Request) :
    (∀ history, (machine serde request).Observes history → Relayed serde request history) ∧
    (∀ s history answer out, (machine serde request).Reaches s history →
      step serde request s answer = some out →
      Offered serde s out (hostEnqueue serde request s answer) ∧
        ∀ v, hostEnqueue serde request s answer = some v → s.toHost.pending = false) ∧
    (∀ history, (machine serde request).Ends (.ok ()) history →
      .expired ∈ history ∨ Delivered serde history) := by
  refine ⟨fun _ h => relayed_observes h, ?_, fun _ h => delivered_of_ok h⟩
  intro s history answer out hreach hstep
  exact ⟨offered_of_step hstep, fun v hv => idle_of_hostEnqueue (inv_reaches hreach) hv⟩

end RubyEngine.Supervisor.Relay
