import RubyEngine.Supervisor

/-!
# What one step of the supervisor can do

Every invariant of the loop is a case analysis over `Step`. A case names the
phase it happens in, the guards that hold there and the effects, so that no later
proof looks into a phase again.
-/
namespace RubyEngine.Supervisor

open Json (Value)
open Transition (Outcome)

/-- The values that went into the buffer of a peer, oldest first. -/
def enqueuedTo (peer : Peer) (history : List Effect) : List Value :=
  history.filterMap fun
    | .enqueued p v => if p = peer then some v else none
    | _ => none

def receivedFrom (peer : Peer) (history : List Effect) : List Value :=
  history.filterMap fun
    | .received p v => if p = peer then some v else none
    | _ => none

/-- The bytes that the descriptor of a peer has accepted. -/
def sentTo (peer : Peer) (history : List Effect) : Bytes :=
  history.flatMap fun
    | .sent p bytes => if p = peer then bytes else []
    | _ => []

def tookFrom (peer : Peer) (history : List Effect) : Bytes :=
  history.flatMap fun
    | .took p bytes => if p = peer then bytes else []
    | _ => []

@[simp] theorem enqueuedTo_append (peer : Peer) (a b : List Effect) :
    enqueuedTo peer (a ++ b) = enqueuedTo peer a ++ enqueuedTo peer b := List.filterMap_append

@[simp] theorem receivedFrom_append (peer : Peer) (a b : List Effect) :
    receivedFrom peer (a ++ b) = receivedFrom peer a ++ receivedFrom peer b := List.filterMap_append

@[simp] theorem sentTo_append (peer : Peer) (a b : List Effect) :
    sentTo peer (a ++ b) = sentTo peer a ++ sentTo peer b := List.flatMap_append

@[simp] theorem tookFrom_append (peer : Peer) (a b : List Effect) :
    tookFrom peer (a ++ b) = tookFrom peer a ++ tookFrom peer b := List.flatMap_append

@[simp] theorem enqueuedTo_nil (peer : Peer) : enqueuedTo peer [] = [] := rfl
@[simp] theorem receivedFrom_nil (peer : Peer) : receivedFrom peer [] = [] := rfl
@[simp] theorem sentTo_nil (peer : Peer) : sentTo peer [] = [] := rfl
@[simp] theorem tookFrom_nil (peer : Peer) : tookFrom peer [] = [] := rfl

@[simp] theorem enqueuedTo_cons (peer : Peer) (e : Effect) (h : List Effect) :
    enqueuedTo peer (e :: h) =
      (match e with | .enqueued p v => if p = peer then [v] else [] | _ => []) ++
        enqueuedTo peer h := by
  cases e with
  | enqueued p v => by_cases hp : p = peer <;> simp [enqueuedTo, hp]
  | took | sent | received | expired | killed => rfl

@[simp] theorem receivedFrom_cons (peer : Peer) (e : Effect) (h : List Effect) :
    receivedFrom peer (e :: h) =
      (match e with | .received p v => if p = peer then [v] else [] | _ => []) ++
        receivedFrom peer h := by
  cases e with
  | received p v => by_cases hp : p = peer <;> simp [receivedFrom, hp]
  | took | sent | enqueued | expired | killed => rfl

@[simp] theorem sentTo_cons (peer : Peer) (e : Effect) (h : List Effect) :
    sentTo peer (e :: h) =
      (match e with | .sent p bytes => if p = peer then bytes else [] | _ => []) ++
        sentTo peer h := by
  cases e <;> rfl

@[simp] theorem tookFrom_cons (peer : Peer) (e : Effect) (h : List Effect) :
    tookFrom peer (e :: h) =
      (match e with | .took p bytes => if p = peer then bytes else [] | _ => []) ++
        tookFrom peer h := by
  cases e <;> rfl

/-- The buffer that holds exactly the frame of a value. -/
def fresh (serde : SerdeJson) (value : Value) : Writer :=
  { bytes := Framing.frame (serde.toVec value) }

/-- A value went into the empty buffer `w` and left it as `w'`. -/
structure Loads (serde : SerdeJson) (w : Writer) (value : Value) (w' : Writer) : Prop where
  drained : w.pending = false
  bounded : (serde.toVec value).length ≤ MAX_FRAME
  filled : w' = fresh serde value

theorem loads_of_ok {serde : SerdeJson} {w w' : Writer} {value : Value}
    (h : w.enqueue serde value = (w', .ok ())) : Loads serde w value w' := by
  rcases Writer.enqueue_cases serde w value with ⟨_, he⟩ | ⟨_, _, he⟩ | ⟨hp, hlen, he⟩
  · rw [he] at h; cases h
  · rw [he] at h; cases h
  · rw [he] at h
    exact ⟨hp, hlen, (Prod.mk.inj h).1.symm⟩

theorem Loads.pending {serde : SerdeJson} {w w' : Writer} {value : Value}
    (h : Loads serde w value w') : w'.pending = true := by
  rw [h.filled, Writer.pending_iff, fresh, Writer.owed_fresh]
  exact Framing.frame_ne_nil _

/-- A reply that the loop hands to the guest answers the outstanding call. -/
structure Answers (request : Request) (s : Loop) (reply : Value) : Prop where
  identity : (reply.index "protocol").asStr = some PROTOCOL ∧
    (reply.index "execution_id").asStr = some request.executionId
  kind : (reply.index "kind").asStr = some "reply"
  outstanding : ∃ n, s.pendingSequence = some n ∧ (reply.index "sequence").asU64 = some n

/-- A call that the loop hands to the host. -/
structure Calls (request : Request) (s : Loop) (event : Value) : Prop where
  executes : request.validateOnly = false
  idle : s.pendingSequence = none
  sequence : (event.index "sequence").asU64 = some (s.sequence + 1)
  limit : s.sequence + 1 ≤ request.limits.calls
  path : ∃ path ∈ request.catalog, (event.index "path").asStr = some path

theorem mayCall_iff {request : Request} {s : Loop} {event : Value} :
    mayCall request s event = true ↔ Calls request s event := by
  constructor
  · intro h
    simp only [mayCall, Bool.not_eq_true', Bool.or_eq_false_iff, decide_eq_false_iff_not, not_not,
      Nat.not_lt, Bool.not_eq_false', Option.isSome_eq_false_iff, Option.isNone_iff_eq_none] at h
    obtain ⟨⟨⟨⟨hv, hp⟩, hs⟩, hl⟩, hpath⟩ := h
    refine ⟨hv, hp, hs, hl, ?_⟩
    rw [Option.any_eq_true] at hpath
    obtain ⟨path, hsome, hany⟩ := hpath
    obtain ⟨allowed, hmem, heq⟩ := List.any_eq_true.mp hany
    exact ⟨path, (of_decide_eq_true heq) ▸ hmem, hsome⟩
  · rintro ⟨hv, hp, hs, hl, path, hmem, hpath⟩
    simp [mayCall, hv, hp, hs, hpath, hmem]
    omega

/-- How the loop changes by an event of the guest, before it is relayed. -/
inductive Admits (request : Request) (s : Loop) (event : Value) : Loop → Prop where
  | completed : (event.index "kind").asStr = some "completed" →
      Admits request s event { s with completed := true }
  | log : (event.index "kind").asStr = some "log" → Admits request s event s
  | call : (event.index "kind").asStr = some "call" → Calls request s event →
      Admits request s event
        { s with sequence := s.sequence + 1, pendingSequence := some (s.sequence + 1) }

theorem admits_of_ok {request : Request} {s s' : Loop} {event : Value}
    (h : admitEvent request s event = .ok s') : Admits request s event s' := by
  unfold admitEvent at h
  split at h
  · next hk => obtain rfl := Except.ok.inj h; exact .completed hk
  · next hk => obtain rfl := Except.ok.inj h; exact .log hk
  · next hk =>
    split at h
    · next hc => obtain rfl := Except.ok.inj h; exact .call hk (mayCall_iff.mp hc)
    · cases h
  · cases h

/-- The effects of an error exit: nothing is enqueued and no byte is delivered. -/
def Effect.quiet : Effect → Prop
  | .enqueued _ _ => False
  | .sent _ bytes => bytes = []
  | _ => True

inductive Step (serde : SerdeJson) (request : Request) (s : Loop) : Answer → Next → Prop where
  | idle (answer : Answer) (phase : Phase) : s.phase ≠ .lastSend → phase ≠ .lastSend →
      Step serde request s answer (.next { s with phase := phase } [])
  | expired (w : Writer) : s.phase = .deadline → Loads serde s.toHost (wallTimeout request) w →
      Step serde request s (.clock true) (.next { s with phase := .lastSend, toHost := w }
        [.expired, .killed, .enqueued .host (wallTimeout request)])
  | expiredPending : s.phase = .deadline → s.toHost.pending = true →
      Step serde request s (.clock true) (.exit (.ok ()) [.expired, .killed])
  | lastSent (outcome : WriteOutcome) : s.phase = .lastSend →
      Step serde request s (.write outcome)
        (.exit (s.toHost.send outcome).result [.sent .host (s.toHost.send outcome).accepted])
  | ceiling (bytes : Option Nat) (w : Writer) : s.phase = .memory → s.completed = false →
      Loads serde s.toHost (memoryLimit request) w →
      Step serde request s (.resident bytes)
        (.next { s with phase := .host, toHost := w, completed := true }
          [.killed, .enqueued .host (memoryLimit request)])
  | hostTook (outcome : ReadOutcome) : s.phase = .host →
      (s.host.receive serde outcome).result = .ok none →
      Step serde request s (.read outcome)
        (.next { s with phase := .toGuest, host := (s.host.receive serde outcome).reader }
          [.took .host (s.host.receive serde outcome).consumed])
  | reply (outcome : ReadOutcome) (v : Value) (w : Writer) : s.phase = .host →
      (s.host.receive serde outcome).result = .ok (some v) → Answers request s v →
      Loads serde s.toGuest v w →
      Step serde request s (.read outcome)
        (.next { s with phase := .toGuest, host := (s.host.receive serde outcome).reader,
                        toGuest := w, pendingSequence := none }
          [.took .host (s.host.receive serde outcome).consumed, .received .host v,
            .enqueued .guest v])
  | guestSent (outcome : WriteOutcome) : s.phase = .toGuest →
      (s.toGuest.send outcome).result = .ok () →
      Step serde request s (.write outcome)
        (.next { s with phase := .toHost, toGuest := (s.toGuest.send outcome).writer }
          [.sent .guest (s.toGuest.send outcome).accepted])
  | hostSent (outcome : WriteOutcome) : s.phase = .toHost →
      (s.toHost.send outcome).result = .ok () →
      (s.completed = true → (s.toHost.send outcome).writer.pending = true) →
      Step serde request s (.write outcome)
        (.next { s with phase := .guest, toHost := (s.toHost.send outcome).writer }
          [.sent .host (s.toHost.send outcome).accepted])
  | done (outcome : WriteOutcome) : s.phase = .toHost →
      (s.toHost.send outcome).result = .ok () → s.completed = true →
      (s.toHost.send outcome).writer.pending = false →
      Step serde request s (.write outcome)
        (.exit (.ok ()) [.sent .host (s.toHost.send outcome).accepted])
  | guestTook (outcome : ReadOutcome) : s.phase = .guest → s.completed = false →
      s.toHost.pending = false → s.guestClosed = false →
      (s.guest.receive serde outcome).result = .ok none →
      Step serde request s (.read outcome)
        (.next { s with phase := .childExit, guest := (s.guest.receive serde outcome).reader }
          [.took .guest (s.guest.receive serde outcome).consumed])
  | event (outcome : ReadOutcome) (v : Value) (s' : Loop) (w : Writer) : s.phase = .guest →
      s.completed = false → s.guestClosed = false →
      (s.guest.receive serde outcome).result = .ok (some v) →
      (v.index "protocol").asStr = some PROTOCOL →
      (v.index "execution_id").asStr = some request.executionId →
      Admits request { s with guest := (s.guest.receive serde outcome).reader } v s' →
      Loads serde s.toHost v w →
      Step serde request s (.read outcome) (.next { s' with phase := .childExit, toHost := w }
        [.took .guest (s.guest.receive serde outcome).consumed, .received .guest v,
          .enqueued .host v])
  | guestEof (outcome : ReadOutcome) (e : IoError) : s.phase = .guest → s.completed = false →
      s.toHost.pending = false → s.guestClosed = false →
      (s.guest.receive serde outcome).result = .error e → e.kind = .unexpectedEof →
      Step serde request s (.read outcome)
        (.next { s with phase := .childExit, guest := (s.guest.receive serde outcome).reader,
                        guestClosed := true }
          [.took .guest (s.guest.receive serde outcome).consumed])
  | childExited (status : ExitStatus) (w : Writer) : s.phase = .childExit →
      s.guestClosed = true → s.completed = false →
      Loads serde s.toHost (guestExit request status) w →
      Step serde request s (.waited (.ok (some status)))
        (.next { s with phase := .poll, toHost := w, completed := true }
          [.enqueued .host (guestExit request status)])
  | failed (answer : Answer) (e : IoError) (effects : List Effect) : s.phase ≠ .lastSend →
      (∀ x ∈ effects, x.quiet) →
      (receivedFrom .guest effects = [] ∨ ∃ outcome v, s.guestClosed = false ∧
        (s.guest.receive serde outcome).result = .ok (some v) ∧
        effects = [.took .guest (s.guest.receive serde outcome).consumed, .received .guest v]) →
      Step serde request s answer (.exit (.error e) effects)

variable {serde : SerdeJson} {request : Request} {s : Loop}

/-- An enqueue whose failure ends the run. -/
theorem enqueue_cases_of (serde : SerdeJson) (w : Writer) (value : Value) :
    (∃ w' e, w.enqueue serde value = (w', .error e)) ∨
      ∃ w', w.enqueue serde value = (w', .ok ()) ∧ Loads serde w value w' := by
  generalize h : w.enqueue serde value = out
  obtain ⟨w', result⟩ := out
  cases result with
  | error e => exact Or.inl ⟨w', e, rfl⟩
  | ok u => exact Or.inr ⟨w', rfl, loads_of_ok h⟩

theorem step_deadline (hphase : s.phase = .deadline) (expired : Bool) :
    Step serde request s (.clock expired) (deadlinePhase serde request s expired) := by
  have hne : s.phase ≠ .lastSend := by rw [hphase]; decide
  unfold deadlinePhase
  cases expired with
  | false => exact .idle _ .memory hne (by decide)
  | true =>
    simp only [↓reduceIte]
    split
    · next hp => exact .expiredPending hphase hp
    · rcases enqueue_cases_of serde s.toHost (wallTimeout request) with
        ⟨w, e, he⟩ | ⟨w, he, hw⟩
      · rw [he]
        exact .failed _ e _ hne (by simp [Effect.quiet]) (Or.inl rfl)
      · rw [he]
        exact .expired w hphase hw

theorem step_memory (hphase : s.phase = .memory) (bytes : Option Nat) :
    Step serde request s (.resident bytes) (memoryPhase serde request s bytes) := by
  have hne : s.phase ≠ .lastSend := by rw [hphase]; decide
  unfold memoryPhase
  split
  · next hkill =>
    rw [Bool.and_eq_true, Bool.not_eq_true'] at hkill
    split
    · exact .failed _ _ _ hne (by simp [Effect.quiet]) (Or.inl rfl)
    · rcases enqueue_cases_of serde s.toHost (memoryLimit request) with
        ⟨w, e, he⟩ | ⟨w, he, hw⟩
      · rw [he]
        exact .failed _ e _ hne (by simp [Effect.quiet]) (Or.inl rfl)
      · rw [he]
        exact .ceiling bytes w hphase hkill.1 hw
  · exact .idle _ .host hne (by decide)

theorem step_host (hphase : s.phase = .host) (outcome : ReadOutcome) :
    Step serde request s (.read outcome) (hostPhase serde request s outcome) := by
  have hne : s.phase ≠ .lastSend := by rw [hphase]; decide
  unfold hostPhase
  dsimp only
  cases hres : (s.host.receive serde outcome).result with
  | error e => exact .failed _ e _ hne (by simp [Effect.quiet]) (Or.inl rfl)
  | ok out =>
    cases out with
    | none => exact .hostTook outcome hphase hres
    | some reply =>
      simp only [acceptReply]
      split
      · exact .failed _ _ _ hne (by simp [Effect.quiet]) (Or.inl rfl)
      · next hid =>
        split
        · exact .failed _ _ _ hne (by simp [Effect.quiet]) (Or.inl rfl)
        · split
          · exact .failed _ _ _ hne (by simp [Effect.quiet]) (Or.inl rfl)
          · next hexp =>
            rcases enqueue_cases_of serde s.toGuest reply with ⟨w, e, he⟩ | ⟨w, he, hw⟩
            · rw [he]
              exact .failed _ e _ hne (by simp [Effect.quiet]) (Or.inl rfl)
            · rw [he]
              refine .reply outcome reply w hphase hres ?_ hw
              simp only [not_or, not_not] at hid hexp
              refine ⟨hid, hexp.1, ?_⟩
              cases hpending : s.pendingSequence with
              | none => simp [hpending] at hexp
              | some n => exact ⟨n, rfl, hexp.2.2.trans hpending⟩

theorem step_toGuest (hphase : s.phase = .toGuest) (outcome : WriteOutcome) :
    Step serde request s (.write outcome) (toGuestPhase s outcome) := by
  have hne : s.phase ≠ .lastSend := by rw [hphase]; decide
  unfold toGuestPhase
  dsimp only
  cases hres : (s.toGuest.send outcome).result with
  | error e =>
    refine .failed _ e _ hne ?_ (Or.inl rfl)
    simp [Effect.quiet, (Writer.send_error hres).2]
  | ok u => exact .guestSent outcome hphase hres

theorem step_toHost (hphase : s.phase = .toHost) (outcome : WriteOutcome) :
    Step serde request s (.write outcome) (toHostPhase s outcome) := by
  have hne : s.phase ≠ .lastSend := by rw [hphase]; decide
  unfold toHostPhase
  dsimp only
  cases hres : (s.toHost.send outcome).result with
  | error e =>
    refine .failed _ e _ hne ?_ (Or.inl rfl)
    simp [Effect.quiet, (Writer.send_error hres).2]
  | ok u =>
    dsimp only
    split
    · next hdone =>
      rw [Bool.and_eq_true, Bool.not_eq_true'] at hdone
      exact .done outcome hphase hres hdone.1 hdone.2
    · next hmore =>
      refine .hostSent outcome hphase hres ?_
      intro hc
      simpa [hc] using hmore

theorem step_guest (hphase : s.phase = .guest) (outcome : ReadOutcome) :
    Step serde request s (.read outcome) (guestPhase serde request s outcome) := by
  have hne : s.phase ≠ .lastSend := by rw [hphase]; decide
  unfold guestPhase
  split
  · next hopen =>
    simp only [Bool.and_eq_true, Bool.not_eq_true'] at hopen
    obtain ⟨⟨hc, hp⟩, hg⟩ := hopen
    dsimp only
    cases hres : (s.guest.receive serde outcome).result with
    | error e =>
      dsimp only
      split
      · next heof => exact .guestEof outcome e hphase hc hp hg hres heof
      · exact .failed _ e _ hne (by simp [Effect.quiet]) (Or.inl rfl)
    | ok out =>
      cases out with
      | none => exact .guestTook outcome hphase hc hp hg hres
      | some event =>
        have hrefuse : ∀ e, Step serde request s (.read outcome) (.exit (.error e)
            [.took .guest (s.guest.receive serde outcome).consumed, .received .guest event]) :=
          fun e => .failed _ e _ hne (by simp [Effect.quiet])
            (Or.inr ⟨outcome, event, hg, hres, rfl⟩)
        simp only [acceptEvent]
        split
        · exact hrefuse _
        · next hid =>
          simp only [not_or, not_not] at hid
          cases hadmit : admitEvent request
              { s with guest := (s.guest.receive serde outcome).reader } event with
          | error e => exact hrefuse e
          | ok s' =>
            have ha := admits_of_ok hadmit
            have htoHost : s'.toHost = s.toHost := by cases ha <;> rfl
            dsimp only
            rw [htoHost]
            rcases enqueue_cases_of serde s.toHost event with ⟨w, e, he⟩ | ⟨w, he, hw⟩
            · rw [he]
              exact hrefuse e
            · rw [he]
              exact .event outcome event s' w hphase hc hg hres hid.1 hid.2 ha hw
  · exact .idle _ .childExit hne (by decide)

theorem step_childExit (hphase : s.phase = .childExit)
    (status : Except IoError (Option ExitStatus)) :
    Step serde request s (.waited status) (childExitPhase serde request s status) := by
  have hne : s.phase ≠ .lastSend := by rw [hphase]; decide
  unfold childExitPhase
  split
  · next hopen =>
    rw [Bool.and_eq_true, Bool.not_eq_true'] at hopen
    cases status with
    | error e => exact .failed _ e _ hne (by simp) (Or.inl rfl)
    | ok out =>
      cases out with
      | none => exact .idle _ .poll hne (by decide)
      | some status =>
        dsimp only
        rcases enqueue_cases_of serde s.toHost (guestExit request status) with
          ⟨w, e, he⟩ | ⟨w, he, hw⟩
        · rw [he]
          exact .failed _ e _ hne (by simp) (Or.inl rfl)
        · rw [he]
          exact .childExited status w hphase hopen.1 hopen.2 hw
  · exact .idle _ .poll hne (by decide)

theorem step_poll (hphase : s.phase = .poll) (result : Except IoError Unit) :
    Step serde request s (.polled result) (pollPhase s result) := by
  have hne : s.phase ≠ .lastSend := by rw [hphase]; decide
  unfold pollPhase
  cases result with
  | ok u => exact .idle _ .deadline hne (by decide)
  | error e =>
    dsimp only
    split
    · exact .idle _ .deadline hne (by decide)
    · exact .failed _ e _ hne (by simp) (Or.inl rfl)

theorem step_cases {answer : Answer} {out : Next} (h : step serde request s answer = some out) :
    Step serde request s answer out := by
  unfold step at h
  split at h
  all_goals cases h
  · exact step_deadline ‹_› _
  · exact .lastSent _ ‹_›
  · exact step_memory ‹_› _
  · exact step_host ‹_› _
  · exact step_toGuest ‹_› _
  · exact step_toHost ‹_› _
  · exact step_guest ‹_› _
  · exact step_childExit ‹_› _
  · exact step_poll ‹_› _

theorem enter_cases {s : Loop} (h : enter serde request = .ok s) :
    request.validate = .ok () ∧ Loads serde {} request.toValue s.toGuest ∧
      s = { toGuest := s.toGuest } := by
  unfold enter at h
  split at h
  · cases h
  · next hv =>
    rcases enqueue_cases_of serde ({} : Writer) request.toValue with
      ⟨w, e, he⟩ | ⟨w, he, hw⟩
    · rw [he] at h; cases h
    · rw [he] at h
      obtain rfl := Except.ok.inj h
      exact ⟨hv, hw, rfl⟩

/-- An admitted request whose frame is small enough enters the loop. -/
theorem enter_of_fits (hv : request.validate = .ok ())
    (hlen : (serde.toVec request.toValue).length ≤ MAX_FRAME) :
    enter serde request = .ok { toGuest := fresh serde request.toValue } := by
  have he : (({} : Writer)).enqueue serde request.toValue =
      (fresh serde request.toValue, .ok ()) := by
    rcases Writer.enqueue_cases serde ({} : Writer) request.toValue with h | h | h
    · exact absurd h.1 (by decide)
    · exact absurd hlen (Nat.not_le.mpr h.2.1)
    · exact h.2.2
  simp only [enter, hv, he]

end RubyEngine.Supervisor
