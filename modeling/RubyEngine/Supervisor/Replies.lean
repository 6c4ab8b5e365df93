import Mathlib.Data.List.Infix
import RubyEngine.Serde.Reference
import RubyEngine.Supervisor.Capability

/-!
# Solicited replies

The loop knows that a call is outstanding from the moment it reads it from the
guest, and the call is delivered to the host later. Here the host writes into a
pipe between the steps of the loop, so that the order of its writes and of the
deliveries to it can be observed.
-/
namespace RubyEngine.Supervisor.Replies

open Json (Value)
open Transition (Outcome Machine)
open Capability (sequenceOf isCall callsOf repliesOf Numbered)

/-- The loop and the bytes on their way to it from the host. -/
structure State where
  loop : Loop
  pipe : Bytes

inductive Answer where
  | wrote (bytes : Bytes)
  | loop (answer : Supervisor.Answer)

inductive Event where
  | wrote (bytes : Bytes)
  | loop (effect : Effect)
  deriving DecidableEq

/-- A read of the host's output finds the front of what is in the pipe, and
nothing only where nothing is. -/
def visible (s : State) : Supervisor.Answer → Bool
  | .read (.data waiting) =>
      s.loop.phase ≠ .host || (waiting.isPrefixOf s.pipe && (!waiting.isEmpty || s.pipe.isEmpty))
  | _ => true

def loopOf (history : List Event) : List Effect :=
  history.filterMap fun
    | .loop effect => some effect
    | .wrote _ => none

/-- All that the host has written. -/
def wroteBy (history : List Event) : Bytes :=
  history.flatMap fun
    | .wrote bytes => bytes
    | .loop _ => []

def advance (s : State) : Next → Outcome State Event (Except IoError Unit)
  | .next loop effects =>
      .next ⟨loop, s.pipe.drop (tookFrom .host effects).length⟩ (effects.map .loop)
  | .exit result effects => .exit result (effects.map .loop)

def step (serde : SerdeJson) (request : Request) (s : State) :
    Answer → Option (Outcome State Event (Except IoError Unit))
  | .wrote bytes => some (.next { s with pipe := s.pipe ++ bytes } [.wrote bytes])
  | .loop answer =>
      if visible s answer then (Supervisor.step serde request s.loop answer).map (advance s)
      else none

def machine (serde : SerdeJson) (request : Request) :
    Machine State Answer Event (Except IoError Unit) where
  start s history := enter serde request = .ok s.loop ∧ s.pipe = [] ∧
    history = [.loop (.enqueued .guest request.toValue)]
  step := step serde request

/-! ## What has been delivered, and what has come -/

/-- The calls that the host has been sent in full. -/
def deliveredCalls (serde : SerdeJson) (history : List Event) : List Value :=
  (delivered serde (enqueuedTo .host (loopOf history))
    (sentTo .host (loopOf history)).length).filter isCall

/-- How far a byte of the host has come. -/
inductive Place where
  | pipe
  | loop
  deriving DecidableEq

/-- The bytes of the host that have come to a place: it has written them, or the loop has read
them. -/
def cameTo : Place → List Event → Bytes
  | .pipe, history => wroteBy history
  | .loop, history => tookFrom .host (loopOf history)

/-- A byte of the host's frame after so many others has come to a place. -/
def Begun (place : Place) (k : Nat) (history : List Event) : Prop :=
  Framing.frameStart k (cameTo place history) < (cameTo place history).length

instance (place : Place) (k : Nat) (history : List Event) : Decidable (Begun place k history) :=
  inferInstanceAs (Decidable (_ < _))

/-- The call after `k` others has been read from the guest and not been sent in full. -/
def OnItsWay (serde : SerdeJson) (k : Nat) (history : List Event) : Prop :=
  (callsOf (loopOf history)).length = k + 1 ∧ (deliveredCalls serde history).length ≤ k

instance (serde : SerdeJson) (k : Nat) (history : List Event) :
    Decidable (OnItsWay serde k history) :=
  inferInstanceAs (Decidable (_ ∧ _))

/-- While the call after `k` others is on its way to the host, nothing of the host's frame after
`k` others comes to the place. -/
def Clear (serde : SerdeJson) (place : Place) (k : Nat) (history : List Event) : Prop :=
  ∀ before, before <+: history → OnItsWay serde k before → ¬ Begun place k before

/-- No byte of the host is there, of its next frame, while a call is on its way to it. -/
def Quiet (serde : SerdeJson) (place : Place) (history : List Event) : Prop :=
  ∀ k, Clear serde place k history

/-- The call that a reply answers had been sent in full when the first byte of the reply came to
the place. -/
def Solicited (serde : SerdeJson) (place : Place) (history : List Event) (v : Value) : Prop :=
  ∃ k, sequenceOf v = some (k + 1) ∧ ∀ before, before <+: history → Begun place k before →
    ∃ call ∈ deliveredCalls serde before, sequenceOf call = some (k + 1)

/-- A byte of the host's frame after `k` others had come when no more than `k` calls had been sent
in full. -/
def Early (serde : SerdeJson) (place : Place) (k : Nat) (history : List Event) : Prop :=
  ∃ before, before <+: history ∧ Begun place k before ∧ (deliveredCalls serde before).length ≤ k

/-- The frame after `k` others in a stream is there as a whole, and holds the value. -/
def Holds (serde : SerdeJson) (k : Nat) (v : Value) (stream : Bytes) : Prop :=
  ∃ payload rest, stream.drop (Framing.frameStart k stream) = Framing.frame payload ++ rest ∧
    serde.fromSlice payload = .ok v

/-! ## The loop inside the larger machine -/

variable {serde : SerdeJson} {request : Request}

@[simp] theorem loopOf_append (a b : List Event) : loopOf (a ++ b) = loopOf a ++ loopOf b :=
  List.filterMap_append

@[simp] theorem loopOf_loop (effects : List Effect) : loopOf (effects.map .loop) = effects := by
  induction effects with
  | nil => rfl
  | cons e effects ih => exact congrArg (e :: ·) ih

@[simp] theorem wroteBy_append (a b : List Event) : wroteBy (a ++ b) = wroteBy a ++ wroteBy b :=
  List.flatMap_append

@[simp] theorem wroteBy_loop (effects : List Effect) : wroteBy (effects.map .loop) = [] := by
  rw [wroteBy, List.flatMap_eq_nil_iff]
  intro x hx
  obtain ⟨e, _, rfl⟩ := List.mem_map.mp hx
  rfl

/-- A step is a write of the host, or one of the loop with what it can see. -/
theorem step_next {s t : State} {answer : Answer} {events : List Event}
    (h : step serde request s answer = some (.next t events)) :
    (∃ bytes, t = { s with pipe := s.pipe ++ bytes } ∧ events = [.wrote bytes]) ∨
    ∃ a effects, answer = .loop a ∧ visible s a = true ∧
      Supervisor.step serde request s.loop a = some (.next t.loop effects) ∧
      t.pipe = s.pipe.drop (tookFrom .host effects).length ∧ events = effects.map .loop := by
  cases answer with
  | wrote bytes =>
    cases h
    exact Or.inl ⟨bytes, rfl, rfl⟩
  | loop a =>
    rw [step] at h
    split at h
    · next hv =>
      obtain ⟨out, hout, hadvance⟩ := Option.map_eq_some_iff.mp h
      cases out with
      | next loop effects =>
        cases hadvance
        exact Or.inr ⟨a, effects, rfl, hv, hout, rfl, rfl⟩
      | exit result effects => cases hadvance
    · cases h

/-- The bytes that a read takes are at the front of those that it finds. -/
theorem consumed_front {r : Reader} (h : r.Within) {waiting : Bytes} :
    (r.receive serde (.data waiting)).consumed <+: waiting := by
  have hc := Reader.receive_cases serde h (.data waiting)
  generalize r.receive serde (.data waiting) = received at hc
  cases hc with
  | header | closed => exact List.nil_prefix
  | more | value | garbled => exact List.prefix_append _ _

theorem consumed_failed {r : Reader} (h : r.Within) {e : IoError} :
    (r.receive serde (.failed e)).consumed = [] := by
  have hc := Reader.receive_cases serde h (.failed e)
  generalize r.receive serde (.failed e) = received at hc
  cases hc <;> rfl

/-- What a step takes from the host is at the front of the pipe. -/
theorem took_prefix {s : State} {a : Supervisor.Answer} {t : Loop} {effects : List Effect}
    (hw : s.loop.host.Within) (hv : visible s a = true)
    (hstep : Supervisor.step serde request s.loop a = some (.next t effects)) :
    tookFrom .host effects <+: s.pipe := by
  have htook : ∀ outcome, a = .read outcome → s.loop.phase = .host →
      (s.loop.host.receive serde outcome).consumed <+: s.pipe := by
    rintro outcome rfl hphase
    cases outcome with
    | failed e =>
      rw [consumed_failed hw]
      exact List.nil_prefix
    | data waiting =>
      simp only [visible, hphase, ne_eq, not_true_eq_false, decide_false, Bool.false_or,
        Bool.and_eq_true, List.isPrefixOf_iff_prefix] at hv
      exact (consumed_front hw).trans hv.1
  have hc := step_cases hstep
  cases hc with
  | hostTook outcome hphase _ => simpa using htook outcome rfl hphase
  | reply outcome v w hphase _ _ _ => simpa using htook outcome rfl hphase
  | idle | expired | ceiling | guestSent | hostSent | guestTook | event | guestEof | childExited =>
    simp

/-- The loop is one of a run of its own, and the pipe holds what the host has
written and the loop has not taken. -/
theorem reaches_loop {s : State} {history : List Event}
    (h : (machine serde request).Reaches s history) :
    (Supervisor.machine serde request).Reaches s.loop (loopOf history) ∧
      wroteBy history = tookFrom .host (loopOf history) ++ s.pipe := by
  refine h.invariant (I := fun s history =>
    (Supervisor.machine serde request).Reaches s.loop (loopOf history) ∧
      wroteBy history = tookFrom .host (loopOf history) ++ s.pipe) ?_ ?_
  · rintro s history ⟨henter, hpipe, rfl⟩
    exact ⟨.start ⟨henter, rfl⟩, by rw [hpipe]; rfl⟩
  · rintro s answer t history events ⟨hreach, hwrote⟩ hstep
    rcases step_next hstep with ⟨bytes, rfl, rfl⟩ | ⟨a, effects, rfl, hv, hloop, hpipe, rfl⟩
    · refine ⟨by simpa [loopOf] using hreach, ?_⟩
      rw [wroteBy_append, hwrote]
      simp [loopOf, wroteBy]
    · refine ⟨by rw [loopOf_append, loopOf_loop]; exact hreach.next hloop, ?_⟩
      have hw := (balanced_reaches hreach).host.within
      obtain ⟨rest, hrest⟩ := took_prefix hw hv hloop
      rw [wroteBy_append, wroteBy_loop, List.append_nil, loopOf_append, loopOf_loop,
        tookFrom_append, hwrote, hpipe, ← hrest, List.drop_left, List.append_assoc]

/-! ## The frames of the host are the replies -/

/-- While the loop goes on, every value from the host has been handed to the guest. -/
theorem received_replies {s : Loop} {history : List Effect}
    (h : (Supervisor.machine serde request).Reaches s history) :
    enqueuedTo .guest history = request.toValue :: receivedFrom .host history := by
  refine h.invariant (I := fun _ history =>
    enqueuedTo .guest history = request.toValue :: receivedFrom .host history) ?_ ?_
  · rintro s history ⟨_, rfl⟩
    simp
  · intro s answer t history effects hi hstep
    have hc := step_cases hstep
    cases hc with
    | idle | expired | ceiling | hostTook | reply | guestSent | hostSent | guestTook | event |
      guestEof | childExited => simp [hi]

theorem deliveredCalls_front (serde : SerdeJson) (history : List Event) :
    deliveredCalls serde history <+: callsOf (loopOf history) :=
  (delivered_front serde _ _).filter _

theorem enqueuedTo_front {a b : List Effect} (h : a <+: b) (peer : Peer) :
    enqueuedTo peer a <+: enqueuedTo peer b := h.filterMap _

/-- Among numbered calls one has a number exactly if there are so many of them. -/
theorem numbered_mem {calls all : List Value} (hall : Numbered all) (hcalls : calls <+: all)
    (k : Nat) : (∃ call ∈ calls, sequenceOf call = some (k + 1)) ↔ k < calls.length := by
  obtain ⟨more, rfl⟩ := hcalls
  have hnth : ∀ i (hi : i < calls.length), sequenceOf (calls[i]) = some (i + 1) := by
    intro i hi
    have hget := congrArg (fun l => l[i]?) hall
    simp only [List.getElem?_map] at hget
    rw [List.getElem?_append_left hi, List.getElem?_eq_getElem hi,
      List.getElem?_eq_getElem (by rw [List.length_range', List.length_append]; omega)] at hget
    simpa [Nat.add_comm] using hget
  constructor
  · rintro ⟨call, hmem, hseq⟩
    obtain ⟨i, hi, rfl⟩ := List.mem_iff_getElem.mp hmem
    rw [hnth i hi] at hseq
    have hik := Option.some.inj hseq
    omega
  · intro hk
    exact ⟨calls[k], List.getElem_mem hk, hnth k hk⟩

/-- What it takes to hand a reply to the guest. -/
theorem accept_cases {s t : State} {answer : Answer} {events : List Event} {v : Value}
    (hstep : step serde request s answer = some (.next t events))
    (hv : .loop (.enqueued .guest v) ∈ events) :
    ∃ outcome, answer = .loop (.read outcome) ∧ visible s (.read outcome) = true ∧
      (s.loop.host.receive serde outcome).result = .ok (some v) ∧ Answers request s.loop v ∧
      tookFrom .host (loopOf events) = (s.loop.host.receive serde outcome).consumed := by
  rcases step_next hstep with ⟨bytes, _, rfl⟩ | ⟨a, effects, rfl, hvis, hloop, _, rfl⟩
  · simp at hv
  · have hmem : Effect.enqueued .guest v ∈ effects := by simpa using hv
    obtain ⟨loop, pipe⟩ := t
    have hc : Step serde request s.loop a (.next loop effects) := step_cases hloop
    cases hc with
    | reply outcome w _ _ hres ha _ =>
      obtain rfl : v = w := by simpa using hmem
      exact ⟨outcome, rfl, hvis, hres, ha, by rw [loopOf_loop]; simp⟩
    | idle | expired | ceiling | hostTook | guestSent | hostSent | guestTook | event |
      guestEof | childExited => simp at hmem

theorem receive_value {r : Reader} (h : r.Within) {outcome : ReadOutcome} {v : Value}
    (hr : (r.receive serde outcome).result = .ok (some v)) :
    ∃ payload, Framing.Fits MAX_FRAME payload ∧ serde.fromSlice payload = .ok v ∧
      r.bytes ++ (r.receive serde outcome).consumed = Framing.frame payload := by
  have hc := Reader.receive_cases serde h outcome
  generalize r.receive serde outcome = received at hc hr
  cases hc with
  | header | retry | fault | closed | more | garbled => cases hr
  | value chunk rest p w hne hframe hfits hw =>
    cases hr
    exact ⟨p, hfits, hw, hframe⟩

/-- The reply that is accepted after `k` others has number `k + 1`, and it is the
host's frame after `k` others. -/
theorem accepted_reply {s t : State} {answer : Answer} {history events : List Event} {v : Value}
    (hreach : (machine serde request).Reaches s history)
    (hstep : step serde request s answer = some (.next t events))
    (hv : .loop (.enqueued .guest v) ∈ events) :
    sequenceOf v = some ((repliesOf (loopOf history)).length + 1) ∧
      Holds serde (repliesOf (loopOf history)).length v (wroteBy history) := by
  have hnext : (machine serde request).Reaches t (history ++ events) := hreach.next hstep
  obtain ⟨outcome, rfl, hvis, hres, ha, htook⟩ := accept_cases hstep hv
  obtain ⟨hloop, _⟩ := reaches_loop hreach
  have hreplies : repliesOf (loopOf history) = receivedFrom .host (loopOf history) := by
    rw [repliesOf, received_replies hloop, List.tail_cons]
  constructor
  · obtain ⟨n, hn, hseq⟩ := ha.outstanding
    obtain ⟨rfl, hcount⟩ := (Capability.inv_reaches hloop).pending n hn
    rw [← hcount]
    exact hseq
  · -- the host writes nothing in this step, so all of the frame was there before it
    obtain ⟨_, hafter⟩ := reaches_loop hnext
    have hquiet : wroteBy events = [] := by
      rcases step_next hstep with ⟨_, _, rfl⟩ | ⟨_, _, _, _, _, _, rfl⟩
      · simp at hv
      · exact wroteBy_loop _
    have hhost := (balanced_reaches hloop).host
    obtain ⟨ps, hps, htaken⟩ := hhost.frames
    obtain ⟨payload, hfits, hpayload, hframe⟩ := receive_value hhost.within hres
    have hwrote : wroteBy history = Framing.concat ps ++ (Framing.frame payload ++ t.pipe) := by
      rw [wroteBy_append, hquiet, List.append_nil, loopOf_append, tookFrom_append, htook,
        htaken] at hafter
      rw [hafter, ← hframe]
      simp only [List.append_assoc]
    have hlength : ps.length = (repliesOf (loopOf history)).length := by
      rw [hreplies]
      exact hps.length_eq
    have hwords : ∀ q ∈ ps, q.length < 2 ^ 32 := fun q hq =>
      (hps.fits q hq).bounded.trans_lt maxFrame_lt_word
    refine ⟨payload, t.pipe, ?_, hpayload⟩
    rw [hwrote, ← hlength, Framing.frameStart_concat hwords, List.drop_left]

/-! ## How a call goes out -/

theorem loopOf_front {a b : List Event} (h : a <+: b) : loopOf a <+: loopOf b := h.filterMap _

theorem callsOf_front {a b : List Event} (h : a <+: b) :
    callsOf (loopOf a) <+: callsOf (loopOf b) :=
  (enqueuedTo_front (loopOf_front h) .host).filter _

/-- What has come to a place stays there. -/
theorem begun_mono {place : Place} {k : Nat} {a b : List Event} (h : a <+: b)
    (hbegun : Begun place k a) : Begun place k b := by
  have hcame : ∃ more, cameTo place b = cameTo place a ++ more := by
    obtain ⟨more, rfl⟩ := h
    cases place with
    | pipe => exact ⟨wroteBy more, wroteBy_append a more⟩
    | loop => exact ⟨_, by rw [cameTo, loopOf_append, tookFrom_append]; rfl⟩
  obtain ⟨more, hmore⟩ := hcame
  rw [Begun, hmore, Framing.frameStart_append hbegun, List.length_append]
  exact Nat.lt_add_right _ hbegun

/-- All that was handed to a writer is delivered when it is drained, and nothing of what comes
next. -/
theorem delivered_drained {values : List Value} (v : Value)
    (h : ∀ w ∈ values, (serde.toVec w).length ≤ MAX_FRAME) :
    delivered serde (values ++ [v]) (wire serde values).length = values := by
  induction values with
  | nil =>
    rw [List.nil_append, wire_nil, List.length_nil, delivered, if_neg]
    rw [Framing.length_frame]
    omega
  | cons w values ih =>
    have hlength : (wire serde (w :: values)).length =
        (Framing.frame (serde.toVec w)).length + (wire serde values).length := by
      rw [wire_cons, List.length_append, wire_singleton (h w (List.mem_cons_self ..))]
    rw [List.cons_append, delivered, hlength, if_pos (Nat.le_add_right _ _),
      Nat.add_sub_cancel_left, ih fun x hx => h x (List.mem_cons_of_mem _ hx)]

/-- A call that is handed to the host has not been sent when it is. -/
theorem onItsWay_of_event {s : State} {history : List Event} {v : Value} {w : Writer}
    (hreach : (machine serde request).Reaches s history) (hload : Loads serde s.loop.toHost v w)
    (hcall : isCall v = true) {events : List Event}
    (henqueued : enqueuedTo .host (loopOf events) = [v]) (hsent : sentTo .host (loopOf events) = []) :
    OnItsWay serde (callsOf (loopOf history)).length (history ++ events) := by
  have haccount := (balanced_reaches (reaches_loop hreach).1).toHost
  have htotal := haccount.total
  rw [(Writer.not_pending_iff _).mp hload.drained, List.append_nil] at htotal
  constructor
  · rw [loopOf_append, Capability.callsOf_append, List.length_append]
    simp [callsOf, henqueued, hcall]
  · rw [deliveredCalls, loopOf_append, enqueuedTo_append, sentTo_append, henqueued, hsent,
      List.append_nil, htotal, delivered_drained v haccount.bounded]
    exact Nat.le_refl _

/-- A step hands the host one call that is then on its way, or none. -/
theorem handed_step {s t : State} {answer : Answer} {history events : List Event}
    (hreach : (machine serde request).Reaches s history)
    (hstep : step serde request s answer = some (.next t events)) :
    callsOf (loopOf events) = [] ∨ ((callsOf (loopOf events)).length = 1 ∧
      OnItsWay serde (callsOf (loopOf history)).length (history ++ events)) := by
  rcases step_next hstep with ⟨bytes, -, rfl⟩ | ⟨a, effects, rfl, -, hloop, -, rfl⟩
  · exact Or.inl rfl
  · obtain ⟨loop, pipe⟩ := t
    have hc : Step serde request s.loop a (.next loop effects) := step_cases hloop
    cases hc with
    | event outcome v s' w _ _ _ _ _ _ _ hload =>
      cases hcall : isCall v with
      | false =>
        left
        rw [loopOf_loop]
        simp [callsOf, hcall]
      | true =>
        refine Or.inr ⟨?_, onItsWay_of_event hreach hload hcall ?_ ?_⟩
        · rw [loopOf_loop]
          simp [callsOf, hcall]
        · rw [loopOf_loop]
          simp
        · rw [loopOf_loop]
          simp
    | expired | ceiling | childExited =>
      left
      rw [loopOf_loop]
      simp [callsOf, wallTimeout, memoryLimit, guestExit, Capability.isCall_failure]
    | idle | hostTook | reply | guestSent | hostSent | guestTook | guestEof =>
      left
      rw [loopOf_loop]
      simp [callsOf]

/-- For each call there is the moment at which it is handed to the host: what came before the call
came before that. -/
theorem handed {s : State} {history : List Event}
    (hreach : (machine serde request).Reaches s history) :
    ∀ k < (callsOf (loopOf history)).length, ∃ middle, middle <+: history ∧
      OnItsWay serde k middle ∧ ∀ before, before <+: history →
        (callsOf (loopOf before)).length ≤ k → before <+: middle := by
  induction hreach with
  | start hstart =>
    obtain ⟨-, -, rfl⟩ := hstart
    intro k hk
    exact absurd hk (Nat.not_lt_zero k)
  | @next s t answer history events hreach hstep ih =>
    -- a call that was there before keeps its moment
    have hold : ∀ k < (callsOf (loopOf history)).length, ∃ middle, middle <+: history ++ events ∧
        OnItsWay serde k middle ∧ ∀ before, before <+: history ++ events →
          (callsOf (loopOf before)).length ≤ k → before <+: middle := by
      intro k hk
      obtain ⟨middle, hmiddle, hway, hfirst⟩ := ih k hk
      refine ⟨middle, hmiddle.trans (List.prefix_append _ _), hway, ?_⟩
      intro before hbefore hfew
      refine hfirst before ?_ hfew
      rcases List.prefix_or_prefix_of_prefix hbefore (List.prefix_append history events) with
        hshort | hlong
      · exact hshort
      · have hmore := (callsOf_front hlong).length_le
        omega
    intro k hk
    rw [loopOf_append, Capability.callsOf_append, List.length_append] at hk
    rcases handed_step hreach hstep with hnone | ⟨hone, hway⟩
    · rw [hnone, List.length_nil, Nat.add_zero] at hk
      exact hold k hk
    · rw [hone] at hk
      rcases Nat.lt_succ_iff_lt_or_eq.mp hk with hless | rfl
      · exact hold k hless
      · exact ⟨history ++ events, List.prefix_rfl, hway, fun before hbefore _ => hbefore⟩

/-- A call that is on its way in a part of a run is one of those read in all of it. -/
theorem onItsWay_bound {k : Nat} {before history : List Event} (h : before <+: history)
    (hway : OnItsWay serde k before) : k < (callsOf (loopOf history)).length := by
  have hmore := (callsOf_front h).length_le
  have hread := hway.1
  omega

theorem quiet_iff {place : Place} {history : List Event} :
    Quiet serde place history ↔ ∀ before ∈ history.inits,
      ∀ k < (callsOf (loopOf history)).length, ¬ (OnItsWay serde k before ∧ Begun place k before) := by
  constructor
  · rintro hquiet before hbefore k - ⟨hway, hbegun⟩
    exact hquiet k before ((List.mem_inits _ _).mp hbefore) hway hbegun
  · intro hall k before hbefore hway hbegun
    exact hall before ((List.mem_inits _ _).mpr hbefore) k (onItsWay_bound hbefore hway)
      ⟨hway, hbegun⟩

instance (serde : SerdeJson) (place : Place) (history : List Event) :
    Decidable (Quiet serde place history) :=
  decidable_of_iff _ quiet_iff.symm

/-! ## Runs -/

/-- The frame after `k` others is early exactly if something of it is there while its call is on
its way. -/
theorem early_iff {s : State} {history : List Event}
    (hreach : (machine serde request).Reaches s history) {place : Place} {k : Nat}
    (hcalls : (callsOf (loopOf history)).length = k + 1) :
    Early serde place k history ↔ ¬ Clear serde place k history := by
  constructor
  · rintro ⟨before, hbefore, hbegun, hfew⟩ hclear
    by_cases hidle : (callsOf (loopOf before)).length ≤ k
    · obtain ⟨middle, hmiddle, hway, hfirst⟩ := handed hreach k (by omega)
      exact hclear middle hmiddle hway (begun_mono (hfirst before hbefore hidle) hbegun)
    · have hmost := (callsOf_front hbefore).length_le
      exact hclear before hbefore ⟨by omega, hfew⟩ hbegun
  · intro hcrossed
    by_contra hpunctual
    refine hcrossed fun before hbefore hway hbegun => ?_
    exact hpunctual ⟨before, hbefore, hbegun, hway.2⟩

/-- The number of an accepted reply tells which frame of the host it is, so that it is
solicited exactly if nothing of that frame was there while its call was on its way. -/
theorem solicited_iff {s t : State} {answer : Answer} {history events : List Event} {v : Value}
    (hreach : (machine serde request).Reaches s history)
    (hstep : step serde request s answer = some (.next t events))
    (hv : .loop (.enqueued .guest v) ∈ events) (place : Place) :
    Solicited serde place history v ↔
      Clear serde place (repliesOf (loopOf history)).length history := by
  obtain ⟨hseq, _⟩ := accepted_reply hreach hstep hv
  obtain ⟨outcome, -, -, -, ha, -⟩ := accept_cases hstep hv
  have hcap := Capability.inv_reaches (reaches_loop hreach).1
  obtain ⟨n, hn, -⟩ := ha.outstanding
  have hcalls := (hcap.pending n hn).2
  have hcount : ∀ before, before <+: history → ∀ k,
      (∃ call ∈ deliveredCalls serde before, sequenceOf call = some (k + 1)) ↔
        k < (deliveredCalls serde before).length := by
    intro before hbefore k
    exact numbered_mem hcap.safe.calls
      ((deliveredCalls_front serde before).trans (callsOf_front hbefore)) k
  rw [← not_iff_not, ← early_iff hreach hcalls]
  constructor
  · intro hnot
    by_contra hpunctual
    refine hnot ⟨_, hseq, fun before hbefore hbegun => (hcount before hbefore _).mpr ?_⟩
    by_contra hfew
    exact hpunctual ⟨before, hbefore, hbegun, Nat.not_lt.mp hfew⟩
  · rintro ⟨before, hbefore, hbegun, hfew⟩ ⟨k, hk, hall⟩
    obtain rfl : (repliesOf (loopOf history)).length = k := by
      rw [hseq] at hk
      have := Option.some.inj hk
      omega
    have hmore := (hcount before hbefore _).mp (hall before hbefore hbegun)
    omega

/-- A value from the host is the reply to the outstanding call and is handed to the guest, or the
run ends with an error. -/
theorem accepted_or_error {s : State} {answer : Answer}
    {out : Outcome State Event (Except IoError Unit)} {v : Value}
    (hstep : step serde request s answer = some out)
    (hv : .loop (.received .host v) ∈ out.effects) :
    (∃ t events, out = .next t events ∧ .loop (.enqueued .guest v) ∈ events ∧
      s.loop.pendingSequence.isSome = true) ∨ ∃ e, out.result = some (.error e) := by
  cases answer with
  | wrote bytes =>
    cases hstep
    simp [Outcome.effects] at hv
  | loop a =>
    rw [step] at hstep
    split at hstep
    · obtain ⟨real, hreal, rfl⟩ := Option.map_eq_some_iff.mp hstep
      have hc := step_cases hreal
      cases hc with
      | reply outcome w _ _ _ ha _ =>
        have hw : v = w := by simpa [advance, Outcome.effects] using hv
        obtain ⟨n, hn, -⟩ := ha.outstanding
        exact Or.inl ⟨_, _, rfl, by simp [hw], by rw [hn]; rfl⟩
      | failed _ e effects => exact Or.inr ⟨e, rfl⟩
      | idle | expired | expiredPending | lastSent | ceiling | hostTook | guestSent | hostSent |
        done | guestTook | event | guestEof | childExited =>
        simp [advance, Outcome.effects] at hv
    · cases hstep

/-- What is accepted as a reply is the next frame of the host. Its call had been sent before its
first byte came to a place exactly if none came there while the call was on its way, as in a
run that is quiet. A value of the host that is received while no call is outstanding ends the
run, and in a quiet run so does each that was early. -/
theorem solicited_replies (serde : SerdeJson) (request : Request) :
    (∀ s t history answer events v, (machine serde request).Reaches s history →
      step serde request s answer = some (.next t events) →
      .loop (.enqueued .guest v) ∈ events →
      Holds serde (repliesOf (loopOf history)).length v (wroteBy history) ∧
      ∀ place, (Quiet serde place history → Solicited serde place history v) ∧
        (Solicited serde place history v ↔
          Clear serde place (repliesOf (loopOf history)).length history)) ∧
    (∀ s history answer out v, (machine serde request).Reaches s history →
      step serde request s answer = some out → .loop (.received .host v) ∈ out.effects →
      s.loop.pendingSequence = none ∨ (∃ place, Quiet serde place history ∧
        Early serde place (receivedFrom .host (loopOf history)).length history) →
      ∃ e, out.result = some (.error e)) := by
  constructor
  · intro s t history answer events v hreach hstep hv
    refine ⟨(accepted_reply hreach hstep hv).2, fun place => ?_⟩
    have hiff := solicited_iff hreach hstep hv place
    exact ⟨fun hquiet => hiff.mpr (hquiet _), hiff⟩
  · intro s history answer out v hreach hstep hv hearly
    rcases accepted_or_error hstep hv with ⟨t, events, rfl, hmem, hsome⟩ | herror
    · rcases hearly with hnone | ⟨place, hquiet, hearly⟩
      · rw [hnone] at hsome
        cases hsome
      · obtain ⟨outcome, -, -, -, ha, -⟩ := accept_cases hstep hmem
        obtain ⟨n, hn, -⟩ := ha.outstanding
        have hcalls := ((Capability.inv_reaches (reaches_loop hreach).1).pending n hn).2
        rw [repliesOf, received_replies (reaches_loop hreach).1, List.tail_cons] at hcalls
        exact absurd (hquiet _) ((early_iff hreach hcalls).mp hearly)
    · exact herror

/-! ## A reply that comes early -/

def nothing : ReadOutcome := .failed ⟨.wouldBlock, ""⟩

def full : WriteOutcome := .failed ⟨.wouldBlock, ""⟩

/-- One iteration in which the guest takes what there is for it. -/
def iteration (host : ReadOutcome) (room : WriteOutcome) (guest : ReadOutcome) : List Answer :=
  [.loop (.clock false), .loop (.resident none), .loop (.read host),
    .loop (.write (.room CHUNK)), .loop (.write room),
    .loop (.read guest), .loop (.waited (.ok none)), .loop (.polled (.ok ()))]

def sampleEvent : Bytes := Framing.frame (SerdeJson.reference.toVec Capability.sampleCall)

def sampleAnswer : Bytes := Framing.frame (SerdeJson.reference.toVec Capability.sampleReply)

/-- The host writes its reply before it gets the call, and then the loop reads the call. -/
def earlyRun : List Answer :=
  .wrote sampleAnswer :: iteration nothing full (.data sampleEvent) ++
    iteration nothing full (.data (sampleEvent.drop 4)) ++
    iteration (.data sampleAnswer) full nothing ++ [.loop (.clock false), .loop (.resident none)]

/-- The host writes its reply when it has got the call. -/
def promptRun : List Answer :=
  iteration nothing full (.data sampleEvent) ++
    iteration nothing full (.data (sampleEvent.drop 4)) ++
    iteration nothing (.room CHUNK) nothing ++
    .wrote sampleAnswer :: iteration (.data sampleAnswer) full nothing ++
    [.loop (.clock false), .loop (.resident none)]

/-- The host writes a reply while there is no call, and the loop reads it. -/
def idleRun : List Answer :=
  .wrote sampleAnswer :: iteration (.data sampleAnswer) full nothing ++
    [.loop (.clock false), .loop (.resident none)]

def start : State := ⟨{ toGuest := fresh SerdeJson.reference Request.sample.toValue }, []⟩

def opening : List Event := [.loop (.enqueued .guest Request.sample.toValue)]

theorem reaches_sample : (machine SerdeJson.reference Request.sample).Reaches start opening :=
  .start ⟨enter_of_fits (by decide) (by decide +kernel), rfl, rfl⟩

/-- The first reply has been written and begun to be read while its call is on its way and nothing
has been sent to the host. -/
def early (history : List Event) : Bool :=
  decide (Begun .pipe 0 history) && decide (Begun .loop 0 history) &&
    decide (OnItsWay SerdeJson.reference 0 history) &&
    decide ((repliesOf (loopOf history)).length = 0) &&
    !(tookFrom .host (loopOf history)).isEmpty && (sentTo .host (loopOf history)).isEmpty

def lastRead : Answer := .loop (.read (.data (sampleAnswer.drop 4)))

/-- The loop goes on with the reply in its buffer for the guest. -/
def accepts : Option (Outcome State Event (Except IoError Unit)) → Bool
  | some (.next _ events) => events.contains (.loop (.enqueued .guest Capability.sampleReply))
  | _ => false

theorem accepts_next {out : Option (Outcome State Event (Except IoError Unit))}
    (h : accepts out = true) : ∃ t events, out = some (.next t events) ∧
      .loop (.enqueued .guest Capability.sampleReply) ∈ events := by
  match out, h with
  | some (.next t events), h => exact ⟨t, events, rfl, List.contains_iff_mem.mp h⟩

/-- The loop gets the reply and does not go on. -/
def refuses : Option (Outcome State Event (Except IoError Unit)) → Bool
  | some (.exit _ events) => events.contains (.loop (.received .host Capability.sampleReply))
  | _ => false

theorem refuses_received {out : Option (Outcome State Event (Except IoError Unit))}
    (h : refuses out = true) : ∃ real, out = some real ∧
      .loop (.received .host Capability.sampleReply) ∈ real.effects := by
  match out, h with
  | some (.exit result events), h => exact ⟨.exit result events, rfl, List.contains_iff_mem.mp h⟩

/-- A run in which the reply to the call is accepted, and it was solicited. -/
theorem solicited_replies_sample :
    (∃ s t history answer events v,
      (machine SerdeJson.reference Request.sample).Reaches s history ∧
      step SerdeJson.reference Request.sample s answer = some (.next t events) ∧
      .loop (.enqueued .guest v) ∈ events ∧
      ∀ place, Quiet SerdeJson.reference place history ∧
        Solicited SerdeJson.reference place history v) ∧
    ∃ s history answer out v e,
      (machine SerdeJson.reference Request.sample).Reaches s history ∧
      step SerdeJson.reference Request.sample s answer = some out ∧
      .loop (.received .host v) ∈ out.effects ∧
      (∀ place, Quiet SerdeJson.reference place history ∧
        Early SerdeJson.reference place 0 history) ∧ out.result = some (.error e) := by
  constructor
  · have hplay : ((machine SerdeJson.reference Request.sample).follow start opening
        promptRun).map (fun reached =>
          decide (Quiet SerdeJson.reference .pipe reached.2) &&
            decide (Quiet SerdeJson.reference .loop reached.2) &&
            accepts (step SerdeJson.reference Request.sample reached.1 lastRead)) =
        some true := by decide +kernel
    obtain ⟨⟨s, history⟩, hrun, hfacts⟩ := Option.map_eq_some_iff.mp hplay
    simp only [Bool.and_eq_true, decide_eq_true_eq] at hfacts
    obtain ⟨⟨hpipe, hloop⟩, haccepts⟩ := hfacts
    have hreach := reaches_sample.follow hrun
    obtain ⟨t, events, hstep, hmem⟩ := accepts_next haccepts
    refine ⟨s, t, history, lastRead, events, Capability.sampleReply, hreach, hstep, hmem, ?_⟩
    have hsolicited := ((solicited_replies SerdeJson.reference Request.sample).1 s t history
      lastRead events Capability.sampleReply hreach hstep hmem).2
    intro place
    cases place with
    | pipe => exact ⟨hpipe, (hsolicited .pipe).1 hpipe⟩
    | loop => exact ⟨hloop, (hsolicited .loop).1 hloop⟩
  · have hplay : ((machine SerdeJson.reference Request.sample).follow start opening
        idleRun).map (fun reached =>
          decide (Quiet SerdeJson.reference .pipe reached.2) &&
            decide (Quiet SerdeJson.reference .loop reached.2) &&
            decide (Begun .pipe 0 reached.2) && decide (Begun .loop 0 reached.2) &&
            decide ((deliveredCalls SerdeJson.reference reached.2).length = 0) &&
            decide (reached.1.loop.pendingSequence = none) &&
            refuses (step SerdeJson.reference Request.sample reached.1 lastRead)) =
        some true := by decide +kernel
    obtain ⟨⟨s, history⟩, hrun, hfacts⟩ := Option.map_eq_some_iff.mp hplay
    simp only [Bool.and_eq_true, decide_eq_true_eq] at hfacts
    obtain ⟨⟨⟨⟨⟨⟨hpipe, hloop⟩, hwritten⟩, hread⟩, hcalls⟩, hidle⟩, hrefuses⟩ := hfacts
    have hreach := reaches_sample.follow hrun
    obtain ⟨out, hstep, hmem⟩ := refuses_received hrefuses
    obtain ⟨e, he⟩ := (solicited_replies SerdeJson.reference Request.sample).2 s history lastRead
      out Capability.sampleReply hreach hstep hmem (Or.inl hidle)
    refine ⟨s, history, lastRead, out, Capability.sampleReply, e, hreach, hstep, hmem, ?_, he⟩
    have hnone : (deliveredCalls SerdeJson.reference history).length ≤ 0 := hcalls.le
    intro place
    cases place with
    | pipe => exact ⟨hpipe, history, List.prefix_rfl, hwritten, hnone⟩
    | loop => exact ⟨hloop, history, List.prefix_rfl, hread, hnone⟩

/-- The reply is accepted when it has been written and begun to be read, and not a byte of the call
has been sent. -/
theorem early_reply_accepted : ∃ s t history answer events v,
    (machine SerdeJson.reference Request.sample).Reaches s history ∧
      step SerdeJson.reference Request.sample s answer = some (.next t events) ∧
      .loop (.enqueued .guest v) ∈ events ∧
      (∀ place, ¬ Solicited SerdeJson.reference place history v) ∧
      tookFrom .host (loopOf history) ≠ [] ∧ sentTo .host (loopOf history) = [] := by
  have hstart := reaches_sample
  have hplay : ((machine SerdeJson.reference Request.sample).follow start opening
      earlyRun).map (fun reached =>
        early reached.2 &&
          accepts (step SerdeJson.reference Request.sample reached.1 lastRead)) =
      some true := by decide +kernel
  obtain ⟨⟨s, history⟩, hrun, hfacts⟩ := Option.map_eq_some_iff.mp hplay
  simp only [early, Bool.and_eq_true, Bool.not_eq_true', decide_eq_true_eq,
    List.isEmpty_iff, List.isEmpty_eq_false_iff] at hfacts
  obtain ⟨⟨⟨⟨⟨⟨hwritten, hread⟩, hcalls⟩, hreplies⟩, htook⟩, hsent⟩, haccepts⟩ := hfacts
  have hreach := hstart.follow hrun
  obtain ⟨t, events, hstep, hmem⟩ := accepts_next haccepts
  refine ⟨s, t, history, lastRead, events, Capability.sampleReply, hreach, hstep, hmem, ?_,
    htook, hsent⟩
  intro place
  rw [solicited_iff hreach hstep hmem, hreplies]
  intro hclear
  refine hclear history List.prefix_rfl hcalls ?_
  cases place with
  | pipe => exact hwritten
  | loop => exact hread

end RubyEngine.Supervisor.Replies
