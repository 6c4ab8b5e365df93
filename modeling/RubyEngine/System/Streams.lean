import RubyEngine.System

/-!
# What the pipes hold

A stream of printed values, whoever reads it and however far, gives the first of these
values as they are read again.
-/
namespace RubyEngine.System

open Json (Number Value)
open Transition (Outcome Machine)
open Transition.Machine (Position)
open Supervisor
open Supervisor.Capability (callsOf isCall)

variable {serde : SerdeJson} {values vs : List Value} {took stream : Bytes}

/-! ## Streams -/

/-- The part of a frame that has not begun. -/
theorem partial_nil : Framing.Partial (Framing.Fits MAX_FRAME) [] :=
  ⟨[0], ⟨by decide, by decide⟩, Framing.frame [0], Framing.frame_ne_nil _, rfl⟩

theorem stream_concat {ps : List Bytes} (h : Decodes serde ps vs) :
    Stream serde vs (Framing.concat ps) :=
  ⟨ps, [], h, partial_nil, (List.append_nil _).symm⟩

theorem decodes_printed (hd : serde.Documented) {f : UInt64 → Number}
    (hf : ∀ v : Value, v.doc.nesting < 128 → serde.fromSlice (serde.toVec v) = .ok (v.reread f))
    (h : ∀ v ∈ vs, Carried serde v) :
    Decodes serde (vs.map serde.toVec) (vs.map (Value.reread f)) := by
  induction vs with
  | nil => exact .nil
  | cons v vs ih =>
    have hv := h v (List.mem_cons_self ..)
    exact .cons ⟨hd.fits hv.bounded, hf v hv.nesting⟩
      (ih fun w hw => h w (List.mem_cons_of_mem _ hw))

/-- The frames of printed values are a stream of what is read of them. -/
theorem stream_wire (hd : serde.Documented) {f : UInt64 → Number}
    (hf : ∀ v : Value, v.doc.nesting < 128 → serde.fromSlice (serde.toVec v) = .ok (v.reread f))
    (h : ∀ v ∈ vs, Carried serde v) : Stream serde (vs.map (Value.reread f)) (wire serde vs) := by
  rw [wire_eq_concat fun v hv => (h v hv).bounded]
  exact stream_concat (decodes_printed hd hf h)

/-- Whoever has read frames of a stream has read the first of its values. -/
theorem decoded_front (h : Decoded serde values took) (hs : Stream serde vs stream)
    (htook : took <+: stream) : values <+: vs := by
  obtain ⟨qs, rest, hqs, rfl⟩ := h
  obtain ⟨ps, tail, hps, htail, rfl⟩ := hs.cut
  obtain ⟨later, rfl, -⟩ := Framing.cut_concat maxFrame_lt_word hqs.fits hps.fits htail htook
  obtain ⟨more, rfl, -⟩ := hqs.split hps
  exact List.prefix_append _ _

theorem decoded_decodeFrames (n : Nat) (stream : Bytes) :
    Decoded serde (decodeFrames serde n stream) stream := by
  induction n generalizing stream with
  | zero => exact ⟨[], stream, .nil, rfl⟩
  | succ n ih =>
    rw [decodeFrames]
    split
    · next v rest hread =>
      obtain ⟨p, hfits, hparsed, rfl⟩ := Guest.Process.readFrame_ok hread
      obtain ⟨ps, tail, hps, hrest⟩ := ih rest
      refine ⟨p :: ps, tail, .cons ⟨hfits, hparsed⟩ hps, ?_⟩
      rw [Framing.concat_cons, List.append_assoc, ← hrest]
    · exact ⟨[], stream, .nil, rfl⟩

theorem decodedFrames_front (hs : Stream serde vs stream) (htook : took <+: stream) :
    decodedFrames serde took <+: vs :=
  decoded_front (decoded_decodeFrames _ _) hs htook

theorem decodedFrames_grows {more : Bytes} (h : took <+: more) :
    decodedFrames serde took <+: decodedFrames serde more :=
  Decoded.prefix_of (decoded_decodeFrames _ _) h

section

variable {request : Request} {p : Position Loop Effect (Except IoError Unit)}

/-- The last step enqueues nothing. -/
theorem enqueuedTo_exit {s : Loop} {answer : Answer} {result : Except IoError Unit}
    {effects : List Effect} (h : step serde request s answer = some (.exit result effects))
    (peer : Peer) : enqueuedTo peer effects = [] := by
  have hc := step_cases h
  cases hc with
  | expiredPending | lastSent | done => simp
  | failed _ e _ _ hquiet _ => exact enqueuedTo_quiet hquiet peer

/-- The calls handed to the host are those among the events of the guest. -/
theorem calls_received {s : Loop} {history : List Effect}
    (h : (machine serde request).Reaches s history) :
    callsOf history = (receivedFrom .guest history).filter isCall := by
  obtain ⟨synthesized, heq, -, hsynthesized, -⟩ := (Relay.inv_reaches h).relayed
  have hnone : synthesized.filter isCall = [] := by
    rw [List.filter_eq_nil_iff]
    intro v hv
    have hcompleted : (v.index "kind").asStr = some "completed" :=
      of_decide_eq_true (hsynthesized v hv).completed
    simp [isCall, hcompleted]
  rw [callsOf, heq, List.filter_append, hnone, List.append_nil]

/-- A pipe of the supervisor holds the first of the frames that it was given. -/
theorem sent_front (h : (machine serde request).At p) (peer : Peer) :
    sentTo peer p.history <+: wire serde (enqueuedTo peer p.history) := by
  have hbalanced : ∀ {s : Loop} {history : List Effect}, Balanced serde s history →
      sentTo peer history <+: wire serde (enqueuedTo peer history) := by
    intro s history hb
    cases peer with
    | host => exact ⟨_, hb.toHost.total⟩
    | guest => exact ⟨_, hb.toGuest.total⟩
  refine h.observes.of_invariant (P := fun history =>
    sentTo peer history <+: wire serde (enqueuedTo peer history))
    (fun s history hreach => balanced_reaches hreach) (fun s history hb => hbalanced hb) ?_
  intro s answer result history effects hb hstep
  rw [enqueuedTo_append, enqueuedTo_exit hstep, List.append_nil, sentTo_append]
  have hc := step_cases hstep
  have hlast : ∀ outcome, effects = [.sent .host (s.toHost.send outcome).accepted] →
      sentTo peer history ++ sentTo peer effects <+: wire serde (enqueuedTo peer history) := by
    rintro outcome rfl
    cases peer with
    | host => simpa using ⟨_, (hb.toHost.send outcome).total⟩
    | guest => simpa using hbalanced hb
  cases hc with
  | expiredPending => simpa using hbalanced hb
  | lastSent outcome => exact hlast outcome rfl
  | done outcome => exact hlast outcome rfl
  | failed _ e _ _ hquiet _ =>
    rw [sentTo_quiet hquiet, List.append_nil]
    exact hbalanced hb

/-- A step of the loop takes from the front of what its read finds. -/
theorem took_step {s t : Loop} {answer : Answer} {history effects : List Effect}
    (hb : Balanced serde s history) (h : step serde request s answer = some (.next t effects)) :
    (tookFrom .host effects = [] ∨ s.phase = .host ∧ ∃ bytes, bytes ≠ [] ∧
      answer = .read (.data bytes) ∧ tookFrom .host effects <+: bytes) ∧
    (tookFrom .guest effects = [] ∨ s.phase = .guest ∧ ∃ bytes, bytes ≠ [] ∧
      answer = .read (.data bytes) ∧ tookFrom .guest effects <+: bytes) := by
  have hfound : ∀ (r : Reader) (outcome : ReadOutcome), r.Within →
      (r.receive serde outcome).consumed = [] ∨ ∃ bytes, bytes ≠ [] ∧ outcome = .data bytes ∧
        (r.receive serde outcome).consumed <+: bytes := by
    intro r outcome hw
    cases outcome with
    | failed e => exact Or.inl (Replies.consumed_failed hw)
    | data bytes =>
      have hfront : (r.receive serde (.data bytes)).consumed <+: bytes := Replies.consumed_front hw
      by_cases hnil : bytes = []
      · rw [hnil] at hfront ⊢
        exact Or.inl (List.prefix_nil.mp hfront)
      · exact Or.inr ⟨bytes, hnil, rfl, hfront⟩
  have hhost : ∀ outcome, s.phase = .host → answer = .read outcome →
      (s.host.receive serde outcome).consumed = [] ∨ s.phase = .host ∧ ∃ bytes, bytes ≠ [] ∧
        answer = .read (.data bytes) ∧ (s.host.receive serde outcome).consumed <+: bytes := by
    rintro outcome hphase rfl
    rcases hfound s.host outcome hb.host.within with hnil | ⟨bytes, hne, rfl, hfront⟩
    · exact Or.inl hnil
    · exact Or.inr ⟨hphase, bytes, hne, rfl, hfront⟩
  have hguest : ∀ outcome, s.phase = .guest → s.guestClosed = false → answer = .read outcome →
      (s.guest.receive serde outcome).consumed = [] ∨ s.phase = .guest ∧ ∃ bytes, bytes ≠ [] ∧
        answer = .read (.data bytes) ∧ (s.guest.receive serde outcome).consumed <+: bytes := by
    rintro outcome hphase hopen rfl
    rcases hfound s.guest outcome (hb.guest hopen).within with hnil | ⟨bytes, hne, rfl, hfront⟩
    · exact Or.inl hnil
    · exact Or.inr ⟨hphase, bytes, hne, rfl, hfront⟩
  have hc := step_cases h
  cases hc with
  | hostTook outcome hphase _ => exact ⟨by simpa using hhost outcome hphase rfl, by simp⟩
  | reply outcome v w hphase _ _ _ => exact ⟨by simpa using hhost outcome hphase rfl, by simp⟩
  | guestTook outcome hphase _ _ hopen _ =>
    exact ⟨by simp, by simpa using hguest outcome hphase hopen rfl⟩
  | event outcome v s' w hphase _ hopen =>
    exact ⟨by simp, by simpa using hguest outcome hphase hopen rfl⟩
  | guestEof outcome e hphase _ _ hopen =>
    exact ⟨by simp, by simpa using hguest outcome hphase hopen rfl⟩
  | idle | expired | ceiling | guestSent | hostSent | childExited => simp

end

end RubyEngine.System
