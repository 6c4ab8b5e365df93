import RubyEngine.Serde.Reference
import RubyEngine.Transport

/-!
# The pipe loses and reorders nothing

A link is a `Writer`, the pipe behind it and the `Reader` at the other end. Its
operations come in any order, with any outcome of each system call. The lists of
values and of bytes beside the three parts record what has happened.
-/
namespace RubyEngine.Lossless

open Json (Value)

structure Link where
  writer : Writer := {}
  pipe : Bytes := []
  reader : Reader := {}
  /-- The values whose `enqueue` succeeded. -/
  enqueued : List Value := []
  /-- The bytes that the descriptor has accepted. -/
  accepted : Bytes := []
  received : List Value := []

inductive Op where
  | enqueue (value : Value)
  | send (outcome : WriteOutcome)
  /-- A read that sees up to so many of the bytes in the pipe. -/
  | receive (visible : Nat)
  | receiveFails (e : IoError)

def Link.read (serde : SerdeJson) (l : Link) (outcome : ReadOutcome) : Link :=
  let received := l.reader.receive serde outcome
  { l with
    pipe := l.pipe.drop received.consumed.length
    reader := received.reader
    received := match received.result with
      | .ok (some v) => l.received ++ [v]
      | _ => l.received }

def Link.step (serde : SerdeJson) (l : Link) : Op → Link
  | .enqueue value =>
      match l.writer.enqueue serde value with
      | (w, .ok ()) => { l with writer := w, enqueued := l.enqueued ++ [value] }
      | (w, .error _) => { l with writer := w }
  | .send outcome =>
      let sent := l.writer.send outcome
      { l with
        writer := sent.writer
        pipe := l.pipe ++ sent.accepted
        accepted := l.accepted ++ sent.accepted }
  | .receive visible => l.read serde (.data (l.pipe.take visible))
  | .receiveFails e => l.read serde (.failed e)

def run (serde : SerdeJson) (ops : List Op) : Link := ops.foldl (Link.step serde) {}

/-! ## Writing -/

/-- What has been accepted and what is owed are the frames of the enqueued
values, and what is owed lies in the last of them. -/
structure Delivers (serde : SerdeJson) (l : Link) : Prop where
  total : l.accepted ++ l.writer.owed = wire serde l.enqueued
  framed : ∀ v ∈ l.enqueued, (serde.toVec v).length ≤ MAX_FRAME
  inLast : l.writer.owed = [] ∨
    ∃ init last, l.enqueued = init ++ [last] ∧ wire serde init <+: l.accepted

theorem delivers_start (serde : SerdeJson) : Delivers serde {} :=
  ⟨rfl, by simp, Or.inl rfl⟩

theorem delivers_enqueue {serde : SerdeJson} {l : Link} (h : Delivers serde l) (value : Value) :
    Delivers serde (l.step serde (.enqueue value)) := by
  simp only [Link.step]
  rcases Writer.enqueue_cases serde l.writer value with ⟨_, he⟩ | ⟨hp, _, he⟩ | ⟨hp, hlen, he⟩
  · rw [he]
    exact h
  · have howed := (Writer.not_pending_iff _).mp hp
    have ht := h.total
    rw [howed, List.append_nil] at ht
    rw [he]
    exact ⟨by simpa using ht, h.framed, Or.inl rfl⟩
  · have howed := (Writer.not_pending_iff _).mp hp
    have ht := h.total
    rw [howed, List.append_nil] at ht
    rw [he]
    refine ⟨?_, ?_, Or.inr ⟨l.enqueued, value, rfl, ?_⟩⟩
    · simp only [Writer.owed_fresh, wire_append, wire_singleton hlen, ht]
    · intro v hv
      rcases List.mem_append.mp hv with hv | hv
      · exact h.framed v hv
      · rw [List.mem_singleton.mp hv]; exact hlen
    · exact ⟨[], by rw [List.append_nil]; exact ht.symm⟩

theorem delivers_send {serde : SerdeJson} {l : Link} (h : Delivers serde l)
    (outcome : WriteOutcome) : Delivers serde (l.step serde (.send outcome)) := by
  have hs := Writer.send_owed l.writer outcome
  refine ⟨?_, h.framed, ?_⟩
  · simp only [Link.step]
    rw [List.append_assoc, hs]
    exact h.total
  · rcases h.inLast with hnil | ⟨init, last, he, hpre⟩
    · rw [hnil] at hs
      exact Or.inl (List.append_eq_nil_iff.mp hs).2
    · exact Or.inr ⟨init, last, he, hpre.trans (List.prefix_append _ _)⟩

theorem delivers_step {serde : SerdeJson} {l : Link} (h : Delivers serde l) (op : Op) :
    Delivers serde (l.step serde op) := by
  cases op with
  | enqueue value => exact delivers_enqueue h value
  | send outcome => exact delivers_send h outcome
  | receive visible => exact ⟨h.total, h.framed, h.inLast⟩
  | receiveFails e => exact ⟨h.total, h.framed, h.inLast⟩

theorem delivers_foldl {serde : SerdeJson} (ops : List Op) {l : Link} (h : Delivers serde l) :
    Delivers serde (ops.foldl (Link.step serde) l) := by
  induction ops generalizing l with
  | nil => exact h
  | cons op ops ih => exact ih (delivers_step h op)

theorem delivers_run (serde : SerdeJson) (ops : List Op) : Delivers serde (run serde ops) :=
  delivers_foldl ops (delivers_start serde)

/-! ## Reading -/

/-- The received values, what the reader holds, what is in the pipe and what is
owed are the frames of the enqueued values, in order. -/
structure Conveys (serde : SerdeJson) (l : Link) : Prop where
  total : wire serde l.received ++ (l.reader.bytes ++ (l.pipe ++ l.writer.owed)) =
    wire serde l.enqueued
  inOrder : l.received <+: l.enqueued
  within : l.reader.Within

/-- A frame that the reader completes is that of the next enqueued value. -/
theorem next_value {serde : SerdeJson} (hserde : serde.RoundTrips)
    {enqueued received : List Value} {p rest : Bytes}
    (hbound : ∀ v ∈ enqueued, (serde.toVec v).length ≤ MAX_FRAME) (hplain : ∀ v ∈ enqueued, Plain v)
    (hp : Framing.Fits MAX_FRAME p) (hpre : received <+: enqueued)
    (htotal : wire serde received ++ (Framing.frame p ++ rest) = wire serde enqueued) :
    ∃ v more, enqueued = received ++ v :: more ∧ serde.fromSlice p = .ok v ∧
      rest = wire serde more := by
  obtain ⟨tail, rfl⟩ := hpre
  rw [wire_append] at htotal
  have htail := List.append_cancel_left htotal
  have hb : ∀ v ∈ tail, (serde.toVec v).length ≤ MAX_FRAME := fun v hv =>
    hbound v (List.mem_append_right _ hv)
  rw [wire_eq_concat hb] at htail
  have hword : ∀ q ∈ tail.map serde.toVec, q.length < 2 ^ 32 := by
    intro q hq
    obtain ⟨v, hv, rfl⟩ := List.mem_map.mp hq
    exact (hb v hv).trans_lt maxFrame_lt_word
  obtain ⟨ps, hps, hrest⟩ :=
    Framing.frame_append_eq_concat (hp.bounded.trans_lt maxFrame_lt_word) hword htail
  obtain ⟨v, more, rfl, rfl, rfl⟩ := List.map_eq_cons_iff.mp hps
  refine ⟨v, more, rfl, hserde.back v (hplain v (by simp)), ?_⟩
  rw [hrest, wire_eq_concat (fun w hw => hb w (List.mem_cons_of_mem _ hw))]

theorem conveys_read {serde : SerdeJson} (hserde : serde.RoundTrips) {l : Link}
    (hd : Delivers serde l) (hplain : ∀ v ∈ l.enqueued, Plain v) (h : Conveys serde l)
    {outcome : ReadOutcome} (hout : ∀ bytes, outcome = .data bytes → bytes <+: l.pipe) :
    Conveys serde (l.read serde outcome) := by
  have hc := Reader.receive_cases serde h.within outcome
  simp only [Link.read]
  generalize l.reader.receive serde outcome = received at hc
  cases hc with
  | header | retry | fault | closed => exact ⟨by simpa using h.total, h.inOrder, h.within⟩
  | more chunk rest hne hw =>
    obtain ⟨left, hpipe⟩ := (List.prefix_append chunk rest).trans (hout _ rfl)
    have ht := h.total
    rw [← hpipe] at ht
    refine ⟨?_, h.inOrder, hw⟩
    simp only [← hpipe, List.drop_left]
    simpa only [List.append_assoc] using ht
  | value chunk rest p v hne hframe hfits hv =>
    obtain ⟨left, hpipe⟩ := (List.prefix_append chunk rest).trans (hout _ rfl)
    have ht := h.total
    rw [← hpipe, List.append_assoc, ← List.append_assoc l.reader.bytes, hframe] at ht
    obtain ⟨w, more, henq, hw, hleft⟩ := next_value hserde hd.framed hplain hfits h.inOrder ht
    obtain rfl : v = w := Except.ok.inj (hv.symm.trans hw)
    refine ⟨?_, ⟨more, by simp [henq]⟩, Reader.within_empty⟩
    simp only [← hpipe, List.drop_left, List.nil_append, hleft]
    rw [henq, wire_append, wire_append, wire_cons serde v more, List.append_assoc]
  | garbled chunk rest p e hne hframe hfits hv =>
    obtain ⟨left, hpipe⟩ := (List.prefix_append chunk rest).trans (hout _ rfl)
    have ht := h.total
    rw [← hpipe, List.append_assoc, ← List.append_assoc l.reader.bytes, hframe] at ht
    obtain ⟨w, _, _, hw, _⟩ := next_value hserde hd.framed hplain hfits h.inOrder ht
    rw [hv] at hw
    cases hw

theorem conveys_step {serde : SerdeJson} (hserde : serde.RoundTrips) {l : Link}
    (hd : Delivers serde l) (op : Op)
    (hplain : ∀ v ∈ (l.step serde op).enqueued, Plain v) (h : Conveys serde l) :
    Conveys serde (l.step serde op) := by
  cases op with
  | enqueue value =>
    simp only [Link.step] at hplain ⊢
    rcases Writer.enqueue_cases serde l.writer value with ⟨_, he⟩ | ⟨hp, _, he⟩ | ⟨hp, hlen, he⟩
    · rw [he]
      exact ⟨h.total, h.inOrder, h.within⟩
    · have ht := h.total
      rw [(Writer.not_pending_iff _).mp hp] at ht
      rw [he]
      exact ⟨by simpa using ht, h.inOrder, h.within⟩
    · have ht := h.total
      rw [(Writer.not_pending_iff _).mp hp] at ht
      rw [he]
      refine ⟨?_, h.inOrder.trans (List.prefix_append _ _), h.within⟩
      simp only [Writer.owed_fresh, wire_append, wire_singleton hlen, ← ht, List.append_assoc,
        List.append_nil]
  | send outcome =>
    have hs := Writer.send_owed l.writer outcome
    refine ⟨?_, h.inOrder, h.within⟩
    simp only [Link.step]
    rw [List.append_assoc, hs]
    exact h.total
  | receive visible =>
    refine conveys_read hserde hd hplain h ?_
    intro bytes hb
    obtain rfl := ReadOutcome.data.inj hb
    exact List.take_prefix _ _
  | receiveFails e => exact conveys_read hserde hd hplain h (by simp)

theorem enqueued_step (serde : SerdeJson) (l : Link) (op : Op) :
    l.enqueued <+: (l.step serde op).enqueued := by
  cases op with
  | enqueue value =>
    simp only [Link.step]
    split
    · exact List.prefix_append _ _
    · exact List.prefix_rfl
  | send | receive | receiveFails => exact List.prefix_rfl

theorem enqueued_foldl (serde : SerdeJson) (ops : List Op) (l : Link) :
    l.enqueued <+: (ops.foldl (Link.step serde) l).enqueued := by
  induction ops generalizing l with
  | nil => exact List.prefix_rfl
  | cons op ops ih => exact (enqueued_step serde l op).trans (ih _)

theorem conveys_foldl {serde : SerdeJson} (hserde : serde.RoundTrips) (ops : List Op) {l : Link}
    (hd : Delivers serde l) (hplain : ∀ v ∈ (ops.foldl (Link.step serde) l).enqueued, Plain v)
    (h : Conveys serde l) : Conveys serde (ops.foldl (Link.step serde) l) := by
  induction ops generalizing l with
  | nil => exact h
  | cons op ops ih =>
    have hsub := enqueued_foldl serde ops (l.step serde op)
    exact ih (delivers_step hd op) hplain
      (conveys_step hserde hd op (fun v hv => hplain v (hsub.subset hv)) h)

/-- The link is lossless and in order. Under any operations the accepted bytes
are the frames of the enqueued values up to a cut in the last one, `pending` says
whether anything is still owed, and a failed `enqueue` leaves what is owed as it
was. When the enqueued values are ones that parsing gives back, the reader has
received an initial part of them, and all once nothing is left on the way. -/
theorem link_lossless (serde : SerdeJson) (ops : List Op) :
    ((run serde ops).accepted <+: wire serde (run serde ops).enqueued ∧
      (∀ init last, (run serde ops).enqueued = init ++ [last] →
        wire serde init <+: (run serde ops).accepted) ∧
      ((run serde ops).writer.pending = false ↔
        (run serde ops).accepted = wire serde (run serde ops).enqueued) ∧
      (∀ value e, ((run serde ops).writer.enqueue serde value).2 = .error e →
        (run serde (ops ++ [.enqueue value])).accepted = (run serde ops).accepted ∧
        (run serde (ops ++ [.enqueue value])).enqueued = (run serde ops).enqueued ∧
        (run serde (ops ++ [.enqueue value])).writer.owed = (run serde ops).writer.owed)) ∧
    (serde.RoundTrips → (∀ v ∈ (run serde ops).enqueued, Plain v) →
      (run serde ops).received <+: (run serde ops).enqueued ∧
      ((run serde ops).writer.pending = false → (run serde ops).pipe = [] →
        (run serde ops).received = (run serde ops).enqueued)) := by
  have hd := delivers_run serde ops
  refine ⟨⟨⟨_, hd.total⟩, ?_, ?_, ?_⟩, ?_⟩
  · intro init last he
    rcases hd.inLast with hnil | ⟨init', last', he', hpre⟩
    · have ht := hd.total
      rw [hnil, List.append_nil, he, wire_append] at ht
      rw [ht]
      exact List.prefix_append _ _
    · obtain ⟨rfl, _⟩ := List.append_inj' (he.symm.trans he') rfl
      exact hpre
  · rw [Writer.not_pending_iff, ← hd.total]
    constructor
    · intro h
      rw [h, List.append_nil]
    · intro h
      exact (List.append_right_eq_self).mp h.symm
  · intro value e herr
    have hstep : run serde (ops ++ [.enqueue value]) =
        (run serde ops).step serde (.enqueue value) := by
      simp [run]
    rw [hstep]
    simp only [Link.step]
    rcases Writer.enqueue_cases serde (run serde ops).writer value with
      ⟨_, he⟩ | ⟨hp, _, he⟩ | ⟨_, _, he⟩
    · rw [he]
      exact ⟨rfl, rfl, rfl⟩
    · rw [he]
      exact ⟨rfl, rfl, ((Writer.not_pending_iff _).mp hp).symm⟩
    · rw [he] at herr
      cases herr
  · intro hserde hplain
    have hc : Conveys serde (run serde ops) :=
      conveys_foldl hserde ops (delivers_start serde) hplain
        ⟨rfl, List.prefix_rfl, Reader.within_empty⟩
    refine ⟨hc.inOrder, ?_⟩
    intro hp hpipe
    have ht := hc.total
    rw [(Writer.not_pending_iff _).mp hp, hpipe, List.append_nil, List.append_nil] at ht
    obtain ⟨tail, htail⟩ := hc.inOrder
    cases tail with
    | nil => simpa using htail
    | cons v more =>
      -- a whole frame cannot be held by the reader
      rw [← htail, wire_append] at ht
      have hbytes := List.append_cancel_left ht
      have hv := hd.framed v (by rw [← htail]; simp)
      rw [wire_cons, wire_singleton hv] at hbytes
      have hlen := congrArg List.length hbytes
      rw [List.length_append, Framing.length_frame] at hlen
      have hpos : 0 < (serde.toVec v).length := List.length_pos_of_ne_nil (hserde.nonempty v)
      have hw := hc.within (by omega)
      rw [hbytes, Framing.fromBe32_frame (hv.trans_lt maxFrame_lt_word), List.length_append,
        Framing.length_frame] at hw
      omega

/-- Two values, a second `enqueue` that comes too early, and short writes and reads. -/
def sampleOps : List Op :=
  [.enqueue (.bool true), .send (.room 3), .enqueue .null, .send (.room 7), .enqueue .null,
    .receive 2, .receiveFails ⟨.wouldBlock, ""⟩, .receive 9, .receive 9, .send (.room 8),
    .receive 9, .receive 9]

theorem link_lossless_sample : (run SerdeJson.reference sampleOps).enqueued = [.bool true, .null] ∧
    (run SerdeJson.reference sampleOps).received = [.bool true, .null] := by
  have henq : (run SerdeJson.reference sampleOps).enqueued = [.bool true, .null] := by
    decide
  have hplain : ∀ v ∈ (run SerdeJson.reference sampleOps).enqueued, Plain v := by
    rw [henq]
    simp [Plain, Json.Doc.floatFree, Json.Doc.every, Json.Doc.isFloat, Json.Doc.nesting]
  obtain ⟨_, hread⟩ := link_lossless SerdeJson.reference sampleOps
  obtain ⟨_, hall⟩ := hread SerdeJson.reference_roundTrips hplain
  exact ⟨henq, (hall (by decide) (by decide)).trans henq⟩

end RubyEngine.Lossless
