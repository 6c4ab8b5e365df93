import RubyEngine.Bytes

/-!
# Length-prefixed frames

A frame is a four-byte big-endian length and a payload of that many bytes. A
stream of frames reads back in one way only: two streams with a common prefix
agree on the frames that lie in it.
-/
namespace RubyEngine.Framing

def frame (payload : Bytes) : Bytes := be32 payload.length ++ payload

def concat (payloads : List Bytes) : Bytes := payloads.flatMap frame

/-- A payload that a frame may carry under the ceiling `limit`. -/
structure Fits (limit : Nat) (payload : Bytes) : Prop where
  nonempty : 0 < payload.length
  bounded : payload.length ≤ limit

/-- A strict initial part of the frame of an admitted payload. The empty part
is one of them. -/
def Partial (admitted : Bytes → Prop) (tail : Bytes) : Prop :=
  ∃ payload, admitted payload ∧ ∃ rest, rest ≠ [] ∧ tail ++ rest = frame payload

/-- Whole frames of admitted payloads, and then at most the beginning of one more. -/
def Framed (admitted : Bytes → Prop) (stream : Bytes) : Prop :=
  ∃ payloads tail, (∀ p ∈ payloads, admitted p) ∧ stream = concat payloads ++ tail ∧
    (tail = [] ∨ Partial admitted tail)

@[simp] theorem concat_nil : concat [] = [] := rfl

@[simp] theorem concat_cons (p : Bytes) (ps : List Bytes) :
    concat (p :: ps) = frame p ++ concat ps := rfl

@[simp] theorem concat_append (ps qs : List Bytes) :
    concat (ps ++ qs) = concat ps ++ concat qs := List.flatMap_append

@[simp] theorem length_frame (payload : Bytes) : (frame payload).length = payload.length + 4 := by
  simp [frame, Nat.add_comm]

theorem frame_ne_nil (payload : Bytes) : frame payload ≠ [] := by
  intro h
  have hl := congrArg List.length h
  simp at hl

theorem drop_four_frame (payload rest : Bytes) :
    (frame payload ++ rest).drop 4 = payload ++ rest := by
  rw [frame, List.append_assoc]
  exact List.drop_left' rfl

/-- The announced length of a frame. -/
theorem fromBe32_frame {payload : Bytes} (h : payload.length < 2 ^ 32) (rest : Bytes) :
    fromBe32 (frame payload ++ rest) = payload.length := by
  rw [frame, List.append_assoc]
  exact fromBe32_be32 h _

/-- A stream with four header bytes and a complete payload starts with a frame. -/
theorem frame_take {stream : Bytes} {n : Nat} (h : fromBe32 stream = n)
    (hlen : n + 4 ≤ stream.length) :
    frame ((stream.drop 4).take n) ++ stream.drop (n + 4) = stream := by
  have hpay : ((stream.drop 4).take n).length = n := by
    rw [List.length_take, List.length_drop]; omega
  have hhead : be32 n = stream.take 4 := by
    match stream, hlen, h with
    | a :: b :: c :: d :: t, _, h =>
      subst h
      have ha := a.toNat_lt
      have hb := b.toNat_lt
      have hc := c.toNat_lt
      have hd := d.toNat_lt
      simp only [fromBe32, be32, List.take_succ_cons, List.take_zero, List.cons.injEq, and_true]
      refine ⟨?_, ?_, ?_, ?_⟩ <;>
        apply UInt8.toNat_inj.mp <;> rw [UInt8.toNat_ofNat'] <;> omega
    | [], hlen, _ => simp at hlen
    | [_], hlen, _ => simp at hlen
    | [_, _], hlen, _ => simp at hlen
    | [_, _, _], hlen, _ => simp at hlen
  have hdrop : stream.drop (n + 4) = (stream.drop 4).drop n := by
    rw [List.drop_drop, Nat.add_comm]
  rw [frame, hpay, hhead, hdrop, List.append_assoc, List.take_append_drop, List.take_append_drop]

/-- A frame determines its payload and what follows it. -/
theorem frame_append_inj {p q s t : Bytes} (hp : p.length < 2 ^ 32) (hq : q.length < 2 ^ 32)
    (h : frame p ++ s = frame q ++ t) : p = q ∧ s = t := by
  have hlen : p.length = q.length := by
    rw [← fromBe32_frame hp s, h, fromBe32_frame hq t]
  have hdrop := congrArg (List.drop 4) h
  rw [drop_four_frame, drop_four_frame] at hdrop
  exact List.append_inj hdrop hlen

/-- A frame at the front of a stream of frames is the first of them. -/
theorem frame_append_eq_concat {p s : Bytes} {ps : List Bytes} (hp : p.length < 2 ^ 32)
    (hps : ∀ q ∈ ps, q.length < 2 ^ 32) (h : frame p ++ s = concat ps) :
    ∃ rest, ps = p :: rest ∧ s = concat rest := by
  cases ps with
  | nil =>
    have hnil := (List.append_eq_nil_iff.mp h).1
    exact absurd hnil (frame_ne_nil p)
  | cons q rest =>
    obtain ⟨rfl, hrest⟩ := frame_append_inj hp (hps q (by simp)) h
    exact ⟨rest, rfl, hrest⟩

/-- Where the frame after so many others starts, by the lengths they announce. -/
def frameStart : Nat → Bytes → Nat
  | 0, _ => 0
  | k + 1, stream =>
      fromBe32 stream + 4 + frameStart k (stream.drop (fromBe32 stream + 4))

theorem frameStart_concat {ps : List Bytes} (hps : ∀ q ∈ ps, q.length < 2 ^ 32) (rest : Bytes) :
    frameStart ps.length (concat ps ++ rest) = (concat ps).length := by
  induction ps with
  | nil => rfl
  | cons p ps ih =>
    have hsize := fromBe32_frame (hps p (by simp)) (concat ps ++ rest)
    have hdrop : (frame p ++ (concat ps ++ rest)).drop (p.length + 4) = concat ps ++ rest :=
      List.drop_left' (length_frame p)
    rw [concat_cons, List.append_assoc, List.length_cons, frameStart, hsize, hdrop,
      ih (fun q hq => hps q (List.mem_cons_of_mem _ hq)), List.length_append, length_frame]

/-- The start of a frame that has been begun stays where it is. -/
theorem frameStart_append {k : Nat} {stream : Bytes} (h : frameStart k stream < stream.length)
    (more : Bytes) : frameStart k (stream ++ more) = frameStart k stream := by
  induction k generalizing stream with
  | zero => rfl
  | succ k ih =>
    rw [frameStart] at h
    have hsize := fromBe32_append (show 4 ≤ stream.length by omega) more
    have hdrop : (stream ++ more).drop (fromBe32 stream + 4) =
        stream.drop (fromBe32 stream + 4) ++ more :=
      List.drop_append_of_le_length (by omega)
    have hrest : frameStart k (stream.drop (fromBe32 stream + 4)) <
        (stream.drop (fromBe32 stream + 4)).length := by
      rw [List.length_drop]
      omega
    rw [frameStart, frameStart, hsize, hdrop, ih hrest]

/-- Frames followed by a proper part of one more are not frames only. -/
theorem concat_append_take_ne {p : Bytes} {k : Nat} (hp : p.length < 2 ^ 32) (hpos : 0 < k)
    (hk : k < (frame p).length) :
    ∀ (ps qs : List Bytes), (∀ q ∈ ps, q.length < 2 ^ 32) → (∀ q ∈ qs, q.length < 2 ^ 32) →
      concat ps ++ (frame p).take k ≠ concat qs := by
  intro ps
  induction ps with
  | nil =>
    intro qs _ hqs heq
    rw [concat_nil, List.nil_append] at heq
    cases qs with
    | nil =>
      have hlen := congrArg List.length heq
      rw [List.length_take, concat_nil, List.length_nil] at hlen
      omega
    | cons q qs =>
      have hwhole : frame q ++ (concat qs ++ (frame p).drop k) = frame p ++ [] := by
        rw [← List.append_assoc, ← concat_cons, ← heq, List.take_append_drop, List.append_nil]
      obtain ⟨_, hrest⟩ := frame_append_inj (hqs q (by simp)) hp hwhole
      have hlen := congrArg List.length (List.append_eq_nil_iff.mp hrest).2
      rw [List.length_drop, List.length_nil] at hlen
      omega
  | cons q ps ih =>
    intro qs hps hqs heq
    rw [concat_cons, List.append_assoc] at heq
    obtain ⟨rest, rfl, hrest⟩ := frame_append_eq_concat (hps q (by simp)) hqs heq
    exact ih rest (fun x hx => hps x (by simp [hx])) (fun x hx => hqs x (by simp [hx])) hrest

theorem framed_nil (admitted : Bytes → Prop) : Framed admitted [] :=
  ⟨[], [], by simp, rfl, Or.inl rfl⟩

/-- The frames of a list followed by any initial part of one more frame. -/
theorem framed_append_take {admitted : Bytes → Prop} {ps : List Bytes} {p : Bytes}
    (hps : ∀ q ∈ ps, admitted q) (hp : admitted p) (n : Nat) :
    Framed admitted (concat ps ++ (frame p).take n) := by
  by_cases hn : (frame p).length ≤ n
  · refine ⟨ps ++ [p], [], ?_, ?_, Or.inl rfl⟩
    · intro q hq
      rcases List.mem_append.mp hq with h | h
      · exact hps q h
      · rw [List.mem_singleton.mp h]; exact hp
    · simp [List.take_of_length_le hn]
  · refine ⟨ps, (frame p).take n, hps, rfl, Or.inr ⟨p, hp, (frame p).drop n, ?_, ?_⟩⟩
    · intro h
      have hl := congrArg List.length h
      rw [List.length_drop] at hl
      simp only [List.length_nil] at hl
      omega
    · exact List.take_append_drop _ _

/-! ## A stream that is cut -/

section Cut

variable {limit : Nat} {ps : List Bytes} {tail : Bytes}

/-- Frames and a part of one more begin with the frame of an admitted payload. -/
theorem cut_head (hps : ∀ q ∈ ps, Fits limit q) (htail : Partial (Fits limit) tail) :
    ∃ q more rest, Fits limit q ∧ concat ps ++ tail ++ rest = frame q ++ more ∧
      (ps = [] → rest ≠ [] ∧ more = []) ∧ (∀ p ps', ps = p :: ps' → q = p) := by
  obtain ⟨payload, hfits, rest, hne, hframe⟩ := htail
  cases ps with
  | nil =>
    refine ⟨payload, [], rest, hfits, ?_, fun _ => ⟨hne, rfl⟩, nofun⟩
    rw [concat_nil, List.nil_append, hframe, List.append_nil]
  | cons p ps =>
    refine ⟨p, concat ps ++ tail ++ rest, rest, hps p (by simp), ?_, nofun, ?_⟩
    · simp only [concat_cons, List.append_assoc]
    · intro p' ps' h
      cases h
      rfl

/-- A whole frame there is the first one. -/
theorem cut_frame (hlimit : limit < 2 ^ 32) (hps : ∀ q ∈ ps, Fits limit q)
    (htail : Partial (Fits limit) tail) {p : Bytes} (hp : Fits limit p)
    (h : frame p <+: concat ps ++ tail) : ∃ rest, ps = p :: rest := by
  obtain ⟨q, more, rest, hq, heq, hnil, hcons⟩ := cut_head hps htail
  obtain ⟨after, hafter⟩ := h
  rw [← hafter, List.append_assoc] at heq
  obtain ⟨hpq, hmore⟩ := frame_append_inj (hp.bounded.trans_lt hlimit) (hq.bounded.trans_lt hlimit)
    heq
  cases ps with
  | nil =>
    obtain ⟨hne, rfl⟩ := hnil rfl
    exact absurd (List.append_eq_nil_iff.mp hmore).2 hne
  | cons p' ps' =>
    obtain rfl := hcons p' ps' rfl
    exact ⟨ps', by rw [hpq]⟩

/-- What a reader of whole frames has read, and what it holds of the next one. -/
theorem cut_concat (hlimit : limit < 2 ^ 32) {qs : List Bytes} {bytes : Bytes}
    (hqs : ∀ q ∈ qs, Fits limit q) (hps : ∀ q ∈ ps, Fits limit q)
    (htail : Partial (Fits limit) tail) (h : concat qs ++ bytes <+: concat ps ++ tail) :
    ∃ rest, ps = qs ++ rest ∧ bytes <+: concat rest ++ tail := by
  induction qs generalizing ps with
  | nil => exact ⟨ps, rfl, by simpa using h⟩
  | cons q qs ih =>
    rw [concat_cons, List.append_assoc] at h
    obtain ⟨rest, rfl⟩ := cut_frame hlimit hps htail (hqs q (by simp))
      ((List.prefix_append _ _).trans h)
    rw [concat_cons, List.append_assoc, List.prefix_append_right_inj] at h
    obtain ⟨rest', rfl, hbytes⟩ := ih (fun x hx => hqs x (List.mem_cons_of_mem _ hx))
      (fun x hx => hps x (List.mem_cons_of_mem _ hx)) h
    exact ⟨rest', rfl, hbytes⟩

/-- A header there announces an admitted payload. -/
theorem cut_announces (hlimit : limit < 2 ^ 32) (hps : ∀ q ∈ ps, Fits limit q)
    (htail : Partial (Fits limit) tail) {bytes : Bytes} (h : bytes <+: concat ps ++ tail)
    (h4 : 4 ≤ bytes.length) :
    ∃ q, Fits limit q ∧ fromBe32 bytes = q.length := by
  obtain ⟨q, more, rest, hq, heq, _⟩ := cut_head hps htail
  obtain ⟨after, hafter⟩ := h
  refine ⟨q, hq, ?_⟩
  rw [← hafter, List.append_assoc] at heq
  rw [← fromBe32_append h4 (after ++ rest), heq,
    fromBe32_frame (hq.bounded.trans_lt hlimit)]

end Cut

/-! ## Any bytes -/

/-- The payloads of the first whole frames of some bytes, up to the first length that is out of
range. -/
def payloads (limit : Nat) : Nat → Bytes → List Bytes
  | 0, _ => []
  | n + 1, stream =>
      let size := fromBe32 stream
      if 0 < size ∧ size ≤ limit ∧ size + 4 ≤ stream.length then
        (stream.drop 4).take size :: payloads limit n (stream.drop (size + 4))
      else []

def wholes (limit : Nat) (stream : Bytes) : List Bytes := payloads limit stream.length stream

/-- There are no more frames than bytes. -/
theorem payloads_enough (limit : Nat) {n m : Nat} {stream : Bytes} (hn : stream.length ≤ n)
    (hm : stream.length ≤ m) : payloads limit n stream = payloads limit m stream := by
  induction n generalizing m stream with
  | zero =>
    cases m with
    | zero => rfl
    | succ m =>
      rw [payloads, payloads, if_neg]
      omega
  | succ n ih =>
    cases m with
    | zero =>
      rw [payloads, payloads, if_neg]
      omega
    | succ m =>
      rw [payloads, payloads]
      have hrest : (stream.drop (fromBe32 stream + 4)).length ≤ n ∧
          (stream.drop (fromBe32 stream + 4)).length ≤ m := by
        rw [List.length_drop]
        omega
      rw [ih hrest.1 hrest.2]

theorem wholes_frame {limit : Nat} (hlimit : limit < 2 ^ 32) {p : Bytes} (hp : Fits limit p)
    (rest : Bytes) : wholes limit (frame p ++ rest) = p :: wholes limit rest := by
  have hsize := fromBe32_frame (hp.bounded.trans_lt hlimit) rest
  have hlength : (frame p ++ rest).length = p.length + rest.length + 3 + 1 := by
    rw [List.length_append, length_frame]
    omega
  have hdrop : (frame p ++ rest).drop (p.length + 4) = rest := List.drop_left' (length_frame p)
  have hfits : 0 < p.length ∧ p.length ≤ limit ∧ p.length + 4 ≤ (frame p ++ rest).length := by
    refine ⟨hp.nonempty, hp.bounded, ?_⟩
    rw [hlength]
    omega
  rw [wholes, hlength, payloads, hsize, if_pos hfits, drop_four_frame, List.take_left, hdrop]
  exact congrArg (p :: ·) (payloads_enough limit (by omega) (Nat.le_refl _))

theorem wholes_concat {limit : Nat} (hlimit : limit < 2 ^ 32) {ps : List Bytes}
    (hps : ∀ p ∈ ps, Fits limit p) (rest : Bytes) :
    wholes limit (concat ps ++ rest) = ps ++ wholes limit rest := by
  induction ps with
  | nil => rfl
  | cons p ps ih =>
    rw [concat_cons, List.append_assoc, wholes_frame hlimit (hps p (List.mem_cons_self ..)),
      ih fun q hq => hps q (List.mem_cons_of_mem _ hq), List.cons_append]

/-- Bytes that no whole frame begins. -/
theorem wholes_eq_nil {limit : Nat} {stream : Bytes}
    (h : ¬ (0 < fromBe32 stream ∧ fromBe32 stream ≤ limit ∧ fromBe32 stream + 4 ≤ stream.length)) :
    wholes limit stream = [] := by
  unfold wholes
  cases stream.length with
  | zero => rfl
  | succ n => rw [payloads, if_neg h]

end RubyEngine.Framing
