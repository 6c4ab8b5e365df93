import RubyEngine.Framing
import RubyEngine.Protocol

/-!
# The nonblocking pipes of the supervisor

`Reader` and `Writer` as the supervisor owns them. Each of `receive` and `send`
makes at most one system call; what the kernel answers is an argument. A read
finds some bytes in the descriptor, none of them at end of file, and takes no
more than it asked for. A write finds room for some number of bytes.
-/
namespace RubyEngine

open Json (Value)

/-- What the kernel has for a `read`: the bytes waiting, or an error. -/
inductive ReadOutcome where
  | data (waiting : Bytes)
  | failed (e : IoError)
  deriving DecidableEq

/-- What the kernel has for a `write`: room for so many bytes, or an error. -/
inductive WriteOutcome where
  | room (n : Nat)
  | failed (e : IoError)
  deriving DecidableEq

/-- The two error kinds that only ask for another try. -/
def IoError.transient (e : IoError) : Bool :=
  e.kind = .wouldBlock || e.kind = .interrupted

/-- The size of the buffer of one read, and the most that one write offers. -/
def CHUNK : Nat := 65536

/-! ## Reader -/

structure Reader where
  bytes : Bytes := []
  deriving DecidableEq

/-- The length of buffer that the next read works towards. -/
def Reader.target (r : Reader) : Except IoError Nat :=
  if r.bytes.length < 4 then .ok 4
  else
    let length := fromBe32 (r.bytes.take 4)
    if length = 0 ∨ MAX_FRAME < length then .error (IoError.other "Frame size limit")
    else .ok (length + 4)

def disconnected : IoError := ⟨.unexpectedEof, "Peer disconnected"⟩

/-- A reader after `receive`, the bytes it took from the descriptor, and its result. -/
structure Received where
  reader : Reader
  consumed : Bytes
  result : Except IoError (Option Value)

/-- Read at most one bounded chunk, never ahead into the next frame. -/
def Reader.receive (serde : SerdeJson) (r : Reader) (outcome : ReadOutcome) : Received :=
  match r.target with
  | .error e => ⟨r, [], .error e⟩
  | .ok target =>
      let count := min (target - r.bytes.length) CHUNK
      match outcome with
      | .failed e => ⟨r, [], if e.transient then .ok none else .error e⟩
      | .data waiting =>
          let chunk := waiting.take count
          if chunk = [] then ⟨r, [], .error disconnected⟩
          else
            let bytes := r.bytes ++ chunk
            if 4 < target ∧ bytes.length = target then
              match serde.fromSlice (bytes.drop 4) with
              | .ok value => ⟨{}, chunk, .ok (some value)⟩
              | .error e => ⟨⟨bytes⟩, chunk, .error e.toIo⟩
            else ⟨⟨bytes⟩, chunk, .ok none⟩

/-! ## Writer -/

theorem inside_nothing : 0 ≤ ([] : Bytes).length := Nat.zero_le _

theorem inside_start (bytes : Bytes) : 0 ≤ bytes.length := Nat.zero_le _

structure Writer where
  bytes : Bytes := []
  offset : Nat := 0
  inside : offset ≤ bytes.length := by first | exact inside_nothing | exact inside_start _
  deriving DecidableEq

def Writer.pending (w : Writer) : Bool := decide (w.offset < w.bytes.length)

/-- The bytes still to be delivered. -/
def Writer.owed (w : Writer) : Bytes := w.bytes.drop w.offset

def backpressure : IoError := IoError.other "Protocol producer exceeded backpressure"

/-- A producer must wait for the previous frame to drain. -/
def Writer.enqueue (serde : SerdeJson) (w : Writer) (value : Value) : Writer × Except IoError Unit :=
  if w.pending then (w, .error backpressure)
  else
    match writeFrame serde value with
    | .error e => ({}, .error e)
    | .ok bytes => ({ bytes }, .ok ())

def stoppedAccepting : IoError := ⟨.writeZero, "Peer stopped accepting data"⟩

/-- A writer after `send`, the bytes the descriptor accepted, and the result. -/
structure Sent where
  writer : Writer
  accepted : Bytes
  result : Except IoError Unit

def Writer.send (w : Writer) (outcome : WriteOutcome) : Sent :=
  if w.pending then
    match outcome with
    | .failed e => ⟨w, [], if e.transient then .ok () else .error e⟩
    | .room n =>
        let sent := min n (min w.owed.length CHUNK)
        if sent = 0 then ⟨w, [], .error stoppedAccepting⟩
        else
          ⟨{ bytes := w.bytes
             offset := w.offset + sent
             inside := by
               have h := w.inside
               have hs : sent ≤ w.bytes.length - w.offset := by
                 simp only [sent, Writer.owed, List.length_drop]; omega
               omega },
            w.owed.take sent, .ok ()⟩
  else ⟨w, [], .ok ()⟩

/-! ## What one call does to the buffers -/

theorem Writer.pending_iff (w : Writer) : w.pending = true ↔ w.owed ≠ [] := by
  rw [Writer.pending, decide_eq_true_eq, Writer.owed, ne_eq, List.drop_eq_nil_iff, Nat.not_le]

theorem Writer.not_pending_iff (w : Writer) : w.pending = false ↔ w.owed = [] := by
  rw [← Bool.not_eq_true, Writer.pending_iff, not_not]

@[simp] theorem Writer.owed_empty : (({} : Writer)).owed = [] := rfl

@[simp] theorem Writer.owed_fresh (bytes : Bytes) : (({ bytes } : Writer)).owed = bytes := rfl

/-- What `enqueue` can do. A failure leaves nothing that was not owed before. -/
theorem Writer.enqueue_cases (serde : SerdeJson) (w : Writer) (value : Value) :
    (w.pending = true ∧ w.enqueue serde value = (w, .error backpressure)) ∨
    (w.pending = false ∧ MAX_FRAME < (serde.toVec value).length ∧
      w.enqueue serde value = ({}, .error sizeLimit)) ∨
    (w.pending = false ∧ (serde.toVec value).length ≤ MAX_FRAME ∧
      w.enqueue serde value = ({ bytes := Framing.frame (serde.toVec value) }, .ok ())) := by
  unfold Writer.enqueue
  cases hp : w.pending with
  | true => exact Or.inl ⟨rfl, by simp⟩
  | false =>
    by_cases hlen : MAX_FRAME < (serde.toVec value).length
    · exact Or.inr (Or.inl ⟨rfl, hlen, by simp [writeFrame, hlen]⟩)
    · exact Or.inr (Or.inr ⟨rfl, Nat.not_lt.mp hlen, by
        simp [writeFrame, hlen, Framing.frame]⟩)

/-- Between two calls a reader holds a strict part of one frame, or the four bytes
of a header that the next call will refuse. -/
def Reader.Within (r : Reader) : Prop :=
  4 < r.bytes.length → 0 < fromBe32 r.bytes ∧ fromBe32 r.bytes ≤ MAX_FRAME ∧
    r.bytes.length < fromBe32 r.bytes + 4

theorem Reader.within_empty : (({} : Reader)).Within := by
  intro h
  simp at h

/-- Everything that one `receive` can do. -/
inductive Reader.Receives (serde : SerdeJson) (r : Reader) : ReadOutcome → Received → Prop where
  | header (outcome : ReadOutcome) : r.bytes.length = 4 →
      (fromBe32 r.bytes = 0 ∨ MAX_FRAME < fromBe32 r.bytes) →
      Receives serde r outcome ⟨r, [], .error (IoError.other "Frame size limit")⟩
  | retry (e : IoError) : e.transient = true → Receives serde r (.failed e) ⟨r, [], .ok none⟩
  | fault (e : IoError) : e.transient = false → Receives serde r (.failed e) ⟨r, [], .error e⟩
  | closed : Receives serde r (.data []) ⟨r, [], .error disconnected⟩
  | more (chunk rest : Bytes) : chunk ≠ [] → Reader.Within ⟨r.bytes ++ chunk⟩ →
      Receives serde r (.data (chunk ++ rest)) ⟨⟨r.bytes ++ chunk⟩, chunk, .ok none⟩
  | value (chunk rest p : Bytes) (v : Value) : chunk ≠ [] → r.bytes ++ chunk = Framing.frame p →
      Framing.Fits MAX_FRAME p → serde.fromSlice p = .ok v →
      Receives serde r (.data (chunk ++ rest)) ⟨{}, chunk, .ok (some v)⟩
  | garbled (chunk rest p : Bytes) (e : JsonError) : chunk ≠ [] →
      r.bytes ++ chunk = Framing.frame p → Framing.Fits MAX_FRAME p →
      serde.fromSlice p = .error e →
      Receives serde r (.data (chunk ++ rest)) ⟨⟨Framing.frame p⟩, chunk, .error e.toIo⟩

/-- Below its target a reader asks for at least one byte, and never for more than
one frame can hold. -/
theorem Reader.target_bounds {r : Reader} (h : r.Within) {target : Nat}
    (ht : r.target = .ok target) :
    r.bytes.length < target ∧ target ≤ MAX_FRAME + 4 ∧ 4 ≤ target ∧
      (4 < target → 4 ≤ r.bytes.length ∧ target = fromBe32 r.bytes + 4 ∧
        0 < fromBe32 r.bytes ∧ fromBe32 r.bytes ≤ MAX_FRAME) := by
  unfold Reader.target at ht
  rw [fromBe32_take] at ht
  split at ht
  · next hlt =>
    obtain rfl := Except.ok.inj ht
    exact ⟨hlt, by omega, Nat.le_refl _, by omega⟩
  · next hge =>
    dsimp only at ht
    split at ht
    · cases ht
    · next hgood =>
      obtain rfl := Except.ok.inj ht
      have hpos : 0 < fromBe32 r.bytes := by omega
      have hmax : fromBe32 r.bytes ≤ MAX_FRAME := by omega
      refine ⟨?_, by omega, by omega, fun _ => ⟨by omega, rfl, hpos, hmax⟩⟩
      by_cases h4 : 4 < r.bytes.length
      · exact (h h4).2.2
      · omega

theorem Reader.target_error {r : Reader} (h : r.Within) {e : IoError} (ht : r.target = .error e) :
    r.bytes.length = 4 ∧ (fromBe32 r.bytes = 0 ∨ MAX_FRAME < fromBe32 r.bytes) ∧
      e = IoError.other "Frame size limit" := by
  unfold Reader.target at ht
  rw [fromBe32_take] at ht
  split at ht
  · cases ht
  · next hge =>
    dsimp only at ht
    split at ht
    · next hbad =>
      refine ⟨?_, hbad, (Except.error.inj ht).symm⟩
      by_contra hne
      have hw := h (by omega)
      omega
    · cases ht

theorem Reader.receive_cases (serde : SerdeJson) {r : Reader} (h : r.Within)
    (outcome : ReadOutcome) : Reader.Receives serde r outcome (r.receive serde outcome) := by
  unfold Reader.receive
  cases ht : r.target with
  | error e =>
    obtain ⟨hlen, hbad, rfl⟩ := Reader.target_error h ht
    exact .header outcome hlen hbad
  | ok target =>
    obtain ⟨hlt, hmax, hmin, hbig⟩ := Reader.target_bounds h ht
    cases outcome with
    | failed e =>
      dsimp only
      split
      · next he => exact .retry e he
      · next he => exact .fault e (Bool.eq_false_of_not_eq_true he)
    | data waiting =>
      dsimp only
      have hcount : 0 < min (target - r.bytes.length) CHUNK := by
        have : 0 < CHUNK := by decide
        omega
      cases waiting with
      | nil => simpa using Reader.Receives.closed
      | cons b tail =>
        -- the first byte is always taken
        generalize hc : List.take (min (target - r.bytes.length) CHUNK) (b :: tail) = chunk
        have hsplit : b :: tail = chunk ++ (b :: tail).drop (min (target - r.bytes.length) CHUNK) := by
          rw [← hc, List.take_append_drop]
        have hne : chunk ≠ [] := by
          intro hnil
          rw [hnil, List.take_eq_nil_iff] at hc
          rcases hc with h0 | h0
          · omega
          · cases h0
        have hchunk : chunk.length ≤ target - r.bytes.length := by
          rw [← hc, List.length_take]; omega
        rw [if_neg hne, hsplit]
        have hlen : (r.bytes ++ chunk).length = r.bytes.length + chunk.length := List.length_append
        split
        · next hdone =>
          obtain ⟨h4, htarget, hpos, hbound⟩ := hbig hdone.1
          have hsize : fromBe32 (r.bytes ++ chunk) = fromBe32 r.bytes := fromBe32_append h4 chunk
          have hfull : fromBe32 (r.bytes ++ chunk) + 4 ≤ (r.bytes ++ chunk).length := by
            rw [hsize, hdone.2]; omega
          have hframe := Framing.frame_take rfl hfull
          have hrest : (r.bytes ++ chunk).drop (fromBe32 (r.bytes ++ chunk) + 4) = [] := by
            rw [List.drop_eq_nil_iff, hsize, hdone.2]; omega
          have hpay : ((r.bytes ++ chunk).drop 4).take (fromBe32 (r.bytes ++ chunk)) =
              (r.bytes ++ chunk).drop 4 := by
            rw [List.take_of_length_le]
            rw [List.length_drop, hsize, hdone.2]; omega
          rw [hrest, List.append_nil, hpay] at hframe
          have hfits : Framing.Fits MAX_FRAME ((r.bytes ++ chunk).drop 4) := by
            constructor <;> rw [List.length_drop, hdone.2] <;> omega
          cases hs : serde.fromSlice ((r.bytes ++ chunk).drop 4) with
          | ok v => exact .value chunk _ _ v hne hframe.symm hfits hs
          | error e =>
            have hg := Reader.Receives.garbled chunk
              ((b :: tail).drop (min (target - r.bytes.length) CHUNK)) _ e hne hframe.symm hfits hs
            rwa [hframe] at hg
        · next hmore =>
          refine .more chunk _ hne ?_
          intro h4
          dsimp only at h4 ⊢
          rw [hlen] at h4
          by_cases hhead : 4 ≤ r.bytes.length
          · have hsize : fromBe32 (r.bytes ++ chunk) = fromBe32 r.bytes := fromBe32_append hhead chunk
            have hbigger : 4 < target := by
              by_contra hle
              omega
            obtain ⟨_, htarget, hpos, hbound⟩ := hbig hbigger
            rw [hsize, hlen]
            refine ⟨hpos, hbound, ?_⟩
            have hne' : (r.bytes ++ chunk).length ≠ target := fun heq => hmore ⟨hbigger, heq⟩
            omega
          · have hnot : ¬ 4 < target := fun hb => hhead (hbig hb).1
            omega

theorem Reader.within_receive (serde : SerdeJson) {r : Reader} (h : r.Within)
    {outcome : ReadOutcome} {out : Option Value}
    (hr : (r.receive serde outcome).result = .ok out) :
    (r.receive serde outcome).reader.Within := by
  have hc := Reader.receive_cases serde h outcome
  generalize r.receive serde outcome = received at hc hr
  cases hc with
  | header | fault | closed | garbled => cases hr
  | retry => exact h
  | more chunk rest _ hw => exact hw
  | value => exact Reader.within_empty

/-- A send moves bytes from what is owed to what is accepted. -/
theorem Writer.send_owed (w : Writer) (outcome : WriteOutcome) :
    (w.send outcome).accepted ++ (w.send outcome).writer.owed = w.owed := by
  unfold Writer.send
  split
  · cases outcome with
    | failed e => rfl
    | room n =>
      dsimp only
      split
      · rfl
      · simp only [Writer.owed, ← List.drop_drop]
        exact List.take_append_drop _ _
  · rfl

theorem Writer.send_bytes (w : Writer) (outcome : WriteOutcome) :
    (w.send outcome).writer.bytes = w.bytes := by
  unfold Writer.send
  split
  · cases outcome with
    | failed e => rfl
    | room n => dsimp only; split <;> rfl
  · rfl

theorem Writer.send_of_not_pending {w : Writer} (h : w.pending = false) (outcome : WriteOutcome) :
    w.send outcome = ⟨w, [], .ok ()⟩ := by
  simp [Writer.send, h]

/-- A failed send delivers nothing. -/
theorem Writer.send_error {w : Writer} {outcome : WriteOutcome} {e : IoError}
    (h : (w.send outcome).result = .error e) :
    (w.send outcome).writer = w ∧ (w.send outcome).accepted = [] := by
  unfold Writer.send at h ⊢
  split at h
  · next hp =>
    cases outcome with
    | failed e' => simp [hp]
    | room n =>
      dsimp only at h ⊢
      split at h
      · next hz => simp [hp, hz]
      · cases h
  · cases h

/-! ## Streams of frames -/

theorem readFrame_frame (serde : SerdeJson) {p : Bytes} (hp : Framing.Fits MAX_FRAME p)
    (rest : Bytes) :
    readFrame serde (Framing.frame p ++ rest) =
      match serde.fromSlice p with
      | .ok v => .ok (v, rest)
      | .error e => .error ⟨.invalidData, e.message⟩ := by
  have hword : p.length < 2 ^ 32 := hp.bounded.trans_lt maxFrame_lt_word
  have hsize : fromBe32 ((Framing.frame p ++ rest).take 4) = p.length := by
    rw [fromBe32_take, Framing.fromBe32_frame hword]
  have hpos := hp.nonempty
  have hbound := hp.bounded
  have hheader : ¬ (Framing.frame p ++ rest).length < 4 := by
    rw [List.length_append, Framing.length_frame]
    omega
  have hlimit : ¬ (p.length = 0 ∨ MAX_FRAME < p.length) := by omega
  have hpayload : ¬ (p ++ rest).length < p.length := by
    rw [List.length_append]
    omega
  cases hs : serde.fromSlice p with
  | ok v | error e =>
    simp only [readFrame, hsize, Framing.drop_four_frame, List.take_left, List.drop_left, hs,
      if_neg hheader, if_neg hlimit, if_neg hpayload]

/-- The concatenation of `write_frame` over a list of values. -/
def wire (serde : SerdeJson) (values : List Value) : Bytes :=
  values.flatMap (fun v => ((writeFrame serde v).toOption).getD [])

@[simp] theorem wire_nil (serde : SerdeJson) : wire serde [] = [] := rfl

@[simp] theorem wire_append (serde : SerdeJson) (vs ws : List Value) :
    wire serde (vs ++ ws) = wire serde vs ++ wire serde ws := List.flatMap_append

theorem wire_cons (serde : SerdeJson) (v : Value) (vs : List Value) :
    wire serde (v :: vs) = wire serde [v] ++ wire serde vs := by
  rw [← List.singleton_append, wire_append]

theorem wire_singleton {serde : SerdeJson} {v : Value} (h : (serde.toVec v).length ≤ MAX_FRAME) :
    wire serde [v] = Framing.frame (serde.toVec v) := by
  simp [wire, writeFrame, Nat.not_lt.mpr h, Except.toOption, Framing.frame]

theorem wire_eq_concat {serde : SerdeJson} {vs : List Value}
    (h : ∀ v ∈ vs, (serde.toVec v).length ≤ MAX_FRAME) :
    wire serde vs = Framing.concat (vs.map serde.toVec) := by
  induction vs with
  | nil => rfl
  | cons v vs ih =>
    have hv := wire_singleton (h v (by simp))
    have hvs := ih (fun w hw => h w (List.mem_cons_of_mem _ hw))
    rw [wire_cons, hv, hvs]
    rfl

end RubyEngine
