import RubyEngine.Transport

/-!
# The nonblocking reader decodes what the blocking one decodes

A stream that ends is read in turns. In each turn the kernel shows some of the
bytes that are left, or asks for another try. `receiveUntil` calls `receive` turn
after turn until it returns a value or an error. Whatever the turns are, the
outcome is that of `readFrame` on the whole stream, and a value leaves exactly
the bytes behind its frame unread.
-/
namespace RubyEngine.ReaderRefinement

open Json (Value)

/-- A turn shows one byte and up to `more` further ones, or fails for now. -/
inductive Turn where
  | ready (more : Nat)
  | wouldBlock
  | interrupted
  deriving DecidableEq

def Turn.productive : Turn → Bool
  | .ready _ => true
  | _ => false

def Turn.outcome (stream : Bytes) : Turn → ReadOutcome
  | .ready more => .data (stream.take (more + 1))
  | .wouldBlock => .failed ⟨.wouldBlock, "Resource temporarily unavailable"⟩
  | .interrupted => .failed ⟨.interrupted, "Interrupted system call"⟩

structure Finished where
  result : Except IoError Value
  reader : Reader
  unread : Bytes

/-- Call `receive` until it returns a value or an error, or the turns are used up. -/
def receiveUntil (serde : SerdeJson) (r : Reader) (stream : Bytes) : List Turn → Option Finished
  | [] => none
  | turn :: turns =>
      let received := r.receive serde (turn.outcome stream)
      let unread := stream.drop received.consumed.length
      match received.result with
      | .error e => some ⟨.error e, received.reader, unread⟩
      | .ok (some v) => some ⟨.ok v, received.reader, unread⟩
      | .ok none => receiveUntil serde received.reader unread turns

/-- The readers on which these calls are made, the last one included. -/
def calls (serde : SerdeJson) (r : Reader) (stream : Bytes) : List Turn → List Reader
  | [] => []
  | turn :: turns =>
      let received := r.receive serde (turn.outcome stream)
      match received.result with
      | .ok none =>
          r :: calls serde received.reader (stream.drop received.consumed.length) turns
      | _ => [r]

/-- The decoder of the whole stream refuses a header that the reader refuses. -/
theorem readFrame_header (serde : SerdeJson) {bytes stream : Bytes} (hlen : bytes.length = 4)
    (hbad : fromBe32 bytes = 0 ∨ MAX_FRAME < fromBe32 bytes) :
    readFrame serde (bytes ++ stream) = .error sizeLimit := by
  have hsize : fromBe32 ((bytes ++ stream).take 4) = fromBe32 bytes := by
    rw [fromBe32_take, fromBe32_append (by omega)]
  rw [readFrame, if_neg (by rw [List.length_append]; omega)]
  dsimp only
  rw [hsize, if_pos hbad]

theorem readFrame_short (serde : SerdeJson) {r : Reader} (h : r.Within) :
    ∃ e, readFrame serde r.bytes = .error e := by
  rw [readFrame]
  split
  · exact ⟨_, rfl⟩
  · next hge =>
    dsimp only
    rw [fromBe32_take]
    split
    · exact ⟨_, rfl⟩
    · next hgood =>
      rw [if_pos]
      · exact ⟨_, rfl⟩
      · rw [List.length_drop]
        by_cases h4 : 4 < r.bytes.length
        · have hw := h h4; omega
        · omega

/-- What is held and what is unread, together, decode to the result. -/
theorem receiveUntil_sound (serde : SerdeJson) (turns : List Turn) :
    ∀ (r : Reader) (stream : Bytes), r.Within → ∀ {f : Finished},
      receiveUntil serde r stream turns = some f →
      (∀ v, f.result = .ok v →
        f.reader = {} ∧ readFrame serde (r.bytes ++ stream) = .ok (v, f.unread)) ∧
      (∀ e, f.result = .error e → ∃ e', readFrame serde (r.bytes ++ stream) = .error e') := by
  induction turns with
  | nil => intro r stream _ f hf; cases hf
  | cons turn turns ih =>
    intro r stream hr f hf
    have hc := Reader.receive_cases serde hr (turn.outcome stream)
    have hshow : ∀ {chunk rest : Bytes}, turn.outcome stream = .data (chunk ++ rest) →
        stream = chunk ++ stream.drop chunk.length := by
      intro chunk rest heq
      cases turn with
      | ready more =>
        have htake : stream.take (more + 1) = chunk ++ rest := ReadOutcome.data.inj heq
        have hpre : chunk <+: stream :=
          (List.prefix_append chunk rest).trans (htake ▸ List.take_prefix _ _)
        obtain ⟨tail, rfl⟩ := hpre
        simp
      | wouldBlock | interrupted => cases heq
    simp only [receiveUntil] at hf
    generalize hrec : r.receive serde (turn.outcome stream) = received at hc hf
    generalize hout : turn.outcome stream = outcome at hc hshow
    cases hc with
    | header _ hlen hbad =>
      obtain rfl := Option.some.inj hf
      refine ⟨nofun, ?_⟩
      intro e he
      exact ⟨_, readFrame_header serde hlen hbad⟩
    | retry e he => exact ih r stream hr (by simpa using hf)
    | fault e he =>
      cases turn with
      | ready more => cases hout
      | wouldBlock | interrupted =>
        obtain rfl := ReadOutcome.failed.inj hout
        cases he
    | closed =>
      obtain rfl := Option.some.inj hf
      refine ⟨nofun, ?_⟩
      intro e he
      have hnil : stream = [] := by
        cases turn with
        | ready more =>
          have htake : stream.take (more + 1) = [] := ReadOutcome.data.inj hout
          simpa using htake
        | wouldBlock | interrupted => cases hout
      rw [hnil, List.append_nil]
      exact readFrame_short serde hr
    | more chunk rest hne hw =>
      have hs := hshow rfl
      have hgo := ih ⟨r.bytes ++ chunk⟩ (stream.drop chunk.length) hw hf
      rw [List.append_assoc, ← hs] at hgo
      exact hgo
    | value chunk rest p v hne hframe hfits hv =>
      have hs := hshow rfl
      obtain rfl := Option.some.inj hf
      have hread := readFrame_frame serde hfits (stream.drop chunk.length)
      rw [hv, ← hframe, List.append_assoc, ← hs] at hread
      refine ⟨?_, nofun⟩
      intro w hw
      obtain rfl := Except.ok.inj hw
      exact ⟨rfl, hread⟩
    | garbled chunk rest p e hne hframe hfits hv =>
      have hs := hshow rfl
      obtain rfl := Option.some.inj hf
      have hread := readFrame_frame serde hfits (stream.drop chunk.length)
      rw [hv, ← hframe, List.append_assoc, ← hs] at hread
      exact ⟨nofun, fun _ _ => ⟨_, hread⟩⟩

/-- Every productive turn takes a byte or ends the reading. -/
theorem receiveUntil_progress (serde : SerdeJson) (turns : List Turn) :
    ∀ (r : Reader) (stream : Bytes), r.Within →
      stream.length < (turns.filter Turn.productive).length →
      (receiveUntil serde r stream turns).isSome = true := by
  induction turns with
  | nil => intro r stream _ h; simp at h
  | cons turn turns ih =>
    intro r stream hr h
    have hc := Reader.receive_cases serde hr (turn.outcome stream)
    simp only [receiveUntil]
    generalize r.receive serde (turn.outcome stream) = received at hc
    generalize hout : turn.outcome stream = outcome at hc
    cases hc with
    | header | fault | closed | value | garbled => rfl
    | retry e he =>
      have hturn : turn.productive = false := by
        cases turn with
        | ready more => cases hout
        | wouldBlock | interrupted => rfl
      rw [List.filter_cons_of_neg (by simp [hturn])] at h
      simpa using ih r stream hr h
    | more chunk rest hne hw =>
      refine ih _ _ hw ?_
      have hfilter : (List.filter Turn.productive (turn :: turns)).length ≤
          (List.filter Turn.productive turns).length + 1 := by
        rw [List.filter_cons]; split <;> simp
      have hpos : 0 < chunk.length := List.length_pos_of_ne_nil hne
      have hle : chunk.length ≤ stream.length := by
        cases turn with
        | ready more =>
          have htake : stream.take (more + 1) = chunk ++ rest := ReadOutcome.data.inj hout
          have hlen := congrArg List.length htake
          rw [List.length_take, List.length_append] at hlen
          omega
        | wouldBlock | interrupted => cases hout
      dsimp only
      rw [List.length_drop]
      omega

/-- A frame of a text that parses is read by enough turns. -/
theorem receiveUntil_frame {serde : SerdeJson} {payload : Bytes} {v : Value}
    (hfits : Framing.Fits MAX_FRAME payload) (hv : serde.fromSlice payload = .ok v) :
    ∃ turns f, receiveUntil serde {} (Framing.frame payload) turns = some f ∧
      f.result = .ok v := by
  let turns := List.replicate ((Framing.frame payload).length + 1) (Turn.ready 0)
  have hturns : (Framing.frame payload).length < (turns.filter Turn.productive).length := by
    rw [List.filter_replicate_of_pos rfl, List.length_replicate]
    exact Nat.lt_succ_self _
  have hsome := receiveUntil_progress serde turns {} _ Reader.within_empty hturns
  obtain ⟨f, hf⟩ := Option.isSome_iff_exists.mp hsome
  obtain ⟨hok, herr⟩ := receiveUntil_sound serde turns {} _ Reader.within_empty hf
  have hread := readFrame_frame serde hfits []
  rw [hv, List.append_nil] at hread
  simp only [List.nil_append] at hok herr
  refine ⟨turns, f, hf, ?_⟩
  cases hres : f.result with
  | ok w =>
    have hw := (hok w hres).2
    rw [hread] at hw
    rw [(Prod.mk.inj (Except.ok.inj hw)).1]
  | error e =>
    obtain ⟨e', he'⟩ := herr e hres
    rw [hread] at he'
    cases he'

theorem calls_within (serde : SerdeJson) (turns : List Turn) :
    ∀ (r : Reader) (stream : Bytes), r.Within → ∀ q ∈ calls serde r stream turns, q.Within := by
  induction turns with
  | nil => intro r stream _ q hq; cases hq
  | cons turn turns ih =>
    intro r stream hr q hq
    simp only [calls] at hq
    split at hq
    · next hnone =>
      rcases List.mem_cons.mp hq with rfl | hq
      · exact hr
      · exact ih _ _ (Reader.within_receive serde hr hnone) q hq
    · rw [List.mem_singleton.mp hq]
      exact hr

/-- The nonblocking reader refines the blocking one. A finished reading has the
result of `readFrame`, with the same value and the same unread bytes; enough
productive turns finish it; and every call before the first error asks for at
least one byte and stays within the buffer of one frame. -/
theorem receive_refines_readFrame (serde : SerdeJson) (stream : Bytes) (turns : List Turn) :
    (∀ f, receiveUntil serde {} stream turns = some f →
      (∀ v, f.result = .ok v ↔ ∃ rest, readFrame serde stream = .ok (v, rest)) ∧
      ((∃ e, f.result = .error e) ↔ ∃ e, readFrame serde stream = .error e) ∧
      (∀ v, f.result = .ok v → f.reader = {} ∧ readFrame serde stream = .ok (v, f.unread) ∧
        f.unread = stream.drop (4 + fromBe32 stream))) ∧
    (stream.length < (turns.filter Turn.productive).length →
      (receiveUntil serde {} stream turns).isSome = true) ∧
    (∀ r ∈ calls serde {} stream turns, ∀ target, r.target = .ok target →
      r.bytes.length < target ∧ 1 ≤ min (target - r.bytes.length) CHUNK ∧
      r.bytes.length + min (target - r.bytes.length) CHUNK ≤ MAX_FRAME + 4) := by
  refine ⟨?_, receiveUntil_progress serde turns {} stream Reader.within_empty, ?_⟩
  · intro f hf
    obtain ⟨hok, herr⟩ := receiveUntil_sound serde turns {} stream Reader.within_empty hf
    simp only [List.nil_append] at hok herr
    refine ⟨?_, ?_, ?_⟩
    · intro v
      constructor
      · intro hv
        exact ⟨_, (hok v hv).2⟩
      · rintro ⟨rest, hread⟩
        cases hres : f.result with
        | ok w =>
          have hw := (hok w hres).2
          rw [hread] at hw
          rw [(Prod.mk.inj (Except.ok.inj hw)).1]
        | error e =>
          obtain ⟨e', he'⟩ := herr e hres
          rw [hread] at he'
          cases he'
    · constructor
      · rintro ⟨e, he⟩
        exact herr e he
      · rintro ⟨e, he⟩
        cases hres : f.result with
        | ok w =>
          have hw := (hok w hres).2
          rw [he] at hw
          cases hw
        | error e' => exact ⟨e', rfl⟩
    · intro v hv
      obtain ⟨hreader, hread⟩ := hok v hv
      refine ⟨hreader, hread, ?_⟩
      rw [readFrame] at hread
      split at hread
      · cases hread
      · dsimp only at hread
        split at hread
        · cases hread
        · split at hread
          · cases hread
          · split at hread
            · rw [← (Prod.mk.inj (Except.ok.inj hread)).2, List.drop_drop, fromBe32_take,
                Nat.add_comm]
            · cases hread
  · intro r hr target ht
    have hw := calls_within serde turns {} stream Reader.within_empty r hr
    obtain ⟨hlt, hmax, _, _⟩ := Reader.target_bounds hw ht
    have hchunk : 0 < CHUNK := by decide
    omega

end RubyEngine.ReaderRefinement
