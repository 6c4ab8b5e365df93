import RubyEngine.Supervisor.Steps

/-!
# The buffers of the loop against its history

Each writer holds the frame of the last value that went into it, and the bytes
its descriptor has accepted are the frames of all of them up to the cut in that
frame. Each reader holds the bytes taken behind the last decoded frame.
-/
namespace RubyEngine.Supervisor

open Json (Value)
open Transition (Outcome Machine)

/-! ## One buffer -/

/-- A writer against the values that went into it and the bytes it delivered. -/
structure Accounts (serde : SerdeJson) (w : Writer) (values : List Value) (sent : Bytes) : Prop where
  bounded : ∀ v ∈ values, (serde.toVec v).length ≤ MAX_FRAME
  cut : (values = [] ∧ sent = [] ∧ w.bytes = []) ∨
    ∃ init last, values = init ++ [last] ∧ w.bytes = Framing.frame (serde.toVec last) ∧
      sent = wire serde init ++ w.bytes.take w.offset

theorem accounts_empty (serde : SerdeJson) : Accounts serde {} [] [] :=
  ⟨by simp, Or.inl ⟨rfl, rfl, rfl⟩⟩

theorem Accounts.total {serde : SerdeJson} {w : Writer} {values : List Value} {sent : Bytes}
    (h : Accounts serde w values sent) : sent ++ w.owed = wire serde values := by
  rcases h.cut with ⟨rfl, rfl, hw⟩ | ⟨init, last, rfl, hw, rfl⟩
  · simp [Writer.owed, hw]
  · have hlast := h.bounded last (by simp)
    rw [Writer.owed, List.append_assoc, List.take_append_drop, hw, wire_append,
      wire_singleton hlast]

theorem Accounts.load {serde : SerdeJson} {w w' : Writer} {values : List Value} {sent : Bytes}
    {v : Value} (h : Accounts serde w values sent) (hload : Loads serde w v w') :
    Accounts serde w' (values ++ [v]) sent := by
  have ht := h.total
  rw [(Writer.not_pending_iff _).mp hload.drained, List.append_nil] at ht
  constructor
  · intro x hx
    rcases List.mem_append.mp hx with hx | hx
    · exact h.bounded x hx
    · rw [List.mem_singleton.mp hx]; exact hload.bounded
  · refine Or.inr ⟨values, v, rfl, ?_, ?_⟩
    · rw [hload.filled, fresh]
    · rw [hload.filled, ht]; simp [fresh]

theorem Accounts.send {serde : SerdeJson} {w : Writer} {values : List Value} {sent : Bytes}
    (h : Accounts serde w values sent) (outcome : WriteOutcome) :
    Accounts serde (w.send outcome).writer values (sent ++ (w.send outcome).accepted) := by
  have hbytes := Writer.send_bytes w outcome
  have howed := Writer.send_owed w outcome
  refine ⟨h.bounded, ?_⟩
  rcases h.cut with ⟨rfl, rfl, hw⟩ | ⟨init, last, rfl, hw, rfl⟩
  · have hnil : w.owed = [] := by simp [Writer.owed, hw]
    rw [hnil] at howed
    refine Or.inl ⟨rfl, ?_, hbytes.trans hw⟩
    rw [(List.append_eq_nil_iff.mp howed).1]
    rfl
  · refine Or.inr ⟨init, last, rfl, hbytes.trans hw, ?_⟩
    rw [List.append_assoc]
    congr 1
    have hwhole : (w.bytes.take w.offset ++ (w.send outcome).accepted) ++
        (w.send outcome).writer.owed = w.bytes := by
      rw [List.append_assoc, howed, Writer.owed, List.take_append_drop]
    have hsplit := List.take_append_drop (w.send outcome).writer.offset (w.send outcome).writer.bytes
    rw [← Writer.owed] at hsplit
    exact List.append_cancel_right ((hwhole.trans hbytes.symm).trans hsplit.symm)

/-- Payloads that decode to these values, one each. -/
def Decodes (serde : SerdeJson) (payloads : List Bytes) (values : List Value) : Prop :=
  List.Forall₂ (fun p v => Framing.Fits MAX_FRAME p ∧ serde.fromSlice p = .ok v) payloads values

theorem Decodes.append {serde : SerdeJson} {ps : List Bytes} {vs : List Value} {p : Bytes}
    {v : Value} (h : Decodes serde ps vs) (hp : Framing.Fits MAX_FRAME p)
    (hv : serde.fromSlice p = .ok v) : Decodes serde (ps ++ [p]) (vs ++ [v]) := by
  induction h with
  | nil => exact .cons ⟨hp, hv⟩ .nil
  | cons hhd _ ih => exact .cons hhd ih

/-- The values are the ones in the frames at the front of the bytes. -/
def Decoded (serde : SerdeJson) (values : List Value) (took : Bytes) : Prop :=
  ∃ ps tail, Decodes serde ps values ∧ took = Framing.concat ps ++ tail

/-- A reader against the values it returned and the bytes it took. -/
structure Parses (serde : SerdeJson) (r : Reader) (values : List Value) (took : Bytes) : Prop where
  within : r.Within
  frames : ∃ ps, Decodes serde ps values ∧ took = Framing.concat ps ++ r.bytes

theorem parses_empty (serde : SerdeJson) : Parses serde {} [] [] :=
  ⟨Reader.within_empty, [], .nil, rfl⟩

theorem Parses.decoded {serde : SerdeJson} {r : Reader} {values : List Value} {took : Bytes}
    (h : Parses serde r values took) : Decoded serde values took := by
  obtain ⟨ps, hps, htook⟩ := h.frames
  exact ⟨ps, r.bytes, hps, htook⟩

theorem Decoded.append {serde : SerdeJson} {values : List Value} {took : Bytes}
    (h : Decoded serde values took) (more : Bytes) : Decoded serde values (took ++ more) := by
  obtain ⟨ps, tail, hps, rfl⟩ := h
  exact ⟨ps, tail ++ more, hps, List.append_assoc _ _ _⟩

/-- What a successful `receive` does to the account of a reader. -/
theorem Parses.receive {serde : SerdeJson} {r : Reader} {values : List Value} {took : Bytes}
    (h : Parses serde r values took) {outcome : ReadOutcome} {out : Option Value}
    (hr : (r.receive serde outcome).result = .ok out) :
    Parses serde (r.receive serde outcome).reader (values ++ out.toList)
      (took ++ (r.receive serde outcome).consumed) := by
  refine ⟨Reader.within_receive serde h.within hr, ?_⟩
  obtain ⟨ps, hps, rfl⟩ := h.frames
  have hc := Reader.receive_cases serde h.within outcome
  generalize r.receive serde outcome = received at hc hr
  cases hc with
  | header | fault | closed | garbled => cases hr
  | retry e he =>
    obtain rfl := Except.ok.inj hr
    exact ⟨ps, by simpa using hps, by simp⟩
  | more chunk rest hne hw =>
    obtain rfl := Except.ok.inj hr
    exact ⟨ps, by simpa using hps, List.append_assoc _ _ _⟩
  | value chunk rest p v hne hframe hfits hv =>
    obtain rfl := Except.ok.inj hr
    refine ⟨ps ++ [p], hps.append hfits hv, ?_⟩
    rw [List.append_assoc, hframe]
    simp

/-! ## The values that a stream holds -/

/-- Decode at most so many frames from the front of a stream. -/
def decodeFrames (serde : SerdeJson) : Nat → Bytes → List Value
  | 0, _ => []
  | n + 1, stream =>
      match readFrame serde stream with
      | .ok (v, rest) => v :: decodeFrames serde n rest
      | .error _ => []

/-- All the frames in front of the first byte that is not part of one. -/
def decodedFrames (serde : SerdeJson) (stream : Bytes) : List Value :=
  decodeFrames serde stream.length stream

theorem decodeFrames_concat {serde : SerdeJson} {ps : List Bytes} {vs : List Value}
    (h : Decodes serde ps vs) (rest : Bytes) :
    ∀ n, vs.length ≤ n → decodeFrames serde n (Framing.concat ps ++ rest) =
      vs ++ decodeFrames serde (n - vs.length) rest := by
  induction h with
  | nil => intro n _; rfl
  | @cons p v ps vs hhd _ ih =>
    intro n hn
    cases n with
    | zero => simp at hn
    | succ n =>
      have hread := readFrame_frame serde hhd.1 (Framing.concat ps ++ rest)
      rw [hhd.2] at hread
      rw [Framing.concat_cons, List.append_assoc, decodeFrames, hread, List.length_cons,
        Nat.add_sub_add_right, List.cons_append]
      exact congrArg (v :: ·) (ih n (by simpa using hn))

theorem Decodes.length_le {serde : SerdeJson} {ps : List Bytes} {vs : List Value}
    (h : Decodes serde ps vs) : vs.length ≤ (Framing.concat ps).length := by
  induction h with
  | nil => simp
  | cons _ _ ih =>
    rw [Framing.concat_cons, List.length_append, Framing.length_frame, List.length_cons]
    omega

theorem Decodes.fits {serde : SerdeJson} {ps : List Bytes} {vs : List Value}
    (h : Decodes serde ps vs) : ∀ p ∈ ps, Framing.Fits MAX_FRAME p := by
  induction h with
  | nil => simp
  | cons hhd _ ih =>
    intro p hp
    rcases List.mem_cons.mp hp with rfl | hp
    · exact hhd.1
    · exact ih p hp

/-- Decoded values are the first ones of any stream that goes on like this. -/
theorem Decoded.prefix_of {serde : SerdeJson} {values : List Value} {took stream : Bytes}
    (h : Decoded serde values took) (hs : took <+: stream) :
    values <+: decodedFrames serde stream := by
  obtain ⟨ps, tail, hps, rfl⟩ := h
  obtain ⟨more, rfl⟩ := hs
  have hlen := hps.length_le
  have henough : values.length ≤ (Framing.concat ps ++ (tail ++ more)).length := by
    rw [List.length_append]
    omega
  rw [decodedFrames, List.append_assoc, decodeFrames_concat hps _ _ henough]
  exact List.prefix_append _ _

/-! ## A stream that is cut -/

/-- Payloads decode in one way. -/
theorem Decodes.split {serde : SerdeJson} {ps qs : List Bytes} {values vs : List Value}
    (h : Decodes serde ps values) (hall : Decodes serde (ps ++ qs) vs) :
    ∃ vs', vs = values ++ vs' ∧ Decodes serde qs vs' := by
  induction h generalizing vs with
  | nil => exact ⟨vs, rfl, hall⟩
  | @cons p v ps values hp _ ih =>
    cases hall with
    | @cons _ w _ ws hw htail =>
      obtain ⟨vs', rfl, hvs'⟩ := ih htail
      have hvw : v = w := Except.ok.inj (hp.2.symm.trans hw.2)
      exact ⟨vs', by rw [hvw]; rfl, hvs'⟩

/-- A stream of frames that decode to some values, cut behind them or in one frame more. -/
structure Stream (serde : SerdeJson) (values : List Value) (bytes : Bytes) : Prop where
  cut : ∃ ps tail, Decodes serde ps values ∧ Framing.Partial (Framing.Fits MAX_FRAME) tail ∧
    bytes = Framing.concat ps ++ tail

/-- What a reader holds of a stream is the front of what it has not decoded. -/
theorem Parses.unread {serde : SerdeJson} {r : Reader} {values vs : List Value}
    {took stream : Bytes} (h : Parses serde r values took) (hs : Stream serde vs stream)
    (htook : took <+: stream) :
    ∃ vs' rest, vs = values ++ vs' ∧ Stream serde vs' rest ∧ r.bytes <+: rest ∧
      ∃ before, took = before ++ r.bytes ∧ stream = before ++ rest := by
  obtain ⟨qs, hqs, rfl⟩ := h.frames
  obtain ⟨ps, tail, hps, htail, rfl⟩ := hs.cut
  obtain ⟨rest, rfl, hbytes⟩ :=
    Framing.cut_concat maxFrame_lt_word hqs.fits hps.fits htail htook
  obtain ⟨vs', rfl, hrest⟩ := hqs.split hps
  refine ⟨vs', Framing.concat rest ++ tail, rfl, ⟨rest, tail, hrest, htail, rfl⟩, hbytes,
    Framing.concat qs, rfl, ?_⟩
  rw [Framing.concat_append, List.append_assoc]

/-- No header in a stream of frames is refused. -/
theorem Parses.header {serde : SerdeJson} {r : Reader} {values vs : List Value}
    {took stream : Bytes} (h : Parses serde r values took) (hs : Stream serde vs stream)
    (htook : took <+: stream) (hlen : r.bytes.length = 4) :
    ¬ (fromBe32 r.bytes = 0 ∨ MAX_FRAME < fromBe32 r.bytes) := by
  obtain ⟨vs', rest, rfl, hrest, hbytes, before, rfl, rfl⟩ := h.unread hs htook
  obtain ⟨ps, tail, hps, htail, rfl⟩ := hrest.cut
  obtain ⟨q, hq, hsize⟩ := Framing.cut_announces maxFrame_lt_word hps.fits htail hbytes hlen.ge
  have hpos := hq.nonempty
  have hmax := hq.bounded
  omega

/-- A read that asks for another try changes nothing. -/
theorem Parses.receive_transient {serde : SerdeJson} {r : Reader} {values vs : List Value}
    {took stream : Bytes} (h : Parses serde r values took) (hs : Stream serde vs stream)
    (htook : took <+: stream) {e : IoError} (he : e.transient = true) :
    r.receive serde (.failed e) = ⟨r, [], .ok none⟩ := by
  have hc := Reader.receive_cases serde h.within (.failed e)
  generalize r.receive serde (.failed e) = received at hc
  cases hc with
  | header _ hlen hbad => exact absurd hbad (h.header hs htook hlen)
  | retry => rfl
  | fault _ hfault =>
    rw [he] at hfault
    cases hfault

/-- A read of more of a stream of frames returns nothing yet or the next value. -/
theorem Parses.receive_stream {serde : SerdeJson} {r : Reader} {values vs : List Value}
    {took stream waiting : Bytes} (h : Parses serde r values took) (hs : Stream serde vs stream)
    (hne : waiting ≠ []) (hshow : took ++ waiting <+: stream) :
    ∃ out, (r.receive serde (.data waiting)).result = .ok out ∧ values ++ out.toList <+: vs ∧
      took ++ (r.receive serde (.data waiting)).consumed <+: stream ∧
      (r.receive serde (.data waiting)).consumed ≠ [] := by
  have htook := (List.prefix_append took waiting).trans hshow
  have hheader := h.header hs htook
  obtain ⟨vs', rest, rfl, hrest, _, before, rfl, rfl⟩ := h.unread hs htook
  obtain ⟨ps, tail, hps, htail, rfl⟩ := hrest.cut
  have hfront : r.bytes ++ waiting <+: Framing.concat ps ++ tail := by
    rwa [List.append_assoc, List.prefix_append_right_inj] at hshow
  have hc := Reader.receive_cases serde h.within (.data waiting)
  generalize r.receive serde (.data waiting) = received at hc
  generalize hw : ReadOutcome.data waiting = outcome at hc
  -- a frame that the read completes is the next one
  have hhead : ∀ {chunk after p : Bytes}, waiting = chunk ++ after →
      r.bytes ++ chunk = Framing.frame p → Framing.Fits MAX_FRAME p →
      ∃ ps', ps = p :: ps' := by
    rintro chunk after p rfl hframe hfits
    refine Framing.cut_frame maxFrame_lt_word hps.fits htail hfits ?_
    rw [← hframe]
    refine List.IsPrefix.trans ?_ hfront
    rw [← List.append_assoc]
    exact List.prefix_append _ _
  have hgrows : ∀ {chunk after : Bytes}, waiting = chunk ++ after →
      before ++ r.bytes ++ chunk <+: before ++ (Framing.concat ps ++ tail) := by
    rintro chunk after rfl
    refine List.IsPrefix.trans ?_ hshow
    rw [← List.append_assoc]
    exact List.prefix_append _ _
  cases hc with
  | header _ hlen hbad => exact absurd hbad (hheader hlen)
  | retry | fault => cases hw
  | closed =>
    cases hw
    exact absurd rfl hne
  | more chunk after hchunk _ =>
    exact ⟨none, rfl, by simp, hgrows (ReadOutcome.data.inj hw), hchunk⟩
  | value chunk after p v hchunk hframe hfits hv =>
    obtain ⟨ps', rfl⟩ := hhead (ReadOutcome.data.inj hw) hframe hfits
    obtain ⟨vs, rfl, _⟩ := (Decodes.append .nil hfits hv).split hps
    refine ⟨some v, rfl, ?_, hgrows (ReadOutcome.data.inj hw), hchunk⟩
    rw [List.prefix_append_right_inj]
    exact List.prefix_append _ _
  | garbled chunk after p e hchunk hframe hfits hv =>
    obtain ⟨ps', rfl⟩ := hhead (ReadOutcome.data.inj hw) hframe hfits
    cases hps with
    | cons hp _ =>
      rw [hv] at hp
      cases hp.2

/-- The end of a stream that has been read is met as such, behind all its values. -/
theorem Parses.receive_end {serde : SerdeJson} {r : Reader} {values vs : List Value}
    {took : Bytes} (h : Parses serde r values took) (hs : Stream serde vs took) :
    r.receive serde (.data []) = ⟨r, [], .error disconnected⟩ ∧ values = vs := by
  constructor
  · have hc := Reader.receive_cases serde h.within (.data [])
    generalize r.receive serde (.data []) = received at hc
    generalize hw : ReadOutcome.data [] = outcome at hc
    cases hc with
    | header _ hlen hbad => exact absurd hbad (h.header hs List.prefix_rfl hlen)
    | retry | fault => cases hw
    | closed => rfl
    | more chunk after hchunk _ | value chunk after _ _ hchunk | garbled chunk after _ _ hchunk =>
      have hnil := (List.append_eq_nil_iff.mp (ReadOutcome.data.inj hw).symm).1
      exact absurd hnil hchunk
  · obtain ⟨vs', rest, rfl, hrest, _, before, hbefore, hwhole⟩ := h.unread hs List.prefix_rfl
    obtain rfl : r.bytes = rest := List.append_cancel_left (hbefore.symm.trans hwhole)
    obtain ⟨ps, tail, hps, _, hcut⟩ := hrest.cut
    cases hps with
    | nil => exact (List.append_nil values).symm
    | @cons p v ps vs hp _ =>
      -- a whole frame is more than the reader holds
      have hlong : (Framing.frame p).length ≤ r.bytes.length := by
        rw [hcut, Framing.concat_cons, List.append_assoc, List.length_append]
        exact Nat.le_add_right _ _
      rw [Framing.length_frame] at hlong
      have hpos := hp.1.nonempty
      obtain ⟨_, _, hless⟩ := h.within (by omega)
      have hsize := Framing.fromBe32_frame (hp.1.bounded.trans_lt maxFrame_lt_word)
        (Framing.concat ps ++ tail)
      rw [← List.append_assoc, ← Framing.concat_cons, ← hcut] at hsize
      omega

/-! ## The loop -/

/-- The four buffers agree with the history. After the end of the guest's output
its reader is not used any more. -/
structure Balanced (serde : SerdeJson) (s : Loop) (history : List Effect) : Prop where
  toHost : Accounts serde s.toHost (enqueuedTo .host history) (sentTo .host history)
  toGuest : Accounts serde s.toGuest (enqueuedTo .guest history) (sentTo .guest history)
  host : Parses serde s.host (receivedFrom .host history) (tookFrom .host history)
  guest : s.guestClosed = false →
    Parses serde s.guest (receivedFrom .guest history) (tookFrom .guest history)
  guestDecoded : Decoded serde (receivedFrom .guest history) (tookFrom .guest history)

theorem balanced_start {serde : SerdeJson} {request : Request} {s : Loop}
    (h : enter serde request = .ok s) :
    Balanced serde s [.enqueued .guest request.toValue] := by
  obtain ⟨_, hload, hs⟩ := enter_cases h
  have hguest := (accounts_empty serde).load hload
  rw [hs]
  exact ⟨by simpa using accounts_empty serde, by simpa using hguest,
    by simpa using parses_empty serde, fun _ => by simpa using parses_empty serde,
    by simpa using (parses_empty serde).decoded⟩

theorem balanced_step {serde : SerdeJson} {request : Request} {s t : Loop} {answer : Answer}
    {history effects : List Effect} (h : Balanced serde s history)
    (hstep : step serde request s answer = some (.next t effects)) :
    Balanced serde t (history ++ effects) := by
  have hc := step_cases hstep
  obtain ⟨hh, hg, rh, rg, rd⟩ := h
  cases hc with
  | idle => exact ⟨by simpa using hh, by simpa using hg, by simpa using rh, by simpa using rg,
      by simpa using rd⟩
  | expired w _ hw => exact ⟨by simpa using hh.load hw, by simpa using hg, by simpa using rh,
      by simpa using rg, by simpa using rd⟩
  | ceiling bytes w _ _ hw => exact ⟨by simpa using hh.load hw, by simpa using hg,
      by simpa using rh, by simpa using rg, by simpa using rd⟩
  | hostTook outcome _ hres => exact ⟨by simpa using hh, by simpa using hg,
      by simpa using rh.receive hres, by simpa using rg, by simpa using rd⟩
  | reply outcome v w _ hres _ hw => exact ⟨by simpa using hh, by simpa using hg.load hw,
      by simpa using rh.receive hres, by simpa using rg, by simpa using rd⟩
  | guestSent outcome _ _ => exact ⟨by simpa using hh, by simpa using hg.send outcome,
      by simpa using rh, by simpa using rg, by simpa using rd⟩
  | hostSent outcome _ _ _ => exact ⟨by simpa using hh.send outcome, by simpa using hg,
      by simpa using rh, by simpa using rg, by simpa using rd⟩
  | guestTook outcome _ _ _ hopen hres =>
    have hnext := (rg hopen).receive hres
    exact ⟨by simpa using hh, by simpa using hg, by simpa using rh,
      fun _ => by simpa using hnext, by simpa using hnext.decoded⟩
  | event outcome v s' w _ _ hopen hres _ _ hadmit hw =>
    have hnext := (rg hopen).receive hres
    cases hadmit <;>
      exact ⟨by simpa using hh.load hw, by simpa using hg, by simpa using rh,
        fun _ => by simpa using hnext, by simpa using hnext.decoded⟩
  | guestEof outcome e _ _ _ _ _ _ => exact ⟨by simpa using hh, by simpa using hg,
      by simpa using rh, nofun, by simpa using rd.append _⟩
  | childExited status w _ _ _ hw => exact ⟨by simpa using hh.load hw, by simpa using hg,
      by simpa using rh, by simpa using rg, by simpa using rd⟩

theorem balanced_reaches {serde : SerdeJson} {request : Request} {s : Loop}
    {history : List Effect} (h : (machine serde request).Reaches s history) :
    Balanced serde s history := by
  refine h.invariant ?_ ?_
  · rintro s history ⟨hs, rfl⟩
    exact balanced_start hs
  · intro s answer t history effects hi hstep
    exact balanced_step hi hstep

/-- The values whose frames lie within the first bytes of the stream of all of them. -/
def delivered (serde : SerdeJson) : List Value → Nat → List Value
  | [], _ => []
  | v :: vs, n =>
      let size := (Framing.frame (serde.toVec v)).length
      if size ≤ n then v :: delivered serde vs (n - size) else []

theorem delivered_front (serde : SerdeJson) (values : List Value) (n : Nat) :
    delivered serde values n <+: values := by
  induction values generalizing n with
  | nil => exact List.nil_prefix
  | cons v vs ih =>
    rw [delivered]
    split
    · exact (List.prefix_cons_inj v).mpr (ih _)
    · exact List.nil_prefix

theorem sentTo_quiet {effects : List Effect} (h : ∀ x ∈ effects, x.quiet) (peer : Peer) :
    sentTo peer effects = [] := by
  rw [sentTo, List.flatMap_eq_nil_iff]
  intro x hx
  have hq := h x hx
  cases x with
  | sent p bytes =>
    obtain rfl : bytes = [] := hq
    simp
  | took | received | enqueued | expired | killed => rfl

theorem enqueuedTo_quiet {effects : List Effect} (h : ∀ x ∈ effects, x.quiet) (peer : Peer) :
    enqueuedTo peer effects = [] := by
  rw [enqueuedTo, List.filterMap_eq_nil_iff]
  intro x hx
  cases x with
  | enqueued p v => exact (h _ hx).elim
  | took | sent | received | expired | killed => rfl

end RubyEngine.Supervisor
