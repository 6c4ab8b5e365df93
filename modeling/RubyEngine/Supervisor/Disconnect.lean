import RubyEngine.Serde.Reference
import RubyEngine.Supervisor.Streams

/-!
# Malformed output and the end of the output

The loop tells the end of the guest's output from a violation of the protocol by
the kind of an error. A read of nothing has the kind of a disconnect, and so has
a frame whose JSON text stops early.
-/
namespace RubyEngine.Supervisor.Disconnect

open Json (Value)
open Transition (Outcome Machine)

/-! ## What a read meets -/

/-- The iteration reads the guest's output. -/
def readsGuest (s : Loop) : Bool :=
  s.phase = .guest && !s.completed && !s.toHost.pending && !s.guestClosed

/-- The announced length is out of range. -/
def badLength (r : Reader) : Bool :=
  r.bytes.length = 4 && (fromBe32 r.bytes = 0 || MAX_FRAME < fromBe32 r.bytes)

/-- The payload of the frame that a read completes. -/
def completes (r : Reader) : ReadOutcome → Option Bytes
  | .failed _ => none
  | .data waiting =>
      let size := fromBe32 (r.bytes.take 4)
      let bytes := r.bytes ++ waiting.take (min (size + 4 - r.bytes.length) CHUNK)
      if 4 ≤ r.bytes.length ∧ 0 < size ∧ size ≤ MAX_FRAME ∧ bytes.length = size + 4 then
        some (bytes.drop 4)
      else none

/-- A read completes a frame whose text ends before its value does. -/
def cutShort (serde : SerdeJson) (s : Loop) : Answer → Bool
  | .read outcome =>
      readsGuest s && (completes s.guest outcome).any (fun payload =>
        match serde.fromSlice payload with
        | .ok _ => false
        | .error e => e.category = .eof)
  | _ => false

/-- No error number stands for the end of a stream. -/
def ordinary (_ : Loop) : Answer → Bool
  | .read (.failed e) => e.kind ≠ .unexpectedEof
  | _ => true

abbrev Move := Transition.Move Loop Answer Effect (Except IoError Unit)

/-- A step takes nothing malformed for a disconnect. -/
structure Proper (serde : SerdeJson) (move : Move) : Prop where
  closed : ∀ t effects, move.outcome = .next t effects → t.guestClosed = true →
    move.source.guestClosed = true ∨
      (readsGuest move.source = true ∧ move.answer = .read (.data []))
  garbled : ∀ outcome payload e, move.answer = .read outcome → readsGuest move.source = true →
    completes move.source.guest outcome = some payload → serde.fromSlice payload = .error e →
    ∃ error effects, move.outcome = .exit (.error error) effects
  length : ∀ outcome, move.answer = .read outcome → readsGuest move.source = true →
    badLength move.source.guest = true → ∃ error effects, move.outcome = .exit (.error error) effects

/-! ## The reader -/

/-- A frame that a read completes is decoded by it. -/
theorem receive_completes (serde : SerdeJson) {r : Reader} (h : r.Within) {outcome : ReadOutcome}
    {payload : Bytes} (hp : completes r outcome = some payload) :
    (r.receive serde outcome).result =
      match serde.fromSlice payload with
      | .ok v => .ok (some v)
      | .error e => .error e.toIo := by
  cases outcome with
  | failed e => cases hp
  | data waiting =>
    simp only [completes] at hp
    split at hp
    · next hframe =>
      obtain ⟨hhead, hpos, hbound, hlen⟩ := hframe
      obtain rfl := Option.some.inj hp
      have htarget : r.target = .ok (fromBe32 (r.bytes.take 4) + 4) := by
        unfold Reader.target
        rw [if_neg (by omega)]
        exact if_neg (by omega)
      obtain ⟨hlt, _⟩ := Reader.target_bounds h htarget
      simp only [Reader.receive, htarget]
      have hchunk : waiting.take (min (fromBe32 (r.bytes.take 4) + 4 - r.bytes.length) CHUNK) ≠ [] := by
        intro hnil
        rw [hnil, List.append_nil] at hlen
        omega
      rw [if_neg hchunk, if_pos ⟨by omega, hlen⟩]
      cases serde.fromSlice _ <;> rfl
    · cases hp

/-- A read that reaches its target behind a length completes a frame. -/
theorem completes_of_target {r : Reader} (h : r.Within) {target : Nat}
    (ht : r.target = .ok target) {waiting : Bytes}
    (hframe : 4 < target ∧
      (r.bytes ++ waiting.take (min (target - r.bytes.length) CHUNK)).length = target) :
    completes r (.data waiting) =
      some ((r.bytes ++ waiting.take (min (target - r.bytes.length) CHUNK)).drop 4) := by
  obtain ⟨hlt, _, hmin, hbig⟩ := Reader.target_bounds h ht
  obtain ⟨hhead, htarget, hpos, hbound⟩ := hbig hframe.1
  subst htarget
  simp only [completes, fromBe32_take]
  exact if_pos ⟨hhead, hpos, hbound, hframe.2⟩

/-- A read that completes no frame returns nothing yet, unless it meets an error or the end. -/
theorem receive_incomplete (serde : SerdeJson) {r : Reader} (h : r.Within)
    (hbad : badLength r = false) {outcome : ReadOutcome} (hnone : completes r outcome = none) :
    (r.receive serde outcome).result = .ok none ∨
      (∃ e, outcome = .failed e ∧ e.transient = false ∧
        (r.receive serde outcome).result = .error e) ∨
      (outcome = .data [] ∧ (r.receive serde outcome).result = .error disconnected) := by
  unfold Reader.receive
  cases ht : r.target with
  | error e =>
    obtain ⟨hlen, hrange, -⟩ := Reader.target_error h ht
    simp only [badLength, hlen, decide_true, Bool.true_and, Bool.or_eq_false_iff,
      decide_eq_false_iff_not] at hbad
    exact absurd hrange (not_or.mpr hbad)
  | ok target =>
    obtain ⟨hlt, -⟩ := Reader.target_bounds h ht
    cases outcome with
    | failed e =>
      cases he : e.transient with
      | false => exact Or.inr (Or.inl ⟨e, rfl, he, by simp [he]⟩)
      | true =>
        left
        simp only [he, if_true]
    | data waiting =>
      dsimp only
      split
      · next hnil =>
        have hchunk : 0 < CHUNK := by decide
        rcases List.take_eq_nil_iff.mp hnil with hzero | rfl
        · omega
        · exact Or.inr (Or.inr ⟨rfl, rfl⟩)
      · split
        · next hframe =>
          rw [completes_of_target h ht hframe] at hnone
          cases hnone
        · exact Or.inl rfl

/-- The three ways to an error of the kind of a disconnect. -/
theorem receive_eof {serde : SerdeJson} {r : Reader} (h : r.Within) {outcome : ReadOutcome}
    {e : IoError} (he : (r.receive serde outcome).result = .error e)
    (hkind : e.kind = .unexpectedEof) :
    outcome = .data [] ∨ outcome = .failed e ∨ ∃ payload je,
      completes r outcome = some payload ∧ serde.fromSlice payload = .error je ∧
        je.category = .eof := by
  unfold Reader.receive at he
  cases ht : r.target with
  | error e' =>
    obtain ⟨_, _, rfl⟩ := Reader.target_error h ht
    rw [ht] at he
    obtain rfl := Except.error.inj he
    cases hkind
  | ok target =>
    rw [ht] at he
    obtain ⟨hlt, _⟩ := Reader.target_bounds h ht
    cases outcome with
    | failed e' =>
      dsimp only at he
      split at he
      · cases he
      · obtain rfl := Except.error.inj he
        exact Or.inr (Or.inl rfl)
    | data waiting =>
      dsimp only at he
      split at he
      · next hnil =>
        have hcount : 0 < min (target - r.bytes.length) CHUNK := by
          have : 0 < CHUNK := by decide
          omega
        rcases List.take_eq_nil_iff.mp hnil with hzero | hwaiting
        · omega
        · exact Or.inl (by rw [hwaiting])
      · split at he
        · next hframe =>
          have hcompletes := completes_of_target h ht hframe
          cases hs : serde.fromSlice
              ((r.bytes ++ waiting.take (min (target - r.bytes.length) CHUNK)).drop 4) with
          | ok v =>
            rw [hs] at he
            cases he
          | error je =>
            rw [hs] at he
            obtain rfl := Except.error.inj he
            refine Or.inr (Or.inr ⟨_, je, hcompletes, hs, ?_⟩)
            -- the other two categories have another kind
            unfold JsonError.toIo at hkind
            cases hc : je.category with
            | malformed | data =>
              rw [hc] at hkind
              cases hkind
            | eof => rfl
        · cases he

theorem receive_badLength {serde : SerdeJson} {r : Reader} (h : badLength r = true)
    (outcome : ReadOutcome) :
    (r.receive serde outcome).result = .error (IoError.other "Frame size limit") := by
  simp only [badLength, Bool.and_eq_true, Bool.or_eq_true, decide_eq_true_eq] at h
  have htarget : r.target = .error (IoError.other "Frame size limit") := by
    unfold Reader.target
    rw [if_neg (by omega), fromBe32_take]
    exact if_pos h.2
  simp only [Reader.receive, htarget]

/-! ## One step -/

variable {serde : SerdeJson} {request : Request} {s : Loop} {history : List Effect}

/-- What a read of the guest's output leads to, if it fails. -/
theorem step_failed {outcome : ReadOutcome} {out : Next} {e : IoError}
    (hstep : step serde request s (.read outcome) = some out) (hreads : readsGuest s = true)
    (he : (s.guest.receive serde outcome).result = .error e) :
    (e.kind = .unexpectedEof ∧ ∃ t effects, out = .next t effects) ∨
    (e.kind ≠ .unexpectedEof ∧ ∃ effects, out = .exit (.error e) effects) := by
  simp only [readsGuest, Bool.and_eq_true, decide_eq_true_eq] at hreads
  obtain ⟨⟨⟨hphase, hc⟩, hp⟩, hg⟩ := hreads
  simp only [step, hphase, Option.some.injEq] at hstep
  subst hstep
  unfold guestPhase
  rw [if_pos (by simp only [hc, hp, hg, Bool.and_self])]
  simp only [he]
  by_cases hk : e.kind = .unexpectedEof
  · rw [if_pos hk]
    exact Or.inl ⟨hk, _, _, rfl⟩
  · rw [if_neg hk]
    exact Or.inr ⟨hk, _, rfl⟩

theorem cutShort_iff {outcome : ReadOutcome} : cutShort serde s (.read outcome) = true ↔
    readsGuest s = true ∧ ∃ payload e, completes s.guest outcome = some payload ∧
      serde.fromSlice payload = .error e ∧ e.category = .eof := by
  simp only [cutShort, Bool.and_eq_true, Option.any_eq_true]
  refine and_congr_right fun _ => ?_
  constructor
  · rintro ⟨payload, hp, h⟩
    cases hs : serde.fromSlice payload with
    | ok v =>
      rw [hs] at h
      cases h
    | error e =>
      rw [hs] at h
      exact ⟨payload, e, hp, hs, of_decide_eq_true h⟩
  · rintro ⟨payload, e, hp, hs, hc⟩
    exact ⟨payload, hp, by rw [hs]; exact decide_eq_true hc⟩

theorem toIo_kind (e : JsonError) : e.toIo.kind = .unexpectedEof ↔ e.category = .eof := by
  unfold JsonError.toIo
  cases e.category <;> simp

/-- The loop marks the end of the output in one case only. -/
theorem closed_step {t : Loop} {answer : Answer} {effects : List Effect}
    (hstep : step serde request s answer = some (.next t effects)) (ht : t.guestClosed = true)
    (hs : s.guestClosed = false) :
    readsGuest s = true ∧ ∃ outcome e, answer = .read outcome ∧
      (s.guest.receive serde outcome).result = .error e ∧ e.kind = .unexpectedEof := by
  have hc := step_cases hstep
  cases hc with
  | guestEof outcome e hphase hopen hidle hg he hk =>
    exact ⟨by simp [readsGuest, hphase, hopen, hidle, hs], outcome, e, rfl, he, hk⟩
  | event outcome v s' w _ _ _ _ _ _ hadmit _ =>
    have hsame : s'.guestClosed = s.guestClosed := by cases hadmit <;> rfl
    change s'.guestClosed = true at ht
    rw [hsame, hs] at ht
    cases ht
  | idle | expired | ceiling | hostTook | reply | guestSent | hostSent | guestTook | childExited =>
    change s.guestClosed = true at ht
    rw [hs] at ht
    cases ht

theorem proper_iff {answer : Answer} {out : Next} (hb : Balanced serde s history)
    (hstep : step serde request s answer = some out) (hordinary : ordinary s answer = true) :
    Proper serde ⟨s, answer, out⟩ ↔ cutShort serde s answer = false := by
  have hwithin : readsGuest s = true → s.guest.Within := by
    intro hreads
    simp only [readsGuest, Bool.and_eq_true, Bool.not_eq_true'] at hreads
    exact (hb.guest hreads.2).within
  constructor
  · intro h
    cases answer with
    | read outcome =>
      by_contra hcut
      obtain ⟨hreads, payload, e, hp, hs, hc⟩ :=
        cutShort_iff.mp (Bool.eq_true_of_not_eq_false hcut)
      obtain ⟨error, effects, hexit⟩ := h.garbled outcome payload e rfl hreads hp hs
      have hres := receive_completes serde (hwithin hreads) hp
      rw [hs] at hres
      rcases step_failed hstep hreads hres with ⟨_, t, effects', hnext⟩ | ⟨hk, _⟩
      · change out = _ at hexit
        rw [hexit] at hnext
        cases hnext
      · exact hk ((toIo_kind e).mpr hc)
    | clock | resident | write | waited | polled => rfl
  · intro hclean
    refine ⟨?_, ?_, ?_⟩
    · rintro t effects rfl ht
      by_cases hs : s.guestClosed = true
      · exact Or.inl hs
      · obtain ⟨hreads, outcome, e, rfl, he, hk⟩ :=
          closed_step hstep ht (Bool.eq_false_of_not_eq_true hs)
        rcases receive_eof (hwithin hreads) he hk with rfl | rfl | hcut
        · exact Or.inr ⟨hreads, rfl⟩
        · simp [ordinary, hk] at hordinary
        · rw [cutShort_iff.mpr ⟨hreads, hcut⟩] at hclean
          cases hclean
    · rintro outcome payload e rfl hreads hp hs
      have hres := receive_completes serde (hwithin hreads) hp
      rw [hs] at hres
      rcases step_failed hstep hreads hres with ⟨hk, _⟩ | ⟨_, effects, hexit⟩
      · rw [cutShort_iff.mpr ⟨hreads, payload, e, hp, hs, (toIo_kind e).mp hk⟩] at hclean
        cases hclean
      · exact ⟨_, effects, hexit⟩
    · rintro outcome rfl hreads hbad
      rcases step_failed hstep hreads (receive_badLength hbad outcome) with
        ⟨hk, _⟩ | ⟨_, effects, hexit⟩
      · cases hk
      · exact ⟨_, effects, hexit⟩

/-! ## Whole runs -/

/-- The runs of the supervisor over an operating system with its usual errors. -/
abbrev runs (serde : SerdeJson) (request : Request) :
    Machine Loop Answer Move (Except IoError Unit) :=
  ((machine serde request).restrict ordinary).recorded

/-- Every move of a run is proper, unless it reads a frame that is cut short. -/
theorem proper_move {move : Move} (h : ((machine serde request).restrict ordinary).Moves move) :
    Proper serde move ↔ cutShort serde move.source move.answer = false := by
  obtain ⟨⟨effects, hreach⟩, hstep⟩ := h
  obtain ⟨hordinary, hreal⟩ := Machine.step_of_restrict hstep
  exact proper_iff (balanced_reaches hreach.of_restrict) hreal hordinary

/-- A mark at the end of the output comes from a read of nothing. -/
theorem closed_by_read {moves : List Move} (h : (runs serde request).Reaches s moves)
    (hclean : ∀ move ∈ moves, cutShort serde move.source move.answer = false)
    (hs : s.guestClosed = true) :
    ∃ move ∈ moves, readsGuest move.source = true ∧ move.answer = .read (.data []) := by
  induction h with
  | start hstart =>
    obtain ⟨⟨effects, henter, _⟩, rfl⟩ := hstart
    obtain ⟨_, _, heq⟩ := enter_cases henter
    rw [heq] at hs
    cases hs
  | @next s t answer moves effects hreach hstep ih =>
    obtain ⟨real, hreal, hcase⟩ := Machine.step_recorded hstep
    rcases hcase with ⟨t', effects', rfl, hout⟩ | ⟨_, _, _, hout⟩
    · cases hout
      by_cases hbefore : s.guestClosed = true
      · obtain ⟨move, hmove, hread⟩ :=
          ih (fun x hx => hclean x (List.mem_append_left _ hx)) hbefore
        exact ⟨move, List.mem_append_left _ hmove, hread⟩
      · have hmoves : ((machine serde request).restrict ordinary).Moves
            ⟨s, answer, .next t effects'⟩ := ⟨(Machine.reaches_recorded hreach).1, hreal⟩
        have hproper := (proper_move hmoves).mpr (hclean _ (by simp))
        refine ⟨_, List.mem_append_right _ (List.mem_singleton.mpr rfl), ?_⟩
        exact (hproper.closed t effects' rfl hs).resolve_left hbefore
    · cases hout

/-- In a run every move is proper if and only if none reads a frame whose text is cut
short; and without such frames the loop holds the output for ended only after a read
of nothing. -/
theorem malformed_output (serde : SerdeJson) (request : Request) :
    (∀ moves, (runs serde request).Observes moves →
      ((∀ move ∈ moves, Proper serde move) ↔
        ∀ move ∈ moves, cutShort serde move.source move.answer = false)) ∧
    (∀ s moves, (runs serde request).Reaches s moves →
      (∀ move ∈ moves, cutShort serde move.source move.answer = false) → s.guestClosed = true →
      ∃ move ∈ moves, readsGuest move.source = true ∧ move.answer = .read (.data [])) := by
  refine ⟨?_, fun _ _ => closed_by_read⟩
  intro moves h
  exact forall₂_congr fun move hmove => proper_move (h.moves move hmove)

/-! ## A frame that is cut short -/

/-- The reference codec, with the category of a text that ends inside an object. -/
def abrupt : SerdeJson where
  toVec := SerdeJson.reference.toVec
  fromSlice bytes :=
    if bytes = [Json.Ascii.openBrace] then
      .error ⟨.eof, "EOF while parsing an object at line 1 column 1"⟩
    else SerdeJson.reference.fromSlice bytes
  rejection := SerdeJson.reference.rejection

/-- One iteration in which only the guest has something to read. -/
def turn (waiting : Bytes) : List Answer :=
  [.clock false, .resident none, .read (.failed ⟨.wouldBlock, ""⟩), .write (.room 1),
    .write (.room 1), .read (.data waiting), .waited (.ok none), .polled (.ok ())]

/-- A guest that writes the frame of an open brace and goes on running. -/
def openBraceRun : List Answer := turn [0, 0, 0, 1] ++ turn [Json.Ascii.openBrace]

/-- The move leaves a loop that goes on with the output held for ended. -/
def disconnects (move : Move) : Bool :=
  match move.outcome with
  | .next t _ => t.guestClosed
  | .exit _ _ => false

/-- The loop takes the frame for the end of the output. -/
theorem open_brace_disconnects : ∃ moves, (runs abrupt Request.sample).Observes moves ∧
    (∃ move ∈ moves, disconnects move = true ∧ ¬ Proper abrupt move) := by
  have hstart : (runs abrupt Request.sample).Reaches
      { toGuest := fresh abrupt Request.sample.toValue } [] :=
    .start ⟨⟨_, enter_of_fits (by decide) (by decide +kernel), rfl⟩, rfl⟩
  have hplay : ((runs abrupt Request.sample).play
      { toGuest := fresh abrupt Request.sample.toValue } [] openBraceRun).map
        (fun moves => moves.any (fun move =>
          disconnects move && cutShort abrupt move.source move.answer)) =
      some true := by decide +kernel
  obtain ⟨moves, hrun, hany⟩ := Option.map_eq_some_iff.mp hplay
  obtain ⟨move, hmove, hboth⟩ := List.any_eq_true.mp hany
  rw [Bool.and_eq_true] at hboth
  have hobserves := hstart.observes_of_play hrun
  refine ⟨moves, hobserves, move, hmove, hboth.1, ?_⟩
  rw [proper_move (hobserves.moves move hmove), hboth.2]
  decide

end RubyEngine.Supervisor.Disconnect
