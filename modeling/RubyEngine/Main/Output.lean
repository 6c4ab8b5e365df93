import RubyEngine.Main
import RubyEngine.Serde.Reference
import RubyEngine.Supervisor.Streams

/-!
# The stream on standard output

The frames of the supervisor and the diagnostic of `main` share one descriptor.
As long as the supervisor does not fail inside a frame, the stream is whole
frames and at most the beginning of one more.
-/
namespace RubyEngine.Main.Output

open Json (Value)
open Transition (Outcome Machine)
open Supervisor (Effect Loop Accounts sentTo enqueuedTo)

/-- The bytes that standard output has accepted. -/
def stdout (history : List Effect) : Bytes := sentTo .host history

/-- A payload that `write_frame` puts into a frame. -/
def Encoded (serde : SerdeJson) (payload : Bytes) : Prop :=
  ∃ v, payload = serde.toVec v ∧ payload.length ≤ MAX_FRAME

/-- Nothing but whole frames. -/
def Whole (serde : SerdeJson) (stream : Bytes) : Prop :=
  ∃ payloads, (∀ p ∈ payloads, Encoded serde p) ∧ stream = Framing.concat payloads

/-- A frame of which some bytes are delivered and some are not. -/
def Cut (w : Writer) : Bool := decide (0 < w.offset) && w.pending

/-- The steps of the executable, but for a failure of the supervisor inside a frame. -/
def intact (serde : SerdeJson) : State → Answer → Bool
  | .running request s, .supervised answer =>
      match Supervisor.step serde request s answer with
      | some (.exit (.error _) _) => !Cut s.toHost
      | _ => true
  | _, _ => true

/-! ## The account of the writer -/

theorem encoded_map {serde : SerdeJson} {values : List Value}
    (h : ∀ v ∈ values, (serde.toVec v).length ≤ MAX_FRAME) :
    ∀ p ∈ values.map serde.toVec, Encoded serde p := by
  intro p hp
  obtain ⟨v, hv, rfl⟩ := List.mem_map.mp hp
  exact ⟨v, rfl, h v hv⟩

/-- The delivered bytes are whole frames exactly when the writer is not inside one. -/
theorem whole_iff {serde : SerdeJson} {w : Writer} {values : List Value} {sent : Bytes}
    (h : Accounts serde w values sent) : Whole serde sent ↔ Cut w = false := by
  rcases h.cut with ⟨rfl, rfl, hw⟩ | ⟨init, last, rfl, hw, rfl⟩
  · have hcut : Cut w = false := by simp [Cut, Writer.pending, hw]
    exact ⟨fun _ => hcut, fun _ => ⟨[], by simp, rfl⟩⟩
  · have hinit : ∀ v ∈ init, (serde.toVec v).length ≤ MAX_FRAME := fun v hv =>
      h.bounded v (List.mem_append_left _ hv)
    have hlast := h.bounded last (by simp)
    rw [wire_eq_concat hinit]
    constructor
    · rintro ⟨payloads, henc, heq⟩
      by_contra hcut
      simp only [Cut, Writer.pending, Bool.and_eq_false_imp, decide_eq_true_eq,
        decide_eq_false_iff_not, not_forall, not_not] at hcut
      obtain ⟨hpos, hlt⟩ := hcut
      rw [hw] at heq hlt
      refine Framing.concat_append_take_ne (hlast.trans_lt maxFrame_lt_word) hpos hlt _ _ ?_ ?_ heq
      · intro q hq
        obtain ⟨v, hv, rfl⟩ := List.mem_map.mp hq
        exact (hinit v hv).trans_lt maxFrame_lt_word
      · intro q hq
        obtain ⟨_, _, hlen⟩ := henc q hq
        exact hlen.trans_lt maxFrame_lt_word
    · intro hcut
      by_cases hpos : 0 < w.offset
      · have hidle : w.pending = false := by simpa [Cut, hpos] using hcut
        have hall : w.bytes.length ≤ w.offset := by
          simpa [Writer.pending] using hidle
        refine ⟨(init ++ [last]).map serde.toVec, encoded_map h.bounded, ?_⟩
        rw [List.take_of_length_le hall, hw]
        simp
      · have hzero : w.offset = 0 := by omega
        exact ⟨init.map serde.toVec, encoded_map hinit, by rw [hzero]; simp⟩

/-- The delivered bytes of any writer are frames and the beginning of one more. -/
theorem framed_of_accounts {serde : SerdeJson} {w : Writer} {values : List Value} {sent : Bytes}
    (h : Accounts serde w values sent) : Framing.Framed (Encoded serde) sent := by
  rcases h.cut with ⟨rfl, rfl, _⟩ | ⟨init, last, rfl, hw, rfl⟩
  · exact Framing.framed_nil _
  · have hinit : ∀ v ∈ init, (serde.toVec v).length ≤ MAX_FRAME := fun v hv =>
      h.bounded v (List.mem_append_left _ hv)
    rw [wire_eq_concat hinit, hw]
    exact Framing.framed_append_take (encoded_map hinit) ⟨last, rfl, h.bounded last (by simp)⟩ _

theorem framed_diagnostic {serde : SerdeJson} {stream : Bytes} (h : Whole serde stream)
    (execution message : String) (n : Nat) :
    Framing.Framed (Encoded serde)
      (stream ++ (diagnosticFrame serde execution message).take n) := by
  obtain ⟨payloads, henc, rfl⟩ := h
  unfold diagnosticFrame
  cases hw : writeFrame serde (failure execution "engine_error" message) with
  | error e => exact ⟨payloads, [], henc, by simp, Or.inl rfl⟩
  | ok bytes =>
    obtain ⟨hlen, rfl⟩ := writeFrame_ok hw
    exact Framing.framed_append_take henc ⟨_, rfl, hlen⟩ n

/-! ## The runs of the executable -/

/-- Where the executable stands: before the loop it has written nothing, and in
the loop its history ends with that of the supervisor. -/
inductive Stage (serde : SerdeJson) : State → List Effect → Prop where
  | early (st : State) (history : List Effect) : (∀ request s, st ≠ .running request s) →
      stdout history = [] → Stage serde st history
  | running (request : Request) (s : Loop) (before inside : List Effect) : stdout before = [] →
      (Supervisor.machine serde request).Reaches s inside →
      Stage serde (.running request s) (before ++ inside)
  | failed (request : Request) (s : Loop) (answer : Supervisor.Answer) (e : IoError)
      (before inside effects : List Effect) : stdout before = [] →
      (Supervisor.machine serde request).Reaches s inside →
      Supervisor.step serde request s answer = some (.exit (.error e) effects) →
      Stage serde (.diagnostic request.executionId e.message) (before ++ inside ++ effects)

theorem stdout_append (a b : List Effect) : stdout (a ++ b) = stdout a ++ stdout b :=
  Supervisor.sentTo_append .host a b

theorem fromFrame_ne_running (serde : SerdeJson) (value : Value) (request : Request) (s : Loop) :
    fromFrame serde value ≠ .running request s := by
  unfold fromFrame
  split
  · exact State.noConfusion
  · split <;> exact State.noConfusion

/-- Admission reads from the host and writes nothing. -/
theorem initialRequest_quiet {serde : SerdeJson} {reader : Reader} {expired : Bool}
    {outcome : ReadOutcome} {polled : Except IoError Unit} {t : State} {effects : List Effect}
    (h : initialRequest serde reader expired outcome polled = .next t effects) :
    stdout effects = [] ∧ ∀ request s, t ≠ .running request s := by
  unfold initialRequest at h
  split at h
  · cases h
    exact ⟨rfl, fun _ _ => State.noConfusion⟩
  · dsimp only at h
    split at h
    · cases h
      exact ⟨rfl, fun _ _ => State.noConfusion⟩
    · cases h
      exact ⟨rfl, fromFrame_ne_running serde _⟩
    · split at h
      · cases h
        exact ⟨rfl, fun _ _ => State.noConfusion⟩
      · split at h <;> cases h <;> exact ⟨rfl, fun _ _ => State.noConfusion⟩

theorem initialRequest_next (serde : SerdeJson) (reader : Reader) (expired : Bool)
    (outcome : ReadOutcome) (polled : Except IoError Unit) :
    ∃ t effects, initialRequest serde reader expired outcome polled = .next t effects := by
  unfold initialRequest
  split
  · exact ⟨_, _, rfl⟩
  · dsimp only
    split
    · exact ⟨_, _, rfl⟩
    · exact ⟨_, _, rfl⟩
    · split
      · exact ⟨_, _, rfl⟩
      · split <;> exact ⟨_, _, rfl⟩

theorem spawn_quiet {serde : SerdeJson} {request : Request} {t : State} {effects : List Effect}
    (h : spawn serde request = .next t effects) :
    stdout effects = [] ∧ ∀ request' s, t = .running request' s → request' = request ∧
      Supervisor.enter serde request = .ok s ∧ effects = [.enqueued .guest request.toValue] := by
  unfold spawn at h
  split at h
  · cases h
    exact ⟨rfl, fun _ _ => State.noConfusion⟩
  · next s hs =>
    cases h
    refine ⟨rfl, ?_⟩
    intro request' s' heq
    cases heq
    exact ⟨rfl, hs, rfl⟩

/-- Outside the supervisor a step writes nothing, and it enters the loop by `spawn` only. -/
theorem early_quiet {serde : SerdeJson} {st t : State} {answer : Answer} {effects : List Effect}
    (hne : ∀ request s, st ≠ .running request s)
    (h : step serde st answer = some (.next t effects)) :
    stdout effects = [] ∧ ∀ request s, t = .running request s →
      Supervisor.enter serde request = .ok s ∧ effects = [.enqueued .guest request.toValue] := by
  unfold step at h
  split at h
  · cases h
    exact ⟨rfl, fun _ _ => State.noConfusion⟩
  · cases h
    exact ⟨rfl, fun _ _ => State.noConfusion⟩
  · obtain ⟨hq, hrun⟩ := initialRequest_quiet (Option.some.inj h)
    exact ⟨hq, fun request s heq => absurd heq (hrun request s)⟩
  · obtain ⟨hq, hrun⟩ := spawn_quiet (Option.some.inj h)
    refine ⟨hq, ?_⟩
    intro request s heq
    obtain ⟨rfl, henter⟩ := hrun request s heq
    exact henter
  · cases h
    exact ⟨rfl, fun _ _ => State.noConfusion⟩
  · next request s _ => exact absurd rfl (hne request s)
  · cases h
  · cases h

/-- A step of the supervisor inside the executable. -/
theorem running_next {serde : SerdeJson} {request : Request} {s : Loop} {answer : Answer}
    {t : State} {effects : List Effect}
    (h : step serde (.running request s) answer = some (.next t effects)) :
    (∃ a s', Supervisor.step serde request s a = some (.next s' effects) ∧
      t = .running request s') ∨
    ∃ a e, answer = .supervised a ∧
      Supervisor.step serde request s a = some (.exit (.error e) effects) ∧
      t = .diagnostic request.executionId e.message := by
  cases answer with
  | supervised a =>
    obtain ⟨out, hout, hmap⟩ := Option.map_eq_some_iff.mp h
    unfold supervised at hmap
    split at hmap
    · cases hmap
      exact Or.inl ⟨a, _, hout, rfl⟩
    · cases hmap
    · cases hmap
      exact Or.inr ⟨a, _, rfl, hout, rfl⟩
  | opened | admitted | spawned | accepted => cases h

theorem stage_next {serde : SerdeJson} {st t : State} {answer : Answer}
    {history effects : List Effect} (h : Stage serde st history)
    (hstep : step serde st answer = some (.next t effects)) :
    Stage serde t (history ++ effects) := by
  cases h with
  | early _ _ hne hnil =>
    obtain ⟨hq, hrun⟩ := early_quiet hne hstep
    by_cases ht : ∃ request s, t = .running request s
    · obtain ⟨request, s, rfl⟩ := ht
      obtain ⟨hs, rfl⟩ := hrun request s rfl
      exact .running request s _ _ hnil (.start ⟨hs, rfl⟩)
    · refine .early _ _ (fun request s heq => ht ⟨request, s, heq⟩) ?_
      rw [stdout_append, hnil, hq, List.append_nil]
  | running request s before inside hbefore hreach =>
    rw [List.append_assoc]
    rcases running_next hstep with ⟨a, s', hs, rfl⟩ | ⟨a, e, rfl, hs, rfl⟩
    · exact .running request _ _ _ hbefore (.next hreach hs)
    · rw [← List.append_assoc]
      exact .failed request s a _ _ _ _ hbefore hreach hs
  | failed => cases answer <;> cases hstep

theorem stage_reaches {serde : SerdeJson} {st : State} {history : List Effect}
    (h : (machine serde).Reaches st history) : Stage serde st history := by
  refine h.invariant ?_ ?_
  · rintro st history ⟨rfl, rfl⟩
    exact .early _ _ (fun _ _ => State.noConfusion) rfl
  · intro st answer t history effects hi hstep
    exact stage_next hi hstep

/-- The account of the supervisor's writer at the end of a step that fails: no
byte is delivered by it. -/
theorem accounts_of_error {serde : SerdeJson} {request : Request} {s : Loop}
    {answer : Supervisor.Answer} {e : IoError} {inside effects : List Effect}
    (hreach : (Supervisor.machine serde request).Reaches s inside)
    (hstep : Supervisor.step serde request s answer = some (.exit (.error e) effects)) :
    Accounts serde s.toHost (enqueuedTo .host inside) (sentTo .host (inside ++ effects)) := by
  have hb := (Supervisor.balanced_reaches hreach).toHost
  have hnone : sentTo .host effects = [] := by
    generalize hres : (Except.error e : Except IoError Unit) = result at hstep
    cases Supervisor.step_cases hstep with
    | expiredPending | done => cases hres
    | lastSent outcome _ => simp [(Writer.send_error hres.symm).2]
    | failed _ _ _ _ hquiet _ => exact Supervisor.sentTo_quiet hquiet .host
  rw [Supervisor.sentTo_append, hnone, List.append_nil]
  exact hb

/-- When the supervisor fails, standard output holds whole frames exactly when it
is not inside one. -/
theorem whole_of_error {serde : SerdeJson} {request : Request} {s : Loop}
    {answer : Supervisor.Answer} {e : IoError} {before inside effects : List Effect}
    (hbefore : stdout before = []) (hreach : (Supervisor.machine serde request).Reaches s inside)
    (hstep : Supervisor.step serde request s answer = some (.exit (.error e) effects)) :
    Whole serde (stdout (before ++ inside ++ effects)) ↔ Cut s.toHost = false := by
  have hout : stdout (before ++ inside ++ effects) = sentTo .host (inside ++ effects) := by
    rw [List.append_assoc, stdout_append, hbefore, List.nil_append]
    rfl
  rw [hout]
  exact whole_iff (accounts_of_error hreach hstep)

/-- Where the diagnostic of `main` goes, in a run without a failure inside a frame. -/
theorem whole_next {serde : SerdeJson} {st t : State} {answer : Answer}
    {history effects : List Effect} (h : Stage serde st history)
    (hallowed : intact serde st answer = true)
    (hstep : step serde st answer = some (.next t effects)) {execution message : String}
    (ht : t = .diagnostic execution message) : Whole serde (stdout (history ++ effects)) := by
  cases h with
  | early _ _ hne hnil =>
    obtain ⟨hq, _⟩ := early_quiet hne hstep
    exact ⟨[], by simp, by rw [stdout_append, hnil, hq]; rfl⟩
  | running request s before inside hbefore hreach =>
    rcases running_next hstep with ⟨_, _, _, rfl⟩ | ⟨a, e, rfl, hs, _⟩
    · cases ht
    · simp only [intact, hs, Bool.not_eq_true'] at hallowed
      exact (whole_of_error hbefore hreach hs).mpr hallowed
  | failed => cases answer <;> cases hstep

theorem whole_reaches {serde : SerdeJson} {execution message : String} {history : List Effect}
    (h : ((machine serde).restrict (intact serde)).Reaches (.diagnostic execution message)
      history) : Whole serde (stdout history) := by
  cases h with
  | start hs => cases hs.1
  | next hreach hstep =>
    obtain ⟨hallowed, hs⟩ := Machine.step_of_restrict hstep
    exact whole_next (stage_reaches hreach.of_restrict) hallowed hs rfl

theorem framed_stage {serde : SerdeJson} {st : State} {history : List Effect}
    (h : Stage serde st history) (hwhole : ∀ execution message,
      st = .diagnostic execution message → Whole serde (stdout history)) :
    Framing.Framed (Encoded serde) (stdout history) := by
  cases h with
  | early _ _ _ hnil =>
    rw [hnil]
    exact Framing.framed_nil _
  | running request s before inside hbefore hreach =>
    rw [stdout_append, hbefore, List.nil_append]
    exact framed_of_accounts (Supervisor.balanced_reaches hreach).toHost
  | failed =>
    obtain ⟨payloads, henc, heq⟩ := hwhole _ _ rfl
    exact ⟨payloads, [], henc, by rw [heq, List.append_nil], Or.inl rfl⟩

/-- A successful end of the supervisor, of which nothing else is written. -/
theorem framed_end {serde : SerdeJson} {request : Request} {s : Loop}
    {answer : Supervisor.Answer} {before inside effects : List Effect}
    (hbefore : stdout before = []) (hreach : (Supervisor.machine serde request).Reaches s inside)
    (hstep : Supervisor.step serde request s answer = some (.exit (.ok ()) effects)) :
    Framing.Framed (Encoded serde) (stdout (before ++ inside ++ effects)) := by
  have hb := (Supervisor.balanced_reaches hreach).toHost
  rw [List.append_assoc, stdout_append, hbefore, List.nil_append]
  simp only [stdout, Supervisor.sentTo_append]
  generalize hres : (Except.ok () : Except IoError Unit) = result at hstep
  cases Supervisor.step_cases hstep with
  | expiredPending => simpa using framed_of_accounts hb
  | lastSent outcome _ => simpa using framed_of_accounts (hb.send outcome)
  | done outcome _ _ _ _ => simpa using framed_of_accounts (hb.send outcome)
  | failed => cases hres

/-- The executable ends with the supervisor, or with its own diagnostic. -/
theorem exit_cases {serde : SerdeJson} {st : State} {answer : Answer} {code : Nat}
    {effects : List Effect} (h : step serde st answer = some (.exit code effects)) :
    (∃ request s a, st = .running request s ∧
      Supervisor.step serde request s a = some (.exit (.ok ()) effects)) ∨
    ∃ execution message n, st = .diagnostic execution message ∧
      effects = [.sent .host ((diagnosticFrame serde execution message).take n)] := by
  unfold step at h
  split at h
  · cases h
  · cases h
  · next reader expired outcome polled =>
    obtain ⟨t, effects, hnext⟩ := initialRequest_next serde reader expired outcome polled
    rw [hnext] at h
    cases h
  · unfold spawn at h
    split at h <;> cases h
  · cases h
  · next request s a =>
    obtain ⟨out, hout, hmap⟩ := Option.map_eq_some_iff.mp h
    unfold supervised at hmap
    split at hmap
    · cases hmap
    · cases hmap
      exact Or.inl ⟨request, s, a, rfl, hout⟩
    · cases hmap
  · next execution message n =>
    cases h
    exact Or.inr ⟨execution, message, n, rfl, rfl⟩
  · cases h

theorem framed_exit {serde : SerdeJson} {st : State} {answer : Answer} {code : Nat}
    {history effects : List Effect} (h : Stage serde st history)
    (hwhole : ∀ execution message, st = .diagnostic execution message →
      Whole serde (stdout history))
    (hstep : step serde st answer = some (.exit code effects)) :
    Framing.Framed (Encoded serde) (stdout (history ++ effects)) := by
  rcases exit_cases hstep with ⟨request, s, a, rfl, hs⟩ | ⟨execution, message, n, rfl, rfl⟩
  · cases h with
    | early _ _ hne _ => exact absurd rfl (hne request s)
    | running _ _ before inside hbefore hreach => exact framed_end hbefore hreach hs
  · have hout : stdout [.sent .host ((diagnosticFrame serde execution message).take n)] =
        (diagnosticFrame serde execution message).take n := by simp [stdout]
    rw [stdout_append, hout]
    exact framed_diagnostic (hwhole _ _ rfl) execution message n

/-- In every run in which the supervisor never fails inside a frame, standard
output holds whole frames and at most the beginning of one more, and the
diagnostic of `main` starts behind whole frames. A failure inside a frame is just
what puts the diagnostic anywhere else. -/
theorem output_integrity (serde : SerdeJson) :
    (∀ history, ((machine serde).restrict (intact serde)).Observes history →
      Framing.Framed (Encoded serde) (stdout history)) ∧
    (∀ execution message history,
      ((machine serde).restrict (intact serde)).Reaches (.diagnostic execution message) history →
      Whole serde (stdout history)) ∧
    (∀ request s history answer e effects,
      (machine serde).Reaches (.running request s) history →
      Supervisor.step serde request s answer = some (.exit (.error e) effects) →
      (Whole serde (stdout (history ++ effects)) ↔ Cut s.toHost = false)) := by
  refine ⟨?_, fun _ _ _ h => whole_reaches h, ?_⟩
  · rintro history (⟨st, h⟩ | ⟨code, h⟩)
    · exact framed_stage (stage_reaches h.of_restrict) (fun _ _ heq => whole_reaches (heq ▸ h))
    · cases h with
      | exit h hstep =>
        exact framed_exit (stage_reaches h.of_restrict) (fun _ _ heq => whole_reaches (heq ▸ h))
          (Machine.step_of_restrict hstep).2
  · intro request s history answer e effects hreach hstep
    cases stage_reaches hreach with
    | early _ _ hne _ => exact absurd rfl (hne request s)
    | running _ _ before inside hbefore hinside => exact whole_of_error hbefore hinside hstep

/-- The guest outgrows its memory, and standard output takes that diagnostic in two pieces. -/
def wholeRun : List Answer :=
  let request := Framing.frame (SerdeJson.reference.toVec Request.sample.toValue)
  let busy : IoError := ⟨.wouldBlock, ""⟩
  [.opened (.ok ()), .admitted false (.data request) (.ok ()),
    .admitted false (.data (request.drop 4)) (.ok ()), .spawned (.ok ()),
    .supervised (.clock false), .supervised (.resident (some (Supervisor.MEMORY_CEILING + 1))),
    .supervised (.read (.failed busy)), .supervised (.write (.failed busy)),
    .supervised (.write (.room 2)), .supervised (.read (.failed busy)),
    .supervised (.waited (.ok none)), .supervised (.polled (.ok ())),
    .supervised (.clock false), .supervised (.resident none), .supervised (.read (.failed busy)),
    .supervised (.write (.failed busy)), .supervised (.write (.room CHUNK))]

theorem output_integrity_sample : ∃ history,
    ((machine SerdeJson.reference).restrict (intact SerdeJson.reference)).play .opening [] wholeRun =
      some history ∧
    stdout history = Framing.frame (SerdeJson.reference.toVec
      (failure "e" "memory_limit" "Guest process memory ceiling exceeded")) ∧
    Framing.Framed (Encoded SerdeJson.reference) (stdout history) := by
  have hstart : ((machine SerdeJson.reference).restrict (intact SerdeJson.reference)).Reaches
      .opening [] := .start ⟨rfl, rfl⟩
  have hplay : (((machine SerdeJson.reference).restrict (intact SerdeJson.reference)).play
      .opening [] wholeRun).map stdout = some (Framing.frame (SerdeJson.reference.toVec
        (failure "e" "memory_limit" "Guest process memory ceiling exceeded"))) := by
    decide +kernel
  obtain ⟨history, hrun, hout⟩ := Option.map_eq_some_iff.mp hplay
  exact ⟨history, hrun, hout,
    (output_integrity SerdeJson.reference).1 history (hstart.observes_of_play hrun)⟩

/-! ## A failure inside a frame -/

/-- The guest outgrows its memory, standard output takes two bytes of that
diagnostic, and the host goes away. -/
def tornRun : List Answer :=
  let request := Framing.frame (SerdeJson.reference.toVec Request.sample.toValue)
  let busy : IoError := ⟨.wouldBlock, ""⟩
  [.opened (.ok ()), .admitted false (.data request) (.ok ()),
    .admitted false (.data (request.drop 4)) (.ok ()), .spawned (.ok ()),
    .supervised (.clock false), .supervised (.resident (some (Supervisor.MEMORY_CEILING + 1))),
    .supervised (.read (.failed busy)), .supervised (.write (.failed busy)),
    .supervised (.write (.room 2)), .supervised (.read (.failed busy)),
    .supervised (.waited (.ok none)), .supervised (.polled (.ok ())),
    .supervised (.clock false), .supervised (.resident none), .supervised (.read (.data [])),
    .accepted 2]

/-- No frame of an encoding announces an empty payload. -/
theorem encoded_frame {serde : SerdeJson} (h : serde.RoundTrips) {payload : Bytes}
    (henc : Encoded serde payload) (rest : Bytes) :
    fromBe32 (Framing.frame payload ++ rest) ≠ 0 := by
  obtain ⟨v, rfl, hlen⟩ := henc
  rw [Framing.fromBe32_frame (hlen.trans_lt maxFrame_lt_word)]
  intro hzero
  exact h.nonempty v (List.eq_nil_of_length_eq_zero hzero)

theorem not_framed_zeros {serde : SerdeJson} (h : serde.RoundTrips) :
    ¬ Framing.Framed (Encoded serde) [0, 0, 0, 0] := by
  rintro ⟨payloads, tail, henc, heq, htail⟩
  cases payloads with
  | nil =>
    rw [Framing.concat_nil, List.nil_append] at heq
    subst heq
    rcases htail with hnil | ⟨payload, hp, rest, _, hframe⟩
    · cases hnil
    · have hne := encoded_frame h hp []
      rw [List.append_nil, ← hframe] at hne
      exact hne rfl
  | cons p ps =>
    rw [Framing.concat_cons, List.append_assoc] at heq
    have hne := encoded_frame h (henc p (by simp)) (Framing.concat ps ++ tail)
    rw [← heq] at hne
    exact hne rfl

/-- In this run standard output ends with a header that no frame has. -/
theorem torn_output : ∃ history, (machine SerdeJson.reference).play .opening [] tornRun =
      some history ∧ (machine SerdeJson.reference).Observes history ∧
    stdout history = [0, 0, 0, 0] ∧
    ¬ Framing.Framed (Encoded SerdeJson.reference) (stdout history) := by
  have hstart : (machine SerdeJson.reference).Reaches .opening [] := .start ⟨rfl, rfl⟩
  have hplay : ((machine SerdeJson.reference).play .opening [] tornRun).map stdout =
      some [0, 0, 0, 0] := by decide +kernel
  obtain ⟨history, hrun, hout⟩ := Option.map_eq_some_iff.mp hplay
  refine ⟨history, hrun, hstart.observes_of_play hrun, hout, ?_⟩
  rw [hout]
  exact not_framed_zeros SerdeJson.reference_roundTrips

end RubyEngine.Main.Output
