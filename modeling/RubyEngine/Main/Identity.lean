import RubyEngine.Client.Fidelity
import RubyEngine.Main.Output
import RubyEngine.Transport.ReaderRefinement

/-!
# The identity of the frames

The frames on standard output come from the guest, from the supervisor and from
`main`. All of them carry the identity of the request that the initial frame
deserializes to; before that `main` knows of none.
-/
namespace RubyEngine.Main.Identity

open Json (Doc Value)
open Transition (Outcome Machine)
open Supervisor (Effect Loop enqueuedTo delivered)
open Output (stdout intact Whole)
open Client (Php Thrown readable decodeDepth narrowNumber)
open Client.Execute (Invocation Vars Execution incoming onEvent onPayload)

/-- A frame that the client of this execution reads. -/
structure Tagged (execution : String) (v : Value) : Prop where
  protocol : (v.index "protocol").asStr = some PROTOCOL
  identity : (v.index "execution_id").asStr = some execution

/-- The runs of the executable from where the initial frame has been decoded. -/
def continuations (serde : SerdeJson) (value : Value) : Machine State Answer Effect Nat where
  start st history := ∃ reader outcome polled before effects,
    (machine serde).Reaches (.admission reader) before ∧
      (reader.receive serde outcome).result = .ok (some value) ∧
      step serde (.admission reader) (.admitted false outcome polled) =
        some (.next st effects) ∧ history = before ++ effects
  step := step serde

/-- The value is that of a frame which standard output takes to its end. -/
inductive Written (serde : SerdeJson) (value : Value) : Value → Prop where
  | loop {history : List Effect} {v : Value} :
      ((∃ st, (continuations serde value).Reaches st history) ∨
        (continuations serde value).Ends 0 history) →
      v ∈ delivered serde (enqueuedTo .host history) (stdout history).length → Written serde value v
  | diagnostic {history : List Effect} {execution message : String} {bytes : Bytes} {n : Nat} :
      (continuations serde value).Reaches (.diagnostic execution message) history →
      writeFrame serde (failure execution "engine_error" message) = .ok bytes →
      step serde (.diagnostic execution message) (.accepted n) =
        some (.exit 1 [.sent .host bytes]) →
      Written serde value (failure execution "engine_error" message)

/-- The error of the deserialization. -/
def rejection (serde : SerdeJson) (value : Value) : Value :=
  failure "" "engine_error" (serde.rejection value)

/-- The value deserializes, or the identity is the empty one, or the error of the
deserialization is too long for a frame. -/
def Recognized (serde : SerdeJson) (execution : String) (value : Value) : Prop :=
  (∃ request, Request.ofValue value = some request) ∨ execution = "" ∨
    MAX_FRAME < (serde.toVec (rejection serde value)).length

/-! ## What the executable knows -/

/-- The state of the executable, and the identity that it will use. -/
def Knows (execution : String) : State → Prop
  | .opening | .admission _ => False
  | .spawning request | .running request _ => request.executionId = execution
  | .diagnostic known _ => known = execution

variable {serde : SerdeJson} {value : Value} {execution : String}

theorem index_lookup {key : String} {s : String} (h : (value.index key).asStr = some s) :
    ∃ entries, value.doc = .object entries ∧
      SortedMap.lookup key entries = some (.string s) := by
  unfold Value.index Json.Doc.index at h
  split at h
  · next entries hdoc =>
    refine ⟨entries, hdoc, ?_⟩
    cases hl : SortedMap.lookup key entries with
    | none =>
      rw [hl] at h
      cases h
    | some d =>
      rw [hl] at h
      cases d with
      | string t => rw [Option.some.inj h]
      | null | bool | number | array | object => cases h
  · cases h

/-- A request has the identity that stands in the object it comes from. -/
theorem executionId_ofValue {request : Request} (hr : Request.ofValue value = some request)
    (hv : (value.index "execution_id").asStr = some execution) :
    request.executionId = execution := by
  obtain ⟨entries, hdoc, hlookup⟩ := index_lookup hv
  simp only [Request.ofValue, hdoc, structFields, Option.bind_eq_bind, Option.bind_eq_some_iff,
    Option.ite_none_right_eq_some, Option.some.injEq, Option.pure_def] at hr
  obtain ⟨fields, ⟨_, rfl⟩, _, _, _, _, id, hid, _, _, _, _, _, _, _, _, _, _, _, _, rfl⟩ := hr
  rw [required, hlookup] at hid
  exact (Option.some.inj hid).symm

theorem tagged_failure (execution kind message : String) :
    Tagged execution (failure execution kind message) := by
  constructor <;> simp [failure, SortedMap.lookup, Json.Doc.asStr]

/-- What a step of the supervisor hands to the host is tagged. -/
theorem tagged_step {request : Request} {s : Loop} {answer : Supervisor.Answer}
    {out : Supervisor.Next} (h : Supervisor.step serde request s answer = some out) :
    ∀ v ∈ enqueuedTo .host out.effects, Tagged request.executionId v := by
  have hc := Supervisor.step_cases h
  cases hc with
  | expired | ceiling | childExited =>
    simp only [Outcome.effects]
    intro v hv
    simp only [Supervisor.enqueuedTo_cons, Supervisor.enqueuedTo_nil, ↓reduceIte,
      List.append_nil, List.nil_append, List.mem_singleton] at hv
    subst hv
    exact tagged_failure _ _ _
  | event outcome w s' _ _ _ _ _ hprotocol hidentity _ _ =>
    intro v hv
    obtain rfl : v = w := by simpa [Outcome.effects] using hv
    exact ⟨hprotocol, hidentity⟩
  | idle | expiredPending | lastSent | hostTook | reply | guestSent | hostSent | done | guestTook |
    guestEof => simp [Outcome.effects]
  | failed _ _ _ _ hquiet _ =>
    simp only [Outcome.effects, Supervisor.enqueuedTo_quiet hquiet .host]
    simp

/-! ## Runs after the initial frame -/

/-- What the host has been handed so far, and the identity of whatever comes. -/
structure Consistent (execution : String) (st : State) (history : List Effect) : Prop where
  knows : Knows execution st
  tagged : ∀ v ∈ enqueuedTo .host history, Tagged execution v

/-- The initial frame is not complete. -/
def Reading (st : State) : Prop := st = .opening ∨ ∃ reader, st = .admission reader

theorem initialRequest_enqueues {reader : Reader} {expired : Bool} {outcome : ReadOutcome}
    {polled : Except IoError Unit} {t : State} {effects : List Effect}
    (h : initialRequest serde reader expired outcome polled = .next t effects) :
    enqueuedTo .host effects = [] := by
  unfold initialRequest at h
  split at h
  · cases h
    rfl
  · dsimp only at h
    split at h
    · cases h
      rfl
    · cases h
      rfl
    · split at h
      · cases h
        rfl
      · split at h <;> cases h <;> rfl

theorem reading_next {st t : State} {answer : Answer} {effects : List Effect}
    (hstep : step serde st answer = some (.next t effects)) (ht : Reading t) :
    Reading st ∧ enqueuedTo .host effects = [] := by
  cases st with
  | opening =>
    cases answer with
    | opened result =>
      cases result with
      | ok u =>
        cases hstep
        exact ⟨.inl rfl, rfl⟩
      | error e =>
        cases hstep
        rcases ht with ht | ⟨_, ht⟩ <;> cases ht
    | admitted | spawned | supervised | accepted => cases hstep
  | admission reader =>
    cases answer with
    | admitted expired outcome polled =>
      exact ⟨.inr ⟨reader, rfl⟩, initialRequest_enqueues (Option.some.inj hstep)⟩
    | opened | spawned | supervised | accepted => cases hstep
  | spawning request =>
    cases answer with
    | spawned result =>
      cases result with
      | ok u =>
        simp only [step, spawn, Option.some.injEq] at hstep
        split at hstep <;> cases hstep <;> rcases ht with ht | ⟨_, ht⟩ <;> cases ht
      | error message =>
        cases hstep
        rcases ht with ht | ⟨_, ht⟩ <;> cases ht
    | opened | admitted | supervised | accepted => cases hstep
  | running request s =>
    rcases Output.running_next hstep with ⟨_, _, _, rfl⟩ | ⟨_, _, _, _, rfl⟩ <;>
      rcases ht with ht | ⟨_, ht⟩ <;> cases ht
  | diagnostic => cases answer <;> cases hstep

/-- The initial frame is read before the host is handed anything. -/
theorem quiet_reaches {st : State} {history : List Effect}
    (h : (machine serde).Reaches st history) : Reading st → enqueuedTo .host history = [] := by
  refine h.invariant (I := fun st history => Reading st → enqueuedTo .host history = []) ?_ ?_
  · rintro st history ⟨_, rfl⟩ _
    rfl
  · intro st answer t history effects hi hstep ht
    obtain ⟨hbefore, hnone⟩ := reading_next hstep ht
    rw [Supervisor.enqueuedTo_append, hi hbefore, hnone, List.append_nil]

/-- The state behind the initial frame, and nothing handed to the host yet. -/
theorem continuations_start {st : State} {history : List Effect}
    (h : (continuations serde value).start st history) :
    st = fromFrame serde value ∧ enqueuedTo .host history = [] := by
  obtain ⟨reader, outcome, polled, before, effects, hreach, hread, hstep, rfl⟩ := h
  have hbefore := quiet_reaches hreach (.inr ⟨reader, rfl⟩)
  simp only [step, initialRequest, hread, Option.some.injEq] at hstep
  cases hstep
  exact ⟨rfl, by simp [hbefore]⟩

theorem consistent_next {st t : State} {answer : Answer} {history effects : List Effect}
    (h : Consistent execution st history)
    (hstep : step serde st answer = some (.next t effects)) :
    Consistent execution t (history ++ effects) := by
  obtain ⟨hknows, htagged⟩ := h
  have hadd : ∀ {more : List Effect}, (∀ v ∈ enqueuedTo .host more, Tagged execution v) →
      ∀ v ∈ enqueuedTo .host (history ++ more), Tagged execution v := by
    intro more hmore v hv
    rw [Supervisor.enqueuedTo_append] at hv
    exact (List.mem_append.mp hv).elim (htagged v) (hmore v)
  cases st with
  | opening | admission => exact hknows.elim
  | spawning request =>
    obtain rfl : request.executionId = execution := hknows
    cases answer with
    | spawned result =>
      cases result with
      | ok u =>
        simp only [step, spawn, Option.some.injEq] at hstep
        split at hstep <;> cases hstep <;> exact ⟨rfl, hadd (by simp)⟩
      | error message =>
        cases hstep
        exact ⟨rfl, hadd (by simp)⟩
    | opened | admitted | supervised | accepted => cases hstep
  | running request s =>
    obtain rfl : request.executionId = execution := hknows
    rcases Output.running_next hstep with ⟨a, s', hs, rfl⟩ | ⟨a, e, rfl, hs, rfl⟩
    · exact ⟨rfl, hadd (tagged_step hs)⟩
    · exact ⟨rfl, hadd (tagged_step hs)⟩
  | diagnostic => cases answer <;> cases hstep

theorem consistent_reaches {st : State} {history : List Effect}
    (hstart : Knows execution (fromFrame serde value))
    (h : (continuations serde value).Reaches st history) : Consistent execution st history := by
  refine h.invariant ?_ ?_
  · intro st history hst
    obtain ⟨rfl, hnone⟩ := continuations_start hst
    exact ⟨hstart, by simp [hnone]⟩
  · intro st answer t history effects hi hstep
    exact consistent_next hi hstep

/-- The end of a run without a diagnostic of `main`. -/
theorem tagged_end {history : List Effect} (hstart : Knows execution (fromFrame serde value))
    (h : (continuations serde value).Ends 0 history) :
    ∀ v ∈ enqueuedTo .host history, Tagged execution v := by
  generalize hcode : 0 = code at h
  cases h with
  | exit hreach hstep =>
    obtain ⟨hknows, htagged⟩ := consistent_reaches hstart hreach
    rcases Output.exit_cases hstep with ⟨request, s, a, rfl, hs⟩ | ⟨known, message, n, rfl, rfl⟩
    · obtain rfl : request.executionId = execution := hknows
      intro v hv
      rw [Supervisor.enqueuedTo_append] at hv
      exact (List.mem_append.mp hv).elim (htagged v) (tagged_step hs v)
    · intro v hv
      exact htagged v (by simpa using hv)

/-- Where the identity is known, every frame has it. -/
theorem tagged_written {v : Value} (hstart : Knows execution (fromFrame serde value))
    (h : Written serde value v) : Tagged execution v := by
  cases h with
  | @loop history v hrun hv =>
    have hmem := (Supervisor.delivered_front serde _ _).subset hv
    rcases hrun with ⟨st, hreach⟩ | hend
    · exact (consistent_reaches hstart hreach).tagged v hmem
    · exact tagged_end hstart hend v hmem
  | @diagnostic history known message bytes n hreach _ _ =>
    obtain rfl : known = execution := (consistent_reaches hstart hreach).knows
    exact tagged_failure _ _ _

theorem knows_fromFrame {request : Request} (hr : Request.ofValue value = some request) :
    Knows request.executionId (fromFrame serde value) := by
  unfold fromFrame
  rw [hr]
  dsimp only
  split <;> exact rfl

/-- A value that does not deserialize leads to one diagnostic, without an identity. -/
theorem reaches_rejected (hr : Request.ofValue value = none) {st : State} {history : List Effect}
    (h : (continuations serde value).Reaches st history) :
    st = .diagnostic "" (serde.rejection value) ∧ enqueuedTo .host history = [] := by
  refine h.invariant (I := fun st history =>
    st = .diagnostic "" (serde.rejection value) ∧ enqueuedTo .host history = []) ?_ ?_
  · intro st history hst
    obtain ⟨rfl, hnone⟩ := continuations_start hst
    exact ⟨by simp [fromFrame, hr], hnone⟩
  · rintro st answer t history effects ⟨rfl, _⟩ hstep
    cases answer <;> cases hstep

/-! ## The client -/

section Client

variable {php : Php} {inv : Invocation}

/-- What `execute` throws at a frame with another identity. -/
def mismatch : Thrown := .runtime "Ruby engine identity/protocol mismatch."

/-- The client reads an event from the payload, and does not throw it out for its identity. -/
def Heard (php : Php) (inv : Invocation) (payload : Bytes) : Prop :=
  ∃ event, incoming php payload = .ok event ∧ ∀ vars, onEvent php inv vars event ≠ .error mismatch

/-- The payload ends the call with a diagnostic of this text. -/
def Reports (php : Php) (inv : Invocation) (payload : Bytes) (message : String) : Prop :=
  ∃ entries, (Doc.object entries).index "type" = .string "engine_error" ∧
    (Doc.object entries).index "message" = .string message ∧
    ∀ vars effects, onPayload php inv vars payload effects = .exit
      { executionId := inv.executionId, result := .null, error := some (.engine entries),
        logs := vars.logs, usage := .array [], validatedOnly := inv.validateOnly } effects

theorem onLogEvent_error {vars : Vars} {event : Doc} :
    Client.Execute.onLogEvent php inv vars event ≠ .error mismatch := by
  unfold Client.Execute.onLogEvent
  split
  · next values _ =>
    rw [Php.encodeRead]
    split
    · simp only [bind, Except.bind]
      split
      · exact fun h => absurd (Except.error.inj h) (by decide)
      · exact fun h => by cases h
    · exact fun h => absurd (Except.error.inj h) (by decide)
  · exact fun h => absurd (Except.error.inj h) (by decide)

theorem onCallEvent_error {vars : Vars} {event : Doc} :
    Client.Execute.onCallEvent inv vars event ≠ .error mismatch := by
  have hinvalid : (Except.error Client.Execute.invalidCall : Except Thrown Client.Execute.After) ≠
      .error mismatch := fun h => absurd (Except.error.inj h) (by decide)
  unfold Client.Execute.onCallEvent
  dsimp only
  split
  · exact hinvalid
  · split
    · split
      · exact fun h => by cases h
      · exact hinvalid
    · exact hinvalid

theorem onCompleted_error {vars : Vars} {event : Doc} :
    Client.Execute.onCompleted inv vars event ≠ .error mismatch := by
  unfold Client.Execute.onCompleted
  dsimp only
  split
  · exact fun h => by cases h
  · exact fun h => by cases h
  · exact fun h => absurd (Except.error.inj h) (by decide)

/-- Only the identity and the protocol decide about this exception. -/
theorem onEvent_mismatch {vars : Vars} {event : Doc} :
    onEvent php inv vars event = .error mismatch ↔
      ¬ ((event.index "protocol").asStr = some PROTOCOL ∧
        (event.index "execution_id").asStr = some inv.executionId) := by
  rw [not_and_or, onEvent]
  by_cases hother : (event.index "protocol").asStr ≠ some PROTOCOL ∨
      (event.index "execution_id").asStr ≠ some inv.executionId
  · rw [if_pos hother]
    exact iff_of_true rfl hother
  · rw [if_neg hother]
    refine iff_of_false ?_ hother
    split
    · exact onLogEvent_error
    split
    · exact onCallEvent_error
    split
    · exact onCompleted_error
    · exact fun h => absurd (Except.error.inj h) (by decide)

theorem asStr_mapNumbers (f : Json.Number → Json.Number) (d : Doc) :
    (d.mapNumbers f).asStr = d.asStr := by
  cases d <;> rfl

/-- A tagged frame that `json_decode` can read passes the check of the client. -/
theorem tagged_heard {v : Value} (hreads : php.Reads serde) (htagged : Tagged inv.executionId v)
    (hreadable : readable v.doc = true) (hnesting : v.doc.nesting ≤ decodeDepth) :
    Heard php inv (serde.toVec v) := by
  obtain ⟨entries, hentries, -⟩ := index_lookup htagged.protocol
  obtain ⟨g, members, hdecode, hindex⟩ :=
    Client.Execute.decoded_object hreads hentries hreadable hnesting
  refine ⟨.object members, by rw [incoming, hdecode], fun vars => ?_⟩
  rw [Ne, onEvent_mismatch, not_not, hindex, hindex]
  simp only [asStr_mapNumbers]
  exact ⟨htagged.protocol, htagged.identity⟩

theorem failure_index (execution kind message : String) :
    (failure execution kind message).index "protocol" = .string PROTOCOL ∧
    (failure execution kind message).index "execution_id" = .string execution ∧
    (failure execution kind message).index "kind" = .string "completed" ∧
    (failure execution kind message).index "result" = .null ∧
    (failure execution kind message).index "usage" = .null ∧
    (failure execution kind message).index "error" =
      .object [("message", .string message), ("type", .string kind)] := by
  have hdoc : (Value.object [("type", .string kind), ("message", .string message)]).doc =
      .object [("message", .string message), ("type", .string kind)] := by
    have horder : "message" < "type" := by decide
    show Doc.object (SortedMap.ofList _) = _
    simp [SortedMap.ofList, SortedMap.insert, horder]
  simp [failure, SortedMap.lookup, hdoc]

theorem readable_failure (execution kind message : String) :
    readable (failure execution kind message).doc = true := by
  have hstring : ∀ text, readable (.string text) = true := fun _ => rfl
  rw [failure, Client.readable_valueObject (by simp)]
  simp only [List.forall_mem_cons, Value.doc_string, hstring]
  rw [Client.readable_valueObject (by simp)]
  simp [readable, Doc.every, Client.hasReadableNames]

theorem nesting_failure (execution kind message : String) :
    (failure execution kind message).doc.nesting ≤ 2 := by
  have herror : (Value.object [("type", .string kind), ("message", .string message)]).doc.nesting ≤
      1 := by
    refine Value.nesting_object ?_
    simp [Doc.nesting]
  refine Value.nesting_object ?_
  simpa [Doc.nesting] using herror

/-- The client reads the diagnostic of an execution whose identity it carries. -/
theorem failure_reported (hreads : php.Reads serde) (message : String) :
    Reports php inv (serde.toVec (failure inv.executionId "engine_error" message)) message := by
  obtain ⟨hprotocol, hid, hkind, hresult, husage, herror⟩ :=
    failure_index inv.executionId "engine_error" message
  obtain ⟨g, members, hdecode, hindex⟩ := Client.Execute.decoded_object hreads rfl
    (readable_failure _ _ _) ((nesting_failure _ _ _).trans (by decide))
  refine ⟨[("message", .string message), ("type", .string "engine_error")], rfl, rfl, ?_⟩
  intro vars effects
  refine Client.Execute.onPayload_finish hdecode ?_
  rw [Client.Execute.onEvent_completed]
  · rw [Client.Execute.onCompleted, hindex "error", herror, hindex "result", hresult,
      hindex "usage", husage]
    rfl
  · rw [hindex, hprotocol]
    rfl
  · rw [hindex, hid]
    rfl
  · rw [hindex, hkind]
    rfl

end Client

/-! ## The initial frame -/

open ReaderRefinement (Turn receiveUntil)

/-- Turns that read a value lead `initial_request` to it. -/
theorem reaches_admission {turns : List Turn} {r : Reader} {stream : Bytes}
    {f : ReaderRefinement.Finished} {history : List Effect}
    (hreach : (machine serde).Reaches (.admission r) history)
    (hf : receiveUntil serde r stream turns = some f) (hv : f.result = .ok value) :
    ∃ reader outcome before, (machine serde).Reaches (.admission reader) before ∧
      (reader.receive serde outcome).result = .ok (some value) := by
  induction turns generalizing r stream history with
  | nil => cases hf
  | cons turn turns ih =>
    rw [receiveUntil] at hf
    split at hf
    · cases hf
      cases hv
    · next w hw =>
      cases hf
      cases hv
      exact ⟨r, turn.outcome stream, history, hreach, hw⟩
    · next hnone =>
      have hstep : (machine serde).step (.admission r)
          (.admitted false (turn.outcome stream) (.ok ())) =
          some (.next (.admission (r.receive serde (turn.outcome stream)).reader)
            [.took .host (r.receive serde (turn.outcome stream)).consumed]) := by
        simp [machine, step, initialRequest, hnone]
      exact ih (hreach.next hstep) hf

theorem exists_continuation {payload : Bytes} (hfits : Framing.Fits MAX_FRAME payload)
    (hv : serde.fromSlice payload = .ok value) :
    ∃ history, (continuations serde value).start (fromFrame serde value) history := by
  obtain ⟨turns, f, hf, hres⟩ := ReaderRefinement.receiveUntil_frame hfits hv
  have hstart : (machine serde).step .opening (.opened (.ok ())) = some (.next (.admission {}) []) :=
    rfl
  have hopen : (machine serde).Reaches (.admission {}) ([] ++ []) :=
    .next (.start ⟨rfl, rfl⟩) hstart
  obtain ⟨reader, outcome, before, hreach, hread⟩ := reaches_admission hopen hf hres
  have hstep : step serde (.admission reader) (.admitted false outcome (.ok ())) =
      some (.next (fromFrame serde value) [.took .host (reader.receive serde outcome).consumed]) := by
    simp [step, initialRequest, hread]
  exact ⟨_, reader, outcome, .ok (), before, _, hreach, hread, hstep, rfl⟩

/-- The diagnostic of a failed deserialization has no identity. -/
theorem written_rejection {payload : Bytes} (hfits : Framing.Fits MAX_FRAME payload)
    (hv : serde.fromSlice payload = .ok value) (hr : Request.ofValue value = none)
    (hlen : (serde.toVec (rejection serde value)).length ≤ MAX_FRAME) :
    Written serde value (rejection serde value) := by
  obtain ⟨history, hstart⟩ := exists_continuation hfits hv
  have hreach : (continuations serde value).Reaches (fromFrame serde value) history := .start hstart
  have hstate : fromFrame serde value = .diagnostic "" (serde.rejection value) := by
    simp [fromFrame, hr]
  rw [hstate] at hreach
  have hwrite : writeFrame serde (rejection serde value) =
      .ok (Framing.frame (serde.toVec (rejection serde value))) := by
    simp [writeFrame, Nat.not_lt.mpr hlen, Framing.frame]
  refine .diagnostic (n := (Framing.frame (serde.toVec (rejection serde value))).length)
    hreach hwrite ?_
  have hframe : diagnosticFrame serde "" (serde.rejection value) =
      Framing.frame (serde.toVec (rejection serde value)) := by
    rw [rejection] at hwrite
    simp only [diagnosticFrame, hwrite]
    rfl
  simp only [step, hframe, List.take_length]

/-- A continuation is at a stage of the executable. -/
theorem stage_continuation {st : State} {history : List Effect}
    (h : (continuations serde value).Reaches st history) : Output.Stage serde st history := by
  refine h.invariant ?_ ?_
  · rintro st history ⟨reader, outcome, polled, before, effects, hreach, -, hstep, rfl⟩
    exact Output.stage_next (Output.stage_reaches hreach) hstep
  · intro st answer t history effects hi hstep
    exact Output.stage_next hi hstep

/-- The diagnostic of `main` goes behind whole frames, in a run without a failure inside a frame. -/
theorem whole_continuation {known message : String} {history : List Effect}
    (h : ((continuations serde value).restrict (intact serde)).Reaches
      (.diagnostic known message) history) : Whole serde (stdout history) := by
  cases h with
  | start hs =>
    obtain ⟨reader, outcome, polled, before, effects, hreach, -, hstep, rfl⟩ := hs
    exact Output.whole_next (Output.stage_reaches hreach) rfl hstep rfl
  | next hreach hstep =>
    obtain ⟨hallowed, hs⟩ := Machine.step_of_restrict hstep
    exact Output.whole_next (stage_continuation hreach.of_restrict) hallowed hs rfl

theorem identified_iff (payload : Bytes) (value : Value)
    (execution : String) (hfits : Framing.Fits MAX_FRAME payload)
    (hv : serde.fromSlice payload = .ok value)
    (hid : (value.index "execution_id").asStr = some execution) :
    (∀ v, Written serde value v → Tagged execution v) ↔ Recognized serde execution value := by
  cases hr : Request.ofValue value with
  | some request =>
    have hknows : Knows execution (fromFrame serde value) := by
      rw [← executionId_ofValue hr hid]
      exact knows_fromFrame hr
    exact ⟨fun _ => .inl ⟨request, hr⟩, fun _ v hw => tagged_written hknows hw⟩
  | none =>
    constructor
    · intro hall
      by_contra hnot
      simp only [Recognized, hr, reduceCtorEq, exists_false, false_or, not_or, Nat.not_lt] at hnot
      obtain ⟨hne, hlen⟩ := hnot
      have htagged := hall _ (written_rejection hfits hv hr hlen)
      have hempty : ((rejection serde value).index "execution_id").asStr = some "" :=
        (tagged_failure "" _ _).identity
      rw [htagged.identity] at hempty
      exact hne (Option.some.inj hempty)
    · rintro (⟨request, hsome⟩ | rfl | hlen) v hw
      · rw [hr] at hsome
        cases hsome
      · have hknows : Knows "" (fromFrame serde value) := by
          simp [fromFrame, hr, Knows]
        exact tagged_written hknows hw
      · -- nothing at all is written
        cases hw with
        | @loop history v hrun hmem =>
          have hnone : enqueuedTo .host history = [] := by
            rcases hrun with ⟨st, hreach⟩ | hend
            · exact (reaches_rejected hr hreach).2
            · generalize hcode : 0 = code at hend
              cases hend with
              | @exit _ answer _ _ _ hreach hstep =>
                obtain ⟨rfl, _⟩ := reaches_rejected hr hreach
                cases hcode
                cases answer <;> cases hstep
          rw [hnone] at hmem
          simp [delivered] at hmem
        | diagnostic hreach hwrite _ =>
          obtain ⟨hst, _⟩ := reaches_rejected hr hreach
          cases hst
          have hfit := (writeFrame_ok hwrite).1
          rw [rejection] at hlen
          omega

/-- A diagnostic that can be written has the identity, where it is recognized. -/
theorem known_of_recognized (hid : (value.index "execution_id").asStr = some execution)
    (hrecognized : Recognized serde execution value) {known message : String}
    {history : List Effect} {bytes : Bytes}
    (hreach : (continuations serde value).Reaches (.diagnostic known message) history)
    (hwrite : writeFrame serde (failure known "engine_error" message) = .ok bytes) :
    known = execution := by
  cases hr : Request.ofValue value with
  | some request =>
    have hknows : Knows execution (fromFrame serde value) := by
      rw [← executionId_ofValue hr hid]
      exact knows_fromFrame hr
    exact (consistent_reaches hknows hreach).knows
  | none =>
    obtain ⟨hstate, -⟩ := reaches_rejected hr hreach
    cases hstate
    rcases hrecognized with ⟨request, hsome⟩ | rfl | hlen
    · rw [hr] at hsome
      cases hsome
    · rfl
    · have hfit := (writeFrame_ok hwrite).1
      rw [rejection] at hlen
      omega

/-- The frames that standard output takes after an initial object with this identity all
carry it, if and only if the object deserializes to a request, or has the empty identity,
or is refused with a text that is too long for a frame. The client that waits for this identity
then takes each of them that it can decode, and reads the diagnostic of `main`, which
stands behind whole frames unless the supervisor has failed inside one. -/
theorem frames_identified (serde : SerdeJson) (payload : Bytes) (value : Value)
    (execution : String) (hfits : Framing.Fits MAX_FRAME payload)
    (hv : serde.fromSlice payload = .ok value)
    (hid : (value.index "execution_id").asStr = some execution) :
    ((∀ v, Written serde value v → Tagged execution v) ↔ Recognized serde execution value) ∧
    ∀ (php : Php) (inv : Invocation), php.Reads serde → inv.executionId = execution →
      Recognized serde execution value →
      (∀ v, Written serde value v → readable v.doc = true → v.doc.nesting ≤ decodeDepth →
        Heard php inv (serde.toVec v)) ∧
      ∀ known message history bytes, ((continuations serde value).restrict (intact serde)).Reaches
          (.diagnostic known message) history →
        writeFrame serde (failure known "engine_error" message) = .ok bytes →
        Whole serde (stdout history) ∧ ∃ diagnostic, bytes = Framing.frame diagnostic ∧
          Reports php inv diagnostic message := by
  have hiff := identified_iff payload value execution hfits hv hid
  refine ⟨hiff, fun php inv hreads hinv hrecognized => ⟨?_, ?_⟩⟩
  · intro v hwritten hreadable hnesting
    have htagged := hiff.mpr hrecognized v hwritten
    rw [← hinv] at htagged
    exact tagged_heard hreads htagged hreadable hnesting
  · intro known message history bytes hreach hwrite
    have hknown := known_of_recognized hid hrecognized hreach.of_restrict hwrite
    refine ⟨whole_continuation hreach, _, (writeFrame_ok hwrite).2, ?_⟩
    rw [hknown, ← hinv]
    exact failure_reported hreads message

/-- The guest of this request cannot be started, and the client reads why. -/
theorem frames_identified_sample :
    ((∀ v, Written SerdeJson.reference Request.sample.toValue v → Tagged "e" v) ↔
      Recognized SerdeJson.reference "e" Request.sample.toValue) ∧
    ∃ history bytes diagnostic,
      ((continuations SerdeJson.reference Request.sample.toValue).restrict
        (intact SerdeJson.reference)).Reaches (.diagnostic "e" "No such file") history ∧
      writeFrame SerdeJson.reference (failure "e" "engine_error" "No such file") = .ok bytes ∧
      bytes = Framing.frame diagnostic ∧
      Reports .reference { executionId := "e", source := [] } diagnostic "No such file" := by
  have hfits : Framing.Fits MAX_FRAME (SerdeJson.reference.toVec Request.sample.toValue) := by
    constructor <;> decide +kernel
  have hread : SerdeJson.reference.fromSlice (SerdeJson.reference.toVec Request.sample.toValue) =
      .ok Request.sample.toValue := by decide +kernel
  have hrequest : Request.ofValue Request.sample.toValue = some Request.sample := by decide
  obtain ⟨hiff, hclient⟩ := frames_identified SerdeJson.reference _ Request.sample.toValue "e" hfits
    hread (by decide)
  obtain ⟨history, hstart⟩ := exists_continuation hfits hread
  have hstate : fromFrame SerdeJson.reference Request.sample.toValue = .spawning Request.sample := by
    have hvalid : Request.sample.validate = .ok () := by decide
    rw [fromFrame, hrequest]
    dsimp only
    rw [hvalid]
  rw [hstate] at hstart
  have hadmitted : ((continuations SerdeJson.reference Request.sample.toValue).restrict
      (intact SerdeJson.reference)).Reaches (.spawning Request.sample) history := .start hstart
  have hspawn : ((continuations SerdeJson.reference Request.sample.toValue).restrict
      (intact SerdeJson.reference)).step (.spawning Request.sample)
        (.spawned (.error "No such file")) = some (.next (.diagnostic "e" "No such file") []) := rfl
  have hreach := hadmitted.next hspawn
  have hwrite : writeFrame SerdeJson.reference (failure "e" "engine_error" "No such file") =
      .ok (Framing.frame (SerdeJson.reference.toVec (failure "e" "engine_error" "No such file"))) := by
    decide +kernel
  obtain ⟨-, diagnostic, hframe, hreports⟩ := (hclient .reference
    { executionId := "e", source := [] } Client.Php.reference_reads rfl
    (Or.inl ⟨_, hrequest⟩)).2 _ _ _ _ hreach hwrite
  exact ⟨hiff, _, _, diagnostic, hreach, hwrite, hframe, hreports⟩

/-! ## A request that is refused -/

/-- An object with an identity and no other field. -/
def nameless : Value := Value.object [("execution_id", .string "e")]

/-- The diagnostic for this object has the empty identity. -/
theorem rejection_unidentified : ∃ payload v, Framing.Fits MAX_FRAME payload ∧
    SerdeJson.reference.fromSlice payload = .ok nameless ∧
    (nameless.index "execution_id").asStr = some "e" ∧
    Written SerdeJson.reference nameless v ∧ ¬ Tagged "e" v := by
  have hfits : Framing.Fits MAX_FRAME (SerdeJson.reference.toVec nameless) := by
    constructor <;> decide
  have hread : SerdeJson.reference.fromSlice (SerdeJson.reference.toVec nameless) =
      .ok nameless := by decide +kernel
  refine ⟨SerdeJson.reference.toVec nameless, rejection SerdeJson.reference nameless, hfits, hread,
    by decide, written_rejection hfits hread (by decide) (by decide +kernel), ?_⟩
  intro h
  exact absurd h.identity (by decide)

end RubyEngine.Main.Identity
