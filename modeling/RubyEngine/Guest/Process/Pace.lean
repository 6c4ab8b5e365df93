import RubyEngine.Guest.Process.Discipline
import RubyEngine.Serde.Documented
import RubyEngine.Supervisor.Relay

/-!
# The pace of the guest process

As long as no read fails, the process reads one reply for each call before it makes the
next one, and what it has read are the frames that came in. Everything that it writes can
be read and written again, with no difference but in a measured time.
-/
namespace RubyEngine.Guest.Process

open Json (Number Value)
open Transition (Outcome Machine)
open Isolation (Target Syscall)
open Supervisor (Decodes Stream)
open Supervisor.Capability (isCall isCall_failure)
open Supervisor.Relay (isCompleted)

/-! ## Values in frames -/

/-- A value that goes through a frame any number of times. -/
inductive Sendable (serde : SerdeJson) : Value → Prop where
  | plain (v : Value) : Plain v → (serde.toVec v).length ≤ MAX_FRAME → Sendable serde v
  | completed (request : Request) (host : Host) (native : NativeResult) (result time : Value) :
      request.Admissible → native.Left request → IsTime time → Crossed result →
      Sendable serde (completedEvent request host native result time)

section

variable {serde : SerdeJson} {v : Value}

theorem Sendable.carried (hd : serde.Documented) (h : Sendable serde v) : Carried serde v := by
  cases h with
  | plain _ hplain hfits => exact ⟨hfits, hplain.2⟩
  | completed request host native result time hrequest hnative htime hresult =>
    have hnesting : (completedEvent request host native result time).doc.nesting ≤ _ :=
      nesting_completed htime (by decide) hresult.nesting
    exact ⟨(completed_travels hd.numeric hrequest hnative host htime hresult).1,
      hnesting.trans_lt (by decide)⟩

theorem Sendable.reread (h : Sendable serde v) (f : UInt64 → Number) :
    Sendable serde (v.reread f) := by
  cases h with
  | plain _ hplain hfits =>
    rw [reread_of_floatFree f hplain.1]
    exact .plain v hplain hfits
  | completed request host native result time hrequest hnative htime hresult =>
    rw [Value.reread, completed_reread hresult.floatFree]
    exact .completed _ _ _ _ _ hrequest hnative (htime.mapNumbers _) hresult

theorem isCall_completed (request : Request) (host : Host) (native : NativeResult)
    (result time : Value) : isCall (completedEvent request host native result time) = false := by
  rw [isCall, (index_completed request host native result time).2.2.1]
  simp [Json.Doc.asStr]

/-- A call goes through a frame as it is. -/
theorem Sendable.reread_call (h : Sendable serde v) (hcall : isCall v = true)
    (f : UInt64 → Number) : v.reread f = v := by
  cases h with
  | plain _ hplain _ => exact reread_of_floatFree f hplain.1
  | completed =>
    rw [isCall_completed] at hcall
    cases hcall

theorem plain_failure (execution kind message : String) : Plain (failure execution kind message) := by
  have herror : (Value.object [("type", .string kind),
      ("message", .string message)]).doc.nesting ≤ 1 := by
    refine Value.nesting_object ?_
    simp [Json.Doc.nesting]
  constructor
  · refine Value.floatFree_object ?_
    have hfree : (Value.object [("type", .string kind),
        ("message", .string message)]).doc.floatFree = true := by
      refine Value.floatFree_object ?_
      simp only [List.forall_mem_cons]
      exact ⟨rfl, rfl, by simp⟩
    simp only [List.forall_mem_cons]
    exact ⟨rfl, rfl, rfl, rfl, hfree, by simp⟩
  · refine Nat.lt_of_le_of_lt (Value.nesting_object (n := 1) ?_) (by decide)
    simp [Json.Doc.nesting, herror]

theorem plain_logEvent (execution : String) (hv : Crossed v) : Plain (logEvent execution v) := by
  constructor
  · refine Value.floatFree_object ?_
    simp only [List.forall_mem_cons]
    exact ⟨rfl, rfl, rfl, hv.floatFree, by simp⟩
  · refine Nat.lt_of_le_of_lt (Value.nesting_object (n := 65) ?_) (by decide)
    simp [Json.Doc.nesting, hv.nesting]

theorem plain_callEvent (execution : String) (n : Nat) (path : String) (hv : Crossed v) :
    Plain (callEvent execution n path v) := by
  constructor
  · refine Value.floatFree_object ?_
    simp only [List.forall_mem_cons]
    exact ⟨rfl, rfl, rfl, rfl, rfl, hv.floatFree, by simp⟩
  · refine Nat.lt_of_le_of_lt (Value.nesting_object (n := 65) ?_) (by decide)
    simp [Json.Doc.nesting, Json.Doc.u64, hv.nesting]

theorem sendable_turn (hd : serde.Documented) {request : Request} (hrequest : request.Admissible)
    {callback : Callback} (hcallback : callback.Bounded request) {host next : Host} {turn : Turn}
    (h : host.turn serde callback.kind callback.path callback.json = (next, turn))
    (hevent : turn.event = some v) (hfits : (serde.toVec v).length ≤ MAX_FRAME) :
    Sendable serde v := by
  obtain ⟨heap, x, hencode⟩ := hcallback.json
  obtain ⟨value, hread, hshape⟩ := Host.turn_event h hevent
  have hvalue := crossed_of_encode hd.standard hd.strict hrequest hencode hread
  rcases hshape with rfl | ⟨-, n, name, -, rfl⟩
  · exact .plain _ (plain_logEvent _ hvalue) hfits
  · exact .plain _ (plain_callEvent _ n name hvalue) hfits

theorem sendable_conclusion (hd : serde.Documented) {request : Request}
    (hrequest : request.Admissible) {host : Host} {native : NativeResult}
    (hnative : native.Left request) {cpuMs : Option UInt64}
    (h : conclusion serde request host native cpuMs = .ok v) : Sendable serde v := by
  have htime := isTime_milliseconds cpuMs
  unfold conclusion at h
  split at h
  · obtain rfl := Except.ok.inj h
    exact .completed request host native .null _ hrequest hnative htime crossed_null
  · next json hjson =>
    split at h
    · next value hread =>
      obtain rfl := Except.ok.inj h
      obtain ⟨heap, x, hencode⟩ := hnative.json json hjson
      exact .completed request host native value _ hrequest hnative htime
        (crossed_of_encode hd.standard hd.strict hrequest hencode hread)
    · cases h

/-! ## The front of the input -/

theorem readFrame_ok {stream rest : Bytes} (h : readFrame serde stream = .ok (v, rest)) :
    ∃ p, Framing.Fits MAX_FRAME p ∧ serde.fromSlice p = .ok v ∧
      stream = Framing.frame p ++ rest := by
  simp only [readFrame] at h
  split at h
  · cases h
  · next hheader =>
    split at h
    · cases h
    · next hsize =>
      split at h
      · cases h
      · next hlong =>
        rw [fromBe32_take] at hsize hlong h
        rw [List.length_drop] at hlong
        have hframe := Framing.frame_take (n := fromBe32 stream) rfl (by omega)
        have hlength : ((stream.drop 4).take (fromBe32 stream)).length = fromBe32 stream := by
          rw [List.length_take, List.length_drop]
          omega
        split at h
        · next value hvalue =>
          cases h
          refine ⟨_, ⟨by omega, by omega⟩, hvalue, ?_⟩
          rw [List.drop_drop, Nat.add_comm, hframe]
        · cases h

theorem front_value {input rest : Bytes} (h : front serde input = .value v rest) :
    ∃ p, Framing.Fits MAX_FRAME p ∧ serde.fromSlice p = .ok v ∧
      input = Framing.frame p ++ rest := by
  unfold front at h
  split at h
  · next hread =>
    cases h
    exact readFrame_ok hread
  · split at h <;> cases h

/-- What has come in of a stream of frames is not yet one, or it is the first of them. -/
theorem front_stream {vs : List Value} {input stream : Bytes} (hs : Stream serde vs stream)
    (h : input <+: stream) : ∀ rest, front serde input ≠ .failed rest := by
  intro rest hfailed
  obtain ⟨ps, tail, hps, htail, rfl⟩ := hs.cut
  have hread : ∀ e, readFrame serde input = .error e → e = shortRead := by
    intro e he
    simp only [readFrame] at he
    split at he
    · exact (Except.error.inj he).symm
    · next hheader =>
      obtain ⟨q, hq, hsize⟩ := Framing.cut_announces maxFrame_lt_word hps.fits htail h
        (Nat.not_lt.mp hheader)
      have hpos := hq.nonempty
      have hmax := hq.bounded
      rw [fromBe32_take, hsize, if_neg (by omega)] at he
      split at he
      · exact (Except.error.inj he).symm
      · next hlong =>
        rw [List.length_drop] at hlong
        have hframe := Framing.frame_take (n := q.length) hsize (by omega)
        have hlength : ((input.drop 4).take q.length).length = q.length := by
          rw [List.length_take, List.length_drop]
          omega
        -- the payload is the first one of the stream, which parses
        have hfits : Framing.Fits MAX_FRAME ((input.drop 4).take q.length) :=
          ⟨by omega, by omega⟩
        have hfront : Framing.frame ((input.drop 4).take q.length) <+: input := ⟨_, hframe⟩
        obtain ⟨ps', rfl⟩ := Framing.cut_frame maxFrame_lt_word hps.fits htail hfits
          (hfront.trans h)
        cases hps with
        | cons hp _ =>
          rw [hp.2] at he
          cases he
  unfold front at hfailed
  split at hfailed
  · cases hfailed
  · next e he =>
    rw [if_pos (hread e he)] at hfailed
    cases hfailed

/-! ## A process whose reads do not fail -/

def Clean (history : List Effect) : Prop := Effect.unread ∉ history

/-- What has come in: the frames of what has been heard, and what waits for more. -/
def Inflow (serde : SerdeJson) (s : State) (history : List Effect) : Prop :=
  ∃ ps, Decodes serde ps (heard history) ∧ took history = Framing.concat ps ++ s.input

/-- So many values have been heard at this place: the request and one for each call, but for the
call that is being made. -/
def Phase.Even (history : List Effect) : Phase → Prop
  | .running _ host => (heard history).length = host.calls + 1
  | .printing _ host call _ => (heard history).length + call.toNat = host.calls + 1
  | .awaiting _ host => (heard history).length = host.calls
  | .starting | .entering _ _ | .finishing _ _ _ => True

/-- The terminal event of an execution, as opposed to one in its place, reports what was used. -/
def Reports (v : Value) : Prop := isCompleted v = true ∧ v.index "usage" ≠ .null

instance (v : Value) : Decidable (Reports v) := inferInstanceAs (Decidable (_ ∧ _))

/-- Calls are made one by one, and an execution is completed behind the last reply. -/
structure Spaced (events : List Value) (n : Nat) : Prop where
  calls : (events.filter isCall).length ≤ n
  closing : ∀ v ∈ events, Reports v → (events.filter isCall).length < n

/-- The events that may be on the wire, as opposed to those behind a write that failed. -/
structure OnWire (serde : SerdeJson) (history : List Effect) (events : List Value) : Prop where
  front : events <+: printed history
  stream : sent history <+: wire serde events
  spaced : Spaced events (heard history).length

structure Paced (serde : SerdeJson) (s : State) (history : List Effect) : Prop where
  wire : ∃ events, OnWire serde history events ∧ (s.broken = false → events = printed history)
  even : s.broken = false → s.phase.Even history

variable {target : Target} {number : Syscall → Int64} {history effects : List Effect}

theorem clean_append (h : Clean (history ++ effects)) : Clean history ∧ Clean effects := by
  simp only [Clean, List.mem_append, not_or] at h
  exact h

/-- What a step does to the input. -/
inductive Intakes (serde : SerdeJson) (s : State) (answer : Answer) (effects : List Effect)
    (t : State) : Prop where
  | quiet : heard effects = [] → took effects = [] → Clean effects → t.input = s.input →
      Intakes serde s answer effects t
  | took (bytes : Bytes) : answer = .read (.data bytes) → bytes ≠ [] → heard effects = [] →
      took effects = bytes → Clean effects → t.input = s.input ++ bytes →
      Intakes serde s answer effects t
  | heard (v : Value) (rest : Bytes) : front serde s.input = .value v rest → heard effects = [v] →
      took effects = [] → Clean effects → t.input = rest → Intakes serde s answer effects t
  | unread (rest : Bytes) : Unreads serde s answer rest → heard effects = [] →
      took effects = [] → ¬ Clean effects → t.input = rest → Intakes serde s answer effects t

/-- A failure adds nothing to the input. -/
theorem Fails.intake {s t : State} {execution : String} {more : List Effect} {input : Bytes}
    (h : Fails serde { s with input := input } execution effects (.next t more)) :
    t.input = input ∧ heard more = heard effects ∧ took more = took effects ∧
      (Clean more ↔ Clean effects) := by
  obtain ⟨message, hfinishes⟩ := h
  cases hfinishes with
  | whole | none => simp [Clean]

theorem intakes {s t : State} {answer : Answer}
    (hstep : step serde target number s answer = some (.next t effects)) :
    Intakes serde s answer effects t := by
  have hc := step_cases hstep
  generalize hout : Outcome.next t effects = out at hc
  cases hc with
  | died | exited | cutLast => cases hout
  | took bytes hne =>
    cases hout
    exact .took bytes rfl hne rfl (List.append_nil _) (by simp [Clean]) rfl
  | admitted v rest request _ hfront =>
    cases hout
    exact .heard v rest hfront rfl rfl (by simp [Clean]) rfl
  | refused _ input execution first _ _ hfirst hfails =>
    subst hout
    obtain ⟨hinput, hheard, htook, hclean⟩ := hfails.intake
    rcases hfirst with ⟨rfl, hunreads⟩ | ⟨v, rfl, hfront, -⟩
    · exact .unread input hunreads hheard htook (by rw [hclean]; simp [Clean]) hinput
    · exact .heard v input hfront hheard htook (hclean.mpr (by simp [Clean])) hinput
  | unready _ request calls first _ _ hfirst hfails =>
    subst hout
    obtain ⟨hinput, hheard, htook, hclean⟩ := Fails.intake (s := s) hfails
    have hquiet : heard first = [] ∧ took first = [] ∧ Clean first := by
      rcases hfirst with rfl | ⟨call, response, rfl⟩ <;> exact ⟨rfl, rfl, by simp [Clean]⟩
    exact .quiet (hheard.trans hquiet.1) (htook.trans hquiet.2.1) (hclean.mpr hquiet.2.2) hinput
  | inconclusive _ request host _ _ hfails =>
    subst hout
    obtain ⟨hinput, hheard, htook, hclean⟩ := Fails.intake (s := s) hfails
    exact .quiet hheard htook (hclean.mpr (by simp [Clean])) hinput
  | replied request host v rest _ hfront =>
    cases hout
    exact .heard v rest hfront rfl rfl (by simp [Clean]) rfl
  | unreplied _ request host rest _ hunreads =>
    cases hout
    exact .unread rest hunreads rfl rfl (by simp [Clean]) rfl
  | retried | called | started | raised | answered | printed | concluded | sent | sentLog
  | sentCall | cut | sentLast =>
    cases hout
    exact .quiet rfl rfl (by simp [Clean]) rfl

theorem inflow_step {s t : State} {answer : Answer} (h : Inflow serde s history)
    (hclean : Clean effects) (hstep : step serde target number s answer = some (.next t effects)) :
    Inflow serde t (history ++ effects) := by
  obtain ⟨ps, hps, htaken⟩ := h
  cases intakes hstep with
  | quiet hheard htook _ hinput =>
    exact ⟨ps, by rwa [heard_append, hheard, List.append_nil],
      by rw [took_append, htook, List.append_nil, htaken, hinput]⟩
  | took bytes _ _ hheard htook _ hinput =>
    exact ⟨ps, by rwa [heard_append, hheard, List.append_nil],
      by rw [took_append, htook, htaken, hinput, List.append_assoc]⟩
  | heard v rest hfront hheard htook _ hinput =>
    obtain ⟨p, hfits, hparsed, hwhole⟩ := front_value hfront
    refine ⟨ps ++ [p], ?_, ?_⟩
    · rw [heard_append, hheard]
      exact hps.append hfits hparsed
    · rw [took_append, htook, List.append_nil, htaken, hwhole, hinput, Framing.concat_append,
        Framing.concat_cons, Framing.concat_nil, List.append_nil, List.append_assoc]
  | unread rest _ _ _ hdirty => exact absurd hclean hdirty

/-! ## The events on the wire -/

theorem Phase.Even.congr {phase : Phase} (h : phase.Even history) (hheard : heard effects = []) :
    phase.Even (history ++ effects) := by
  cases phase with
  | running | printing | awaiting => simpa [Phase.Even, hheard] using h
  | starting | entering | finishing => trivial

theorem not_reports_failure (execution kind message : String) :
    ¬ Reports (failure execution kind message) := by
  simp [Reports, failure, SortedMap.lookup]

theorem not_reports_event {request : Request} (h : Event request v) : ¬ Reports v := by
  rintro ⟨hcompleted, -⟩
  have hkind : (v.index "kind").asStr = some "completed" := of_decide_eq_true hcompleted
  rcases h.kind with hlog | hcall
  · rw [hkind] at hlog
    simp at hlog
  · have hcall : (v.index "kind").asStr = some "call" := of_decide_eq_true hcall
    rw [hkind] at hcall
    simp at hcall

theorem reports_reread (f : UInt64 → Number) (v : Value) : Reports (v.reread f) ↔ Reports v := by
  have husage : (v.reread f).index "usage" = .null ↔ v.index "usage" = .null := by
    rw [Value.reread, Value.index_mapNumbers]
    cases v.index "usage" <;> simp [Json.Doc.mapNumbers]
  simp only [Reports, isCompleted, asStr_index_reread, ne_eq, husage]

theorem Spaced.mono {events : List Value} {n m : Nat} (h : Spaced events n) (hless : n ≤ m) :
    Spaced events m :=
  ⟨h.calls.trans hless, fun v hv hreports => (h.closing v hv hreports).trans_le hless⟩

/-- A value that is no call and closes nothing. -/
theorem Spaced.concat {events : List Value} {n : Nat} (h : Spaced events n)
    (hcall : isCall v = false) (hopen : ¬ Reports v) : Spaced (events ++ [v]) n := by
  have hfilter : (events ++ [v]).filter isCall = events.filter isCall := by
    rw [List.filter_append, List.filter_cons_of_neg (by simp [hcall]), List.filter_nil,
      List.append_nil]
  refine ⟨by rw [hfilter]; exact h.calls, fun w hw hclosing => ?_⟩
  rw [hfilter]
  rcases List.mem_append.mp hw with hold | hnew
  · exact h.closing w hold hclosing
  · rw [List.mem_singleton.mp hnew] at hclosing
    exact absurd hclosing hopen

/-- Events of a program close nothing. -/
theorem spaced_events {request : Request} {events : List Value} {n : Nat}
    (h : ∀ v ∈ events, Event request v) (hcalls : (events.filter isCall).length ≤ n) :
    Spaced events n :=
  ⟨hcalls, fun v hv hreports => absurd hreports (not_reports_event (h v hv))⟩

theorem OnWire.quiet {events : List Value} (h : OnWire serde history events)
    (hprinted : printed effects = []) (hsent : sent effects = []) :
    OnWire serde (history ++ effects) events where
  front := by rw [printed_append, hprinted, List.append_nil]; exact h.front
  stream := by rw [sent_append, hsent, List.append_nil]; exact h.stream
  spaced := by
    rw [heard_append, List.length_append]
    exact h.spaced.mono (Nat.le_add_right _ _)

/-- Nothing is written. -/
theorem Paced.quiet {s t : State} (h : Paced serde s history) (hprinted : printed effects = [])
    (hsent : sent effects = []) (hbroken : t.broken = false → s.broken = false)
    (heven : t.broken = false → t.phase.Even (history ++ effects)) :
    Paced serde t (history ++ effects) := by
  obtain ⟨events, hwire, hwhole⟩ := h.wire
  refine ⟨⟨events, hwire.quiet hprinted hsent, fun hsound => ?_⟩, heven⟩
  rw [printed_append, hprinted, List.append_nil]
  exact hwhole (hbroken hsound)

/-- A value is handed to `write_frame`: behind the others, or to no effect any more. -/
theorem Paced.print {s t : State} (h : Paced serde s history) (hprinted : printed effects = [v])
    (hsent : sent effects = []) (hbroken : t.broken = s.broken)
    (hspaced : s.broken = false → Spaced (printed history ++ [v]) (heard history).length)
    (heven : t.broken = false → t.phase.Even (history ++ effects)) :
    Paced serde t (history ++ effects) := by
  obtain ⟨events, hwire, hwhole⟩ := h.wire
  have hgrown : (heard history).length ≤ (heard (history ++ effects)).length := by
    rw [heard_append, List.length_append]
    exact Nat.le_add_right _ _
  refine ⟨?_, heven⟩
  rw [printed_append, hprinted]
  cases hs : s.broken with
  | false =>
    obtain rfl := hwhole hs
    refine ⟨printed history ++ [v], ⟨?_, ?_, (hspaced hs).mono hgrown⟩, fun _ => rfl⟩
    · exact ⟨[], by rw [List.append_nil, printed_append, hprinted]⟩
    · rw [sent_append, hsent, List.append_nil, wire_append]
      exact hwire.stream.trans (List.prefix_append _ _)
  | true =>
    refine ⟨events, ⟨?_, ?_, hwire.spaced.mono hgrown⟩, fun hsound => ?_⟩
    · rw [printed_append]
      exact hwire.front.trans (List.prefix_append _ _)
    · rw [sent_append, hsent, List.append_nil]
      exact hwire.stream
    · rw [hbroken, hs] at hsound
      cases hsound

/-- A write goes on while none has failed. -/
theorem Paced.send {s t : State} (h : Paced serde s history) (hbroken : s.broken = false)
    (hprinted : printed effects = []) (hheard : heard effects = [])
    (houtput : Output serde t (history ++ effects)) (heven : t.phase.Even (history ++ effects)) :
    Paced serde t (history ++ effects) := by
  obtain ⟨events, hwire, hwhole⟩ := h.wire
  obtain rfl := hwhole hbroken
  have hall : printed (history ++ effects) = printed history := by
    rw [printed_append, hprinted, List.append_nil]
  have hsent := houtput.written.stream
  rw [hall] at hsent
  refine ⟨⟨printed history, ⟨?_, hsent, ?_⟩, fun _ => hall.symm⟩, fun _ => heven⟩
  · exact ⟨[], by rw [List.append_nil, hall]⟩
  · rw [heard_append, hheard, List.append_nil]
    exact hwire.spaced

/-- A failure is no call. -/
theorem Fails.paced {s t : State} {execution : String} {more : List Effect} {input : Bytes}
    (h : Fails serde { s with input := input } execution effects (.next t more))
    (hpaced : Paced serde s history) (hprinted : printed effects = []) (hsent : sent effects = []) :
    Paced serde t (history ++ more) := by
  obtain ⟨message, hfinishes⟩ := h
  obtain ⟨events, hwire, hwhole⟩ := hpaced.wire
  cases hfinishes with
  | whole hfits =>
    refine hpaced.print (v := failure execution "engine_error" message) (by simp [hprinted])
      (by simp [hsent]) rfl (fun hsound => ?_) fun _ => trivial
    obtain rfl := hwhole hsound
    exact hwire.spaced.concat (isCall_failure _ _ _) (not_reports_failure _ _ _)
  | none => exact hpaced.quiet hprinted hsent id fun _ => trivial

theorem paced_step (hd : serde.Documented) {s t : State} {answer : Answer}
    (h : Paced serde s history) (htold : s.phase.Told target number history)
    (houtput : Output serde t (history ++ effects)) (hclean : Clean effects)
    (hstep : step serde target number s answer = some (.next t effects)) :
    Paced serde t (history ++ effects) := by
  have hc := step_cases hstep
  generalize hout : Outcome.next t effects = out at hc
  cases hc with
  | died | exited | cutLast => cases hout
  | retried =>
    cases hout
    exact h.quiet rfl rfl id fun hsound => (h.even hsound).congr rfl
  | took bytes =>
    cases hout
    exact h.quiet rfl rfl id fun hsound => (h.even hsound).congr rfl
  | admitted | called =>
    cases hout
    exact h.quiet rfl rfl id fun _ => trivial
  | refused _ input execution first _ _ hfirst hfails =>
    subst hout
    refine hfails.paced h ?_ ?_ <;> rcases hfirst with ⟨rfl, -⟩ | ⟨v, rfl, -⟩ <;> rfl
  | unready _ request calls first _ _ hfirst hfails =>
    subst hout
    refine Fails.paced (s := s) hfails h ?_ ?_ <;>
      rcases hfirst with rfl | ⟨call, response, rfl⟩ <;> rfl
  | inconclusive _ request host _ _ hfails =>
    subst hout
    exact Fails.paced (s := s) hfails h rfl rfl
  | started request hphase _ =>
    cases hout
    rw [hphase] at htold
    obtain ⟨v, hone, -⟩ := htold.begun
    exact h.quiet rfl rfl id fun _ => by simp [Phase.Even, hone, Host.new]
  | raised _ request host e hphase _ =>
    cases hout
    refine h.quiet rfl rfl id fun hsound => ?_
    have heven := h.even hsound
    rw [hphase] at heven
    show (Phase.running request host).Even _
    exact heven.congr rfl
  | answered _ request host next sent turn result hphase _ hcrosses hturn hevent =>
    cases hout
    rw [hphase] at htold
    obtain ⟨events, replies, hprogram, -⟩ := htold
    have hadmissible := Request.validate_iff.mp hprogram.valid
    have hcalls : next.calls = host.calls := by
      have hgrown := grown hprogram.spoken.counted hcrosses.bounded hturn
      rcases hevent with hnone | ⟨event, hsome, hlarge⟩
      · cases hgrown with
        | quiet _ _ hcalls => exact hcalls
        | log | call => cases hnone
      · have htravels := turn_travels hd.standard hd.numeric hd.strict hadmissible
          hcrosses.bounded hprogram.spoken.counted.execution hturn hsome
        exact absurd htravels.1 (Nat.not_le.mpr hlarge)
    refine h.quiet rfl rfl id fun hsound => ?_
    have heven := h.even hsound
    rw [hphase] at heven
    simpa [Phase.Even, hcalls] using heven
  | printed _ request host next sent turn event hphase hexecutes hcrosses hturn hevent _ =>
    cases hout
    rw [hphase] at htold
    obtain ⟨events, replies, hprogram, -⟩ := htold
    have hspoken := (hprogram.spoken.turn hprogram.valid hexecutes hcrosses.bounded hturn).1
    rw [hevent, Option.toList_some] at hspoken
    have hwrote := hprogram.wrote
    rw [List.append_nil] at hwrote
    have hnext : s.broken = false →
        (heard history).length + (decide (turn = .call event)).toNat = next.calls + 1 := by
      intro hsound
      have heven := h.even hsound
      rw [hphase, Phase.Even] at heven
      cases grown hprogram.spoken.counted hcrosses.bounded hturn with
      | quiet _ hnone =>
        rw [hnone] at hevent
        cases hevent
      | log v hcalls => simp [heven, hcalls]
      | call path v _ hcalls =>
        obtain rfl := Option.some.inj hevent
        simp [heven, hcalls]
    refine h.print rfl rfl rfl (fun hsound => ?_) fun hsound => ?_
    · have hpace := hnext hsound
      have hbit := Bool.toNat_le (decide (turn = .call event))
      rw [hwrote]
      refine spaced_events hspoken.framed ?_
      rw [hspoken.calls]
      omega
    · simpa [Phase.Even] using hnext hsound
  | concluded _ request host native cpuMs event hphase _ hevent _ =>
    cases hout
    rw [hphase] at htold
    obtain ⟨events, replies, hprogram, -⟩ := htold
    obtain ⟨result, time, rfl⟩ := conclusion_completed hevent
    refine h.print rfl rfl rfl (fun hsound => ?_) fun _ => trivial
    have heven := h.even hsound
    rw [hphase, Phase.Even] at heven
    have hwrote := hprogram.wrote
    rw [List.append_nil] at hwrote
    have hfilter : (events ++ [completedEvent request host native result time]).filter isCall =
        events.filter isCall := by
      rw [List.filter_append, List.filter_cons_of_neg (by simp [isCall_completed]), List.filter_nil,
        List.append_nil]
    have hcalls : (events.filter isCall).length < (heard history).length := by
      rw [hprogram.spoken.calls, heven]
      exact Nat.lt_succ_self _
    rw [hwrote]
    exact ⟨by rw [hfilter]; exact hcalls.le, fun _ _ _ => by rw [hfilter]; exact hcalls⟩
  | sent request host call rest n hphase hbroken _ =>
    cases hout
    have heven := h.even hbroken
    rw [hphase] at heven
    refine h.send hbroken rfl rfl houtput ?_
    show (Phase.printing request host call rest).Even _
    exact heven.congr rfl
  | sentLog request host rest n hphase hbroken _ =>
    cases hout
    have heven := h.even hbroken
    rw [hphase] at heven
    exact h.send hbroken rfl rfl houtput (by simpa [Phase.Even] using heven)
  | sentCall request host rest n hphase hbroken _ =>
    cases hout
    have heven := h.even hbroken
    rw [hphase] at heven
    exact h.send hbroken rfl rfl houtput (by simpa [Phase.Even] using heven)
  | cut _ request host call rest _ _ =>
    cases hout
    obtain ⟨events, hwire, -⟩ := h.wire
    refine ⟨⟨events, hwire.quiet rfl rfl, fun hsound => ?_⟩, fun hsound => ?_⟩ <;> cases hsound
  | replied request host v rest hphase _ =>
    cases hout
    refine h.quiet rfl rfl id fun hsound => ?_
    have heven := h.even hsound
    rw [hphase] at heven
    simpa [Phase.Even] using heven
  | unreplied =>
    cases hout
    exact absurd hclean (by simp [Clean])
  | sentLast execution completed rest n _ hbroken =>
    cases hout
    exact h.send hbroken rfl rfl houtput trivial

/-! ## Runs -/

theorem paced_reaches (hd : serde.Documented) {s : State}
    (h : (machine serde target number).Reaches s history) (hclean : Clean history) :
    Inflow serde s history ∧ Paced serde s history := by
  have hall : (machine serde target number).Reaches s history ∧
      (Clean history → Inflow serde s history ∧ Paced serde s history) := by
    refine h.invariant (I := fun s history => (machine serde target number).Reaches s history ∧
      (Clean history → Inflow serde s history ∧ Paced serde s history)) ?_ ?_
    · rintro s history ⟨rfl, rfl⟩
      refine ⟨.start ⟨rfl, rfl⟩, fun _ => ⟨⟨[], .nil, rfl⟩, ?_⟩⟩
      have hnone : Spaced [] (heard []).length := ⟨Nat.le_refl _, by simp⟩
      exact ⟨⟨[], ⟨List.nil_prefix, List.nil_prefix, hnone⟩, fun _ => rfl⟩, fun _ => trivial⟩
    · rintro s answer t history effects ⟨hreach, hinv⟩ hstep
      have hnext : (machine serde target number).Reaches t (history ++ effects) :=
        hreach.next hstep
      refine ⟨hnext, fun hclean => ?_⟩
      obtain ⟨hbefore, hnow⟩ := clean_append hclean
      obtain ⟨hinflow, hpaced⟩ := hinv hbefore
      exact ⟨inflow_step hinflow hnow hstep, paced_step hd hpaced
        (told_reaches hd.standard hd.numeric hd.strict hreach) (output_reaches hnext) hnow hstep⟩
  exact hall.2 hclean

/-- A process that waits for a reply has written its call. -/
theorem awaiting_sound {s : State} (h : (machine serde target number).Reaches s history)
    {request : Request} {host : Host} (hphase : s.phase = .awaiting request host) :
    s.broken = false := by
  have hall : ∀ request host, s.phase = .awaiting request host → s.broken = false := by
    refine h.invariant (I := fun s _ => ∀ request host, s.phase = .awaiting request host →
      s.broken = false) ?_ ?_
    · rintro s history ⟨rfl, -⟩ request host hphase
      cases hphase
    · intro s answer t history effects hi hstep request host hphase
      have hc := step_cases hstep
      generalize hout : Outcome.next t effects = out at hc
      cases hc with
      | died | exited | cutLast => cases hout
      | retried | took =>
        cases hout
        exact hi request host hphase
      | sentCall _ _ _ _ _ hbroken =>
        cases hout
        exact hbroken
      | refused _ _ _ _ _ _ _ hfails | unready _ _ _ _ _ _ _ hfails
      | inconclusive _ _ _ _ _ hfails =>
        subst hout
        obtain ⟨message, hfinishes⟩ := hfails
        cases hfinishes <;> cases hphase
      | _ =>
        cases hout
        cases hphase
  exact hall request host hphase

theorem sendable_reaches (hd : serde.Documented) {s : State}
    (h : (machine serde target number).Reaches s history) :
    ∀ v ∈ printed history, Sendable serde v := by
  have hfails : ∀ {s t : State} {execution : String} {first more : List Effect},
      Fails serde s execution first (.next t more) → printed first = [] →
      ∀ v ∈ printed more, Sendable serde v := by
    intro s t execution first more hfails hfirst v hv
    obtain ⟨message, hfinishes⟩ := hfails
    cases hfinishes with
    | whole hfits =>
      simp only [printed_append, hfirst, printed_cons, printed_nil, List.nil_append,
        List.append_nil, List.mem_singleton] at hv
      rw [hv]
      exact .plain _ (plain_failure _ _ _) hfits
    | none =>
      rw [hfirst] at hv
      cases hv
  have hall : s.phase.Told target number history ∧ ∀ v ∈ printed history, Sendable serde v := by
    refine h.invariant (I := fun s history => s.phase.Told target number history ∧
      ∀ v ∈ printed history, Sendable serde v) ?_ ?_
    · rintro s history ⟨rfl, rfl⟩
      exact ⟨⟨rfl, rfl, rfl, rfl⟩, by simp⟩
    · rintro s answer t history effects ⟨htold, hsendable⟩ hstep
      refine ⟨told_step hd.standard hd.numeric hd.strict htold hstep, fun v hv => ?_⟩
      rw [printed_append, List.mem_append] at hv
      refine hv.elim (hsendable v) fun hv => ?_
      have hc := step_cases hstep
      generalize hout : Outcome.next t effects = out at hc
      cases hc with
      | died | exited | cutLast => cases hout
      | refused _ input execution first _ _ hfirst hf =>
        subst hout
        refine hfails hf ?_ v hv
        rcases hfirst with ⟨rfl, -⟩ | ⟨v, rfl, -⟩ <;> rfl
      | unready _ request calls first _ _ hfirst hf =>
        subst hout
        refine hfails hf ?_ v hv
        rcases hfirst with rfl | ⟨call, response, rfl⟩ <;> rfl
      | inconclusive _ request host _ _ hf =>
        subst hout
        exact hfails hf rfl v hv
      | printed _ request host next sent turn event hphase _ hcrosses hturn hevent hfits =>
        cases hout
        rw [hphase] at htold
        obtain ⟨events, replies, hprogram, -⟩ := htold
        obtain rfl := List.mem_singleton.mp hv
        exact sendable_turn hd (Request.validate_iff.mp hprogram.valid) hcrosses.bounded hturn
          hevent hfits
      | concluded _ request host native cpuMs event hphase hleft hevent _ =>
        cases hout
        rw [hphase] at htold
        obtain ⟨events, replies, hprogram, -⟩ := htold
        obtain rfl := List.mem_singleton.mp hv
        exact sendable_conclusion hd (Request.validate_iff.mp hprogram.valid) hleft hevent
      | _ =>
        cases hout
        cases hv
  exact hall.2

end

end RubyEngine.Guest.Process
