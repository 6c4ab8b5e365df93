import RubyEngine.Client.Execute
import RubyEngine.Guest.Result
import RubyEngine.Supervisor.Relay

/-!
# Results on their way to the application

The completed event of an encoded result goes through the guest's printer, through
the supervisor, which reads it and prints it again, and into `json_decode`. The
last reader is the only one that looks at the names.
-/
namespace RubyEngine.Client

open Json (Doc Number Value)

/-- `json_decode` of the texts that the engine prints. A text nested too deep or with a
property name that begins with a NUL character is an error, a float may come back as
another number, and so does an integer beyond the signed range. -/
structure Php.Reads (php : Php) (serde : SerdeJson) : Prop where
  accepts : ∃ g : UInt64 → Number, ∀ v : Value, readable v.doc = true →
    v.doc.nesting ≤ decodeDepth → php.decode (serde.toVec v) =
      some ((v.doc.mapNumbers (Number.reread g)).mapNumbers (narrowNumber php.round))
  refuses : ∀ v : Value, readable v.doc = false ∨ decodeDepth < v.doc.nesting →
    php.decode (serde.toVec v) = none

theorem readable_mapNumbers (f : Number → Number) (d : Doc) :
    readable (d.mapNumbers f) = readable d := by
  refine Doc.every_mapNumbers f (fun d => ?_) d
  cases d with
  | object entries =>
    rw [Doc.mapNumbers, hasReadableNames, hasReadableNames, Doc.mapEntries_eq_map, List.all_map]
    rfl
  | null | bool | number | string | array => rfl

theorem Php.reference_reads : Php.reference.Reads .reference where
  accepts := by
    refine ⟨zero, fun v hread hnesting => ?_⟩
    simp only [reference, SerdeJson.reference, Json.parse_text (text_zero v.doc), Option.bind_some]
    rw [if_pos ⟨(readable_mapNumbers _ _).trans hread, (Doc.nesting_mapNumbers _ _).trans_le hnesting⟩]
  refuses v hbad := by
    simp only [reference, SerdeJson.reference, Json.parse_text (text_zero v.doc), Option.bind_some]
    rw [if_neg]
    rintro ⟨hread, hnesting⟩
    rw [readable_mapNumbers] at hread
    rw [Doc.nesting_mapNumbers] at hnesting
    rcases hbad with hbad | hbad
    · rw [hread] at hbad
      cases hbad
    · exact absurd hnesting (Nat.not_le.mpr hbad)

namespace Execute

open Transition (Outcome Machine)

/-! ## Reading one frame -/

/-- The bytes that a place asks for. -/
def requested : Place → Nat
  | .header got => 4 - got.length
  | .payload length got => length - got.length
  | _ => 0

/-- How much a read takes: nothing is there yet, or so many bytes and one more. -/
def taken (place : Place) : Option Nat → Nat
  | none => 0
  | some more => min (more + 1) (requested place)

/-- Read a stream turn by turn, without cancellation and before the deadline, up to the
`Execution`. -/
def drain (php : Php) (inv : Invocation) : State → Bytes → List (Option Nat) → Option Execution
  | _, _, [] => none
  | s, stream, turn :: turns =>
      match step php inv s (.read {} (some (stream.take (taken s.place turn))) false) with
      | some (.next t _) => drain php inv t (stream.drop (taken s.place turn)) turns
      | some (.exit execution _) => some execution
      | none => none

variable {php : Php} {inv : Invocation}

theorem drain_ends {s : State} {history : List Effect} {stream : Bytes} {turns : List (Option Nat)}
    {execution : Execution} (hs : (machine php inv).Reaches s history)
    (h : drain php inv s stream turns = some execution) :
    ∃ history, (machine php inv).Ends execution history := by
  induction turns generalizing s history stream with
  | nil => cases h
  | cons turn turns ih =>
    rw [drain] at h
    split at h
    · next t effects hstep => exact ih (.next hs hstep) h
    · next result effects hstep =>
      obtain rfl := Option.some.inj h
      exact ⟨_, .exit hs hstep⟩
    · cases h

/-- Where the client stands in a frame, with the bytes that are still to come. -/
inductive Within (payload : Bytes) (vars : Vars) : State → Bytes → Prop where
  | header {got rest : Bytes} : got.length < 4 → got ++ rest = be32 payload.length →
      Within payload vars ⟨.header got, vars⟩ (rest ++ payload)
  | payload {got rest : Bytes} : rest ≠ [] → got ++ rest = payload →
      Within payload vars ⟨.payload payload.length got, vars⟩ rest

theorem within_start (payload : Bytes) (vars : Vars) :
    Within payload vars ⟨.header [], vars⟩ (Framing.frame payload) :=
  .header (by decide) rfl

theorem onRead_chunk {length : Nat} {got bytes : Bytes} (h : bytes.length ≤ length - got.length) :
    onRead length got {} (some bytes) false = some (.ok (got ++ bytes)) := by
  have hcheck : checkpoint {} = .ok () := rfl
  simp only [onRead, hcheck]
  rw [if_neg (Nat.not_lt.mpr h), if_neg (by simp)]

theorem taken_le (place : Place) (turn : Option Nat) : taken place turn ≤ requested place := by
  cases turn with
  | none => exact Nat.zero_le _
  | some more => exact Nat.min_le_right _ _

theorem onHeader_frame {payload : Bytes} (hfits : Framing.Fits MAX_FRAME payload) :
    onHeader (be32 payload.length) = .ok (.payload payload.length []) := by
  have hword : payload.length < 2 ^ 32 := hfits.bounded.trans_lt maxFrame_lt_word
  have hsize : fromBe32 (be32 payload.length) = payload.length := by
    have h := fromBe32_be32 hword []
    rwa [List.append_nil] at h
  have hpos := hfits.nonempty
  have hmax := hfits.bounded
  rw [onHeader, hsize, if_neg (by simp), if_neg (by omega)]

/-- A read inside a frame goes on in it or, with the last byte, comes to the event. -/
theorem within_step (php : Php) (inv : Invocation) {payload : Bytes} (hfits : Framing.Fits MAX_FRAME payload) {vars : Vars}
    {s : State} {stream : Bytes} (h : Within payload vars s stream) (turn : Option Nat) :
    (∃ t effects, step php inv s (.read {} (some (stream.take (taken s.place turn))) false) =
        some (.next t effects) ∧ Within payload vars t (stream.drop (taken s.place turn))) ∨
    ∃ effects, step php inv s (.read {} (some (stream.take (taken s.place turn))) false) =
      some (onPayload php inv vars payload effects) := by
  cases h with
  | @header got rest hgot hframe =>
    have hlength : got.length + rest.length = 4 := by
      rw [← List.length_append, hframe, length_be32]
    have htaken : taken (.header got) turn ≤ rest.length := by
      have hle := taken_le (.header got) turn
      simp only [requested] at hle
      omega
    generalize taken (.header got) turn = k at htaken
    have hchunk : (rest.take k).length ≤ 4 - got.length := by
      rw [List.length_take]
      omega
    left
    rw [List.take_append_of_le_length htaken, List.drop_append_of_le_length htaken]
    simp only [step, onRead_chunk hchunk, Option.map_some]
    by_cases hlast : k = rest.length
    · rw [List.take_of_length_le (Nat.le_of_eq hlast.symm), hframe, onHeader_frame hfits,
        List.drop_of_length_le (Nat.le_of_eq hlast.symm)]
      have hne : payload ≠ [] := List.ne_nil_of_length_pos hfits.nonempty
      exact ⟨_, _, rfl, .payload hne rfl⟩
    · have hshort : (got ++ rest.take k).length < 4 := by
        rw [List.length_append, List.length_take]
        omega
      rw [onHeader, if_pos hshort]
      refine ⟨_, _, rfl, .header hshort ?_⟩
      rw [List.append_assoc, List.take_append_drop, hframe]
  | @payload got _ hne hpayload =>
    have hlength : got.length + stream.length = payload.length := by
      rw [← List.length_append, hpayload]
    have htaken : taken (.payload payload.length got) turn ≤ stream.length := by
      have hle := taken_le (.payload payload.length got) turn
      simp only [requested] at hle
      omega
    generalize taken (.payload payload.length got) turn = k at htaken
    have hchunk : (stream.take k).length ≤ payload.length - got.length := by
      rw [List.length_take]
      omega
    simp only [step, onRead_chunk hchunk, Option.map_some]
    by_cases hlast : k = stream.length
    · right
      rw [List.take_of_length_le (Nat.le_of_eq hlast.symm), hpayload, if_neg (Nat.lt_irrefl _)]
      exact ⟨_, rfl⟩
    · left
      have hshort : (got ++ stream.take k).length < payload.length := by
        rw [List.length_append, List.length_take]
        omega
      rw [if_pos hshort]
      refine ⟨_, _, rfl, .payload ?_ ?_⟩
      · intro hnil
        have hzero := congrArg List.length hnil
        rw [List.length_drop, List.length_nil] at hzero
        omega
      · rw [List.append_assoc, List.take_append_drop, hpayload]

theorem within_pos {payload : Bytes} (hfits : Framing.Fits MAX_FRAME payload) {vars : Vars}
    {s : State} {stream : Bytes} (h : Within payload vars s stream) :
    0 < stream.length ∧ 0 < requested s.place := by
  have hpos := hfits.nonempty
  cases h with
  | header hgot _ =>
    rw [List.length_append, requested]
    omega
  | @payload got _ hne hpayload =>
    have hrest := List.length_pos_of_ne_nil hne
    have hlength := congrArg List.length hpayload
    rw [List.length_append] at hlength
    rw [requested]
    omega

/-- With enough turns a frame is read to its end, whatever its pieces. -/
theorem drain_frame {payload : Bytes} (hfits : Framing.Fits MAX_FRAME payload) {vars : Vars}
    {execution : Execution}
    (hend : ∀ effects, onPayload php inv vars payload effects = .exit execution effects)
    {turns : List (Option Nat)} {s : State} {stream : Bytes} (h : Within payload vars s stream)
    (hturns : stream.length ≤ (turns.filter Option.isSome).length) :
    drain php inv s stream turns = some execution := by
  induction turns generalizing s stream with
  | nil =>
    have hpos := (within_pos hfits h).1
    exact absurd hturns (Nat.not_le.mpr hpos)
  | cons turn turns ih =>
    obtain ⟨hpos, hrequested⟩ := within_pos hfits h
    rw [drain]
    rcases within_step php inv hfits h turn with
      ⟨t, effects, hstep, hnext⟩ | ⟨effects, hstep⟩
    · rw [hstep]
      refine ih hnext ?_
      rw [List.length_drop]
      cases turn with
      | none =>
        simp only [List.filter_cons, Option.isSome_none, Bool.false_eq_true, if_false] at hturns
        omega
      | some more =>
        simp only [List.filter_cons, Option.isSome_some, if_true, List.length_cons] at hturns
        have htaken : 1 ≤ taken s.place (some more) := by
          rw [taken]
          omega
        omega
    · rw [hstep, hend]

/-! ## The completed event -/

section Completed

open Guest (MrbValue Heap Host NativeResult Unfolds NulFree Textual IsTime completedEvent)
open Supervisor (Loop Effect)

variable {request : Request} {host : Host} {native : NativeResult} {time : Value} {heap : Heap}
  {v : MrbValue} {d : Doc}

theorem onPayload_finish {payload : Bytes} {entries : List (String × Doc)} {vars : Vars}
    {execution : Execution} {effects : List Execute.Effect}
    (hdecode : php.decode payload = some (.object entries))
    (hevent : onEvent php inv vars (.object entries) = .ok (.finish execution)) :
    onPayload php inv vars payload effects = .exit execution effects := by
  have hincoming : incoming php payload = .ok (.object entries) := by
    rw [incoming, hdecode]
  simp only [onPayload, hincoming, bind, Except.bind, hevent]

/-- The numbers of a result are left alone by every reader. -/
theorem result_reread (hd : Unfolds heap d v) (g : UInt64 → Number) (round : Json.Integer → UInt64) :
    (d.canon.mapNumbers (Number.reread g)).mapNumbers (narrowNumber round) = d.canon := by
  have hkeeps : d.every (Doc.keeps (narrowNumber round)) = true := by
    refine Guest.unfolds_every (fun d hnumber => ?_) (fun i => ?_) hd
    · cases d with
      | number n => exact absurd rfl (hnumber n)
      | null | bool | string | array | object => rfl
    · refine decide_eq_true ?_
      rw [narrowNumber]
      exact if_pos i.property.2
  rw [Doc.mapNumbers_reread (Doc.floatFree_canon (Guest.unfolds_floatFree hd)),
    Doc.mapNumbers_of_keeps _ (Doc.every_canon (fun _ => rfl) (fun _ => rfl) hkeeps)]

/-- What `json_decode` makes of an object: an object with the same members, up to their numbers. -/
theorem decoded_object {serde : SerdeJson} (hreads : php.Reads serde) {v : Value}
    {written : List (String × Doc)} (hdoc : v.doc = .object written)
    (hreadable : readable v.doc = true) (hnesting : v.doc.nesting ≤ decodeDepth) :
    ∃ (g : UInt64 → Number) (entries : List (String × Doc)),
      php.decode (serde.toVec v) = some (.object entries) ∧
      ∀ key, (Doc.object entries).index key =
        ((v.index key).mapNumbers (Number.reread g)).mapNumbers (narrowNumber php.round) := by
  obtain ⟨g, hdecode⟩ := hreads.accepts
  have hdecode := hdecode v hreadable hnesting
  have hindex : ∀ key, ((v.doc.mapNumbers (Number.reread g)).mapNumbers
      (narrowNumber php.round)).index key =
      ((v.index key).mapNumbers (Number.reread g)).mapNumbers (narrowNumber php.round) := by
    intro key
    rw [Doc.index_mapNumbers, Doc.index_mapNumbers]
    rfl
  obtain ⟨entries, hentries⟩ : ∃ entries, (v.doc.mapNumbers (Number.reread g)).mapNumbers
      (narrowNumber php.round) = .object entries := by
    rw [hdoc]
    exact ⟨_, rfl⟩
  rw [hentries] at hdecode hindex
  exact ⟨g, entries, hdecode, hindex⟩

/-- A completed event with the right identity is up to its two members. -/
theorem onEvent_completed {event : Doc} {vars : Vars}
    (hprotocol : (event.index "protocol").asStr = some PROTOCOL)
    (hid : (event.index "execution_id").asStr = some inv.executionId)
    (hkind : event.index "kind" = .string "completed") :
    onEvent php inv vars event = onCompleted inv vars event := by
  rw [onEvent, if_neg (by simp [hprotocol, hid]), hkind,
    if_neg (by decide : ¬ isCase (.string "completed") "log" = true),
    if_neg (by decide : ¬ isCase (.string "completed") "call" = true),
    if_pos (by decide : isCase (.string "completed") "completed" = true)]

/-- A completed event that the client can read has the members that were written, up to
their numbers, and ends the call with them. -/
theorem completed_decoded {serde : SerdeJson} (hreads : php.Reads serde)
    (hid : inv.executionId = request.executionId) {host : Host} {native : NativeResult}
    {result time : Value}
    (hreadable : readable (completedEvent request host native result time).doc = true)
    (hnesting : (completedEvent request host native result time).doc.nesting ≤ decodeDepth) :
    ∃ (g : UInt64 → Number) (entries : List (String × Doc)),
      (∀ key, (Doc.object entries).index key =
        (((completedEvent request host native result time).index key).mapNumbers
          (Number.reread g)).mapNumbers (narrowNumber php.round)) ∧
      ∀ vars execution, onCompleted inv vars (.object entries) = .ok (.finish execution) →
        ∀ effects, onPayload php inv vars
          (serde.toVec (completedEvent request host native result time)) effects =
            .exit execution effects := by
  obtain ⟨hprotocol, hexecution, hkind, _⟩ := Guest.index_completed request host native result time
  obtain ⟨g, entries, hdecode, hindex⟩ := decoded_object hreads rfl hreadable hnesting
  refine ⟨g, entries, hindex, fun vars execution hcompleted effects => ?_⟩
  refine onPayload_finish hdecode ?_
  rw [onEvent_completed, hcompleted]
  · rw [hindex, hprotocol]
    rfl
  · rw [hindex, hexecution, hid]
    rfl
  · rw [hindex, hkind]
    rfl

/-- What the client makes of the payload, without the texts of a reader in between. -/
theorem onPayload_completed {serde : SerdeJson} (host : Host) (hreads : php.Reads serde)
    (hid : inv.executionId = request.executionId) (hstatus : native.status = 0)
    (htime : IsTime time) (hd : Unfolds heap d v)
    (hnesting : (completedEvent request host native (Value.ofDoc d) time).doc.nesting ≤ decodeDepth)
    (vars : Vars) :
    (NulFree heap v → ∃ usage, ∀ effects, onPayload php inv vars
        (serde.toVec (completedEvent request host native (Value.ofDoc d) time)) effects =
      .exit
        { executionId := inv.executionId, result := d.canon, error := none, logs := vars.logs,
          usage, validatedOnly := inv.validateOnly } effects) ∧
    (¬ NulFree heap v → ∀ effects, onPayload php inv vars
        (serde.toVec (completedEvent request host native (Value.ofDoc d) time)) effects =
      .exit (execution inv vars (.json (utf8 "Syntax error"))) effects) := by
  have hreadable : readable (completedEvent request host native (Value.ofDoc d) time).doc = true ↔
      NulFree heap v := by
    rw [Guest.readable_completed htime, ← Guest.readable_iff hd]
    exact Bool.eq_iff_iff.mp (readable_canon (Guest.unfolds_distinct hd))
  constructor
  · intro hfree
    obtain ⟨g, entries, hindex, hend⟩ := completed_decoded hreads hid (hreadable.mpr hfree) hnesting
    have herror := Guest.error_completed request host native (Value.ofDoc d) time
    obtain ⟨_, _, _, hresult⟩ := Guest.index_completed request host native (Value.ofDoc d) time
    rw [Guest.reported_null request hstatus] at herror
    refine ⟨toArray ((Doc.object entries).index "usage"), hend vars _ ?_⟩
    rw [onCompleted, hindex "error", herror, hindex "result", hresult,
      show (Value.ofDoc d).doc = d.canon from rfl, result_reread hd]
    rfl
  · intro hfree effects
    have hbad : readable (completedEvent request host native (Value.ofDoc d) time).doc = false := by
      rw [Bool.eq_false_iff]
      exact fun h => hfree (hreadable.mp h)
    have hdecode := hreads.refuses _ (Or.inl hbad)
    rw [onPayload, incoming, hdecode]
    rfl

/-- The supervisor puts an event that it has read into the buffer for the host. -/
theorem event_accepted {serde : SerdeJson} {event : Value} {s : Loop} {outcome : ReadOutcome}
    (hfits : Framing.Fits MAX_FRAME (serde.toVec event))
    (hprotocol : event.index "protocol" = .string PROTOCOL)
    (hexecution : event.index "execution_id" = .string request.executionId)
    (hkind : event.index "kind" = .string "completed") (hphase : s.phase = .guest)
    (hopen : s.completed = false ∧ s.toHost.pending = false ∧ s.guestClosed = false)
    (hread : (s.guest.receive serde outcome).result = .ok (some event)) :
    ∃ t effects, Supervisor.step serde request s (.read outcome) =
      some (.next t (effects ++ [.enqueued .host event])) := by
  obtain ⟨hcompleted, hidle, hclosed⟩ := hopen
  have henqueue : s.toHost.enqueue serde event =
      ({ bytes := Framing.frame (serde.toVec event) }, .ok ()) := by
    rcases Writer.enqueue_cases serde s.toHost event with ⟨hp, _⟩ | ⟨_, hlarge, _⟩ | ⟨_, _, he⟩
    · rw [hidle] at hp
      cases hp
    · exact absurd hlarge (Nat.not_lt.mpr hfits.bounded)
    · exact he
  simp only [Supervisor.step, hphase, Supervisor.guestPhase, hcompleted, hidle, hclosed, hread,
    Bool.not_false, Bool.and_self, if_true, Supervisor.acceptEvent]
  rw [if_neg (by simp [hprotocol, hexecution, Doc.asStr])]
  simp only [Supervisor.admitEvent, hkind, Doc.asStr, henqueue]
  exact ⟨_, _, rfl⟩

/-! ## From the encoder to the application -/

/-- The way of an event to the host. The guest can write it, the supervisor reads it,
accepts it and, in a run that ends well and in time, has written it last. -/
structure Passes (serde : SerdeJson) (request : Request) (event relayed : Value) : Prop where
  written : writeFrame serde event = .ok (Framing.frame (serde.toVec event))
  read : serde.fromSlice (serde.toVec event) = .ok relayed
  accepted : ∀ (s : Loop) (outcome : ReadOutcome), s.phase = .guest →
    s.completed = false ∧ s.toHost.pending = false ∧ s.guestClosed = false →
    (s.guest.receive serde outcome).result = .ok (some relayed) →
    ∃ t effects, Supervisor.step serde request s (.read outcome) =
      some (.next t (effects ++ [.enqueued .host relayed]))
  sent : ∀ history, (Supervisor.machine serde request).Ends (.ok ()) history →
    .expired ∉ history → relayed ∈ Supervisor.receivedFrom .guest history →
    ∃ before, Supervisor.sentTo .host history =
      wire serde before ++ Framing.frame (serde.toVec relayed)

/-- A completed event that fits passes, with nothing changed but the measured time. -/
theorem passes_completed {serde : SerdeJson} (hn : serde.Numeric) (host : Host) (result : Value)
    (hfree : result.doc.floatFree = true) (hdepth : result.doc.nesting ≤ 65)
    (hfits : ∀ time, IsTime time →
      Framing.Fits MAX_FRAME (serde.toVec (completedEvent request host native result time)))
    (cpuMs : Option UInt64) :
    ∃ time, IsTime time ∧ Passes serde request
      (completedEvent request host native result (Guest.milliseconds cpuMs))
      (completedEvent request host native result time) := by
  obtain ⟨f, hreread⟩ := hn.rereads
  have htime := Guest.isTime_milliseconds cpuMs
  have htime' := htime.mapNumbers (Number.reread f)
  have hnesting : (completedEvent request host native result
      (Guest.milliseconds cpuMs)).doc.nesting ≤ 66 := Guest.nesting_completed htime (by decide) hdepth
  have hback := hreread _ (hnesting.trans_lt (by decide))
  rw [Guest.completed_reread hfree] at hback
  obtain ⟨hprotocol, hexecution, hkind, _⟩ := Guest.index_completed request host native
    result ((Guest.milliseconds cpuMs).mapNumbers (Number.reread f))
  refine ⟨_, htime', ?_, hback, ?_, ?_⟩
  · rw [writeFrame, if_neg (Nat.not_lt.mpr (hfits _ htime).bounded)]
    rfl
  · intro s outcome hphase hopen hread
    exact event_accepted (hfits _ htime') hprotocol hexecution hkind hphase hopen hread
  · intro history hends hintime hreceived
    have hdone : Supervisor.Relay.isCompleted (completedEvent request host native result
        ((Guest.milliseconds cpuMs).mapNumbers (Number.reread f))) = true := by
      rw [Supervisor.Relay.isCompleted, hkind]
      rfl
    obtain ⟨before, hsent⟩ := Supervisor.Relay.completed_sent hends hintime hreceived hdone
    rw [wire_singleton (hfits _ htime').bounded] at hsent
    exact ⟨before, hsent⟩

/-- A client that comes to this frame and can read it in time ends with an `Execution` of
the kind, whatever the pieces in which the frame arrives. -/
def Concludes (php : Php) (inv : Invocation) (payload : Bytes) (kind : Execution → Prop) : Prop :=
  ∀ vars history turns, (machine php inv).Reaches ⟨.header [], vars⟩ history →
    (Framing.frame payload).length ≤ (turns.filter Option.isSome).length →
    ∃ execution history', drain php inv ⟨.header [], vars⟩ (Framing.frame payload) turns =
        some execution ∧
      (machine php inv).Ends execution history' ∧ kind execution

theorem Concludes.of_payload {payload : Bytes} {kind : Execution → Prop}
    (hfits : Framing.Fits MAX_FRAME payload)
    (h : ∀ vars, ∃ execution, kind execution ∧
      ∀ effects, onPayload php inv vars payload effects = .exit execution effects) :
    Concludes php inv payload kind := by
  intro vars history turns hreach hturns
  obtain ⟨execution, hkind, hend⟩ := h vars
  have hdrain := drain_frame hfits hend (within_start payload vars) hturns
  obtain ⟨history', hends⟩ := drain_ends hreach hdrain
  exact ⟨execution, history', hdrain, hends, hkind⟩

def boundaryError : Diagnostic :=
  .transport (utf8 "Invalid structured data at the engine boundary.")

/-- An accepted result gets to the application as it is, exactly if no key in it begins
with a NUL byte; with such a key the client reports an error of its own instead. -/
theorem result_fidelity (serde : SerdeJson) (hs : serde.Standard) (hn : serde.Numeric) (php : Php)
    (hreads : php.Reads serde) (request : Request) (hvalid : request.validate = .ok ())
    (heap : Heap) (v : MrbValue) (htext : Textual heap v) (json : Bytes)
    (hencode : Guest.encode heap request.limits.resultBytes [] v 0 = .ok json) (host : Host)
    (native : NativeResult) (hstatus : native.status = 0) (hjson : native.json = some json)
    (cpuMs : Option UInt64) :
    ∃ d event relayed, Unfolds heap d v ∧
      Guest.conclusion serde request host native cpuMs = .ok event ∧
      Passes serde request event relayed ∧
      ∀ inv : Invocation, inv.executionId = request.executionId →
        Concludes php inv (serde.toVec relayed) (fun execution =>
          ((execution.error = none ∧ execution.result = d.canon) ↔ NulFree heap v) ∧
            (¬ NulFree heap v → execution.error = some boundaryError)) := by
  have hrequest := Request.validate_iff.mp hvalid
  obtain ⟨d, hd, hheight, _⟩ := Guest.encode_ok htext hencode
  have hdepth : (Value.ofDoc d).doc.nesting ≤ 65 :=
    (Doc.nesting_canon_le d).trans ((Doc.nesting_le_height_succ d).trans (by omega))
  have hfree : (Value.ofDoc d).doc.floatFree = true :=
    Doc.floatFree_canon (Guest.unfolds_floatFree hd)
  have herror : ∀ float, ((compactWith float).render (Guest.reported request native).doc).length ≤
      40000 := by
    intro float
    rw [Guest.reported_null request hstatus]
    exact (by decide : Json.Ascii.null.length ≤ 40000)
  have hfits : ∀ time, IsTime time → Framing.Fits MAX_FRAME
      (serde.toVec (completedEvent request host native (Value.ofDoc d) time)) :=
    fun time ht => Guest.fits_completed hn hrequest host ht
      (Guest.length_encoded hrequest hd hencode) herror
  obtain ⟨time, htime, hpasses⟩ := passes_completed hn host _ hfree hdepth hfits cpuMs
  have hnesting : (completedEvent request host native (Value.ofDoc d) time).doc.nesting ≤ 66 :=
    Guest.nesting_completed htime (by decide) hdepth
  refine ⟨d, _, _, hd, Guest.conclusion_encoded hs hd hencode hjson cpuMs, hpasses, ?_⟩
  intro inv hid
  refine Concludes.of_payload (hfits _ htime) (fun vars => ?_)
  obtain ⟨hgood, hbad⟩ := onPayload_completed host hreads hid hstatus htime hd
    (hnesting.trans (by decide)) vars
  by_cases hnul : NulFree heap v
  · obtain ⟨usage, hend⟩ := hgood hnul
    exact ⟨_, ⟨iff_of_true ⟨rfl, rfl⟩ hnul, fun h => absurd hnul h⟩, hend⟩
  · refine ⟨_, ⟨iff_of_false ?_ hnul, fun _ => rfl⟩, hbad hnul⟩
    rintro ⟨hnone, _⟩
    cases hnone

theorem result_fidelity_sample :
    ∃ d event relayed, Unfolds Guest.sampleHeap d (.object 0) ∧
      Guest.conclusion .reference Request.sample (.new Request.sample)
        { json := some ([0x7b, 0x22, 0x61, 0x22, 0x3a, 0x22] ++ utf8 "é" ++ [0x22, 0x7d]) }
        (some 0x3ff0000000000000) = .ok event ∧
      Passes .reference Request.sample event relayed ∧
      ∀ inv : Invocation, inv.executionId = "e" →
        Concludes .reference inv (SerdeJson.reference.toVec relayed) (fun execution =>
          ((execution.error = none ∧ execution.result = d.canon) ↔
              NulFree Guest.sampleHeap (.object 0)) ∧
            (¬ NulFree Guest.sampleHeap (.object 0) → execution.error = some boundaryError)) :=
  result_fidelity .reference SerdeJson.reference_standard SerdeJson.reference_numeric .reference
    Php.reference_reads Request.sample (by decide) Guest.sampleHeap (.object 0)
    Guest.sampleHeap_textual _ (by decide) (.new Request.sample) _ rfl rfl _

/-! ## A key that begins with a NUL byte -/

def nulHeap : Heap
  | 0 => .hash [(.string [0, 0x61], .integer ⟨1, by decide⟩)]
  | _ => .other

/-- The text of the hash in the heap. -/
def nulJson : Bytes := Guest.style.render (.object [("\x00a", .number (.int ⟨1, by decide⟩))])

def nulPayload : Bytes :=
  ((Guest.conclusion .reference Request.sample (.new Request.sample) { json := some nulJson } none
    >>= fun event => (SerdeJson.reference.fromSlice (SerdeJson.reference.toVec event)).mapError
      JsonError.message).toOption.map SerdeJson.reference.toVec).getD []

def nulInvocation : Invocation where
  executionId := "e"
  source := utf8 "app.a"

/-- The engine is started and has taken the request. -/
def nulAnswers : List Answer :=
  [.opened true, .wrote {} ((outgoing .reference (Execute.request nulInvocation)).toOption.map List.length)
    false]

/-- The encoder accepts the hash, and the client cannot read the event. -/
theorem nul_key_refused :
    Guest.encode nulHeap Request.sample.limits.resultBytes [] (.object 0) 0 = .ok nulJson ∧
      ∃ execution history, (machine .reference nulInvocation).Ends execution history ∧
        drain .reference nulInvocation ⟨.header [], {}⟩ (Framing.frame nulPayload)
          [some 3, some 999] = some execution ∧
        execution.error = some boundaryError := by
  have hreach : (machine .reference nulInvocation).Reaches ⟨.header [], {}⟩
      [.wrote ((outgoing .reference (Execute.request nulInvocation)).toOption.getD [])] := by
    have hfollow : (machine .reference nulInvocation).follow initial [] nulAnswers =
        some (⟨.header [], {}⟩,
          [.wrote ((outgoing .reference (Execute.request nulInvocation)).toOption.getD [])]) := by
      decide +kernel
    exact Machine.Reaches.follow (.start ⟨rfl, rfl⟩) hfollow
  have hdrain : drain .reference nulInvocation ⟨.header [], {}⟩ (Framing.frame nulPayload)
      [some 3, some 999] =
        some (execution nulInvocation {} (.json (utf8 "Syntax error"))) := by
    decide +kernel
  obtain ⟨history, hends⟩ := drain_ends hreach hdrain
  exact ⟨by decide, _, history, hends, hdrain, rfl⟩

end Completed

end Execute

end RubyEngine.Client
