import RubyEngine.Guest.Dispatch
import RubyEngine.Guest.EncodeText
import RubyEngine.Guest.Native
import RubyEngine.Guest.Result
import RubyEngine.Transport

/-!
# Frames from the guest

Every value that crosses into Rust was encoded under the byte limit of the request, and
every text around it is bounded: the identity and the paths by the admission of the
request, the message and the type of an error by the buffers that hold them. So every
event fits into a frame, and so it does when the supervisor prints it again.
-/
namespace RubyEngine.Guest

open Json

/-! ## One execution -/

/-- The callbacks that the methods of the guest make. Their arguments are a new array. -/
inductive Crosses (request : Request) : Callback → Prop where
  | dispatch {heap : Heap} {address : Nat} {items : List MrbValue} {before name : Bytes}
      {callback : Callback} : heap address = .array items →
      appDispatch heap request.limits.resultBytes (pathsOf request) before name items =
        .exchanged (.ok callback) → Crosses request callback
  | call {heap : Heap} {address : Nat} {items : List MrbValue} {path : Bytes}
      {callback : Callback} : heap address = .array items →
      appCall heap request.limits.resultBytes (pathsOf request) path items = .ok callback →
      Crosses request callback
  | capture {heap : Heap} {address : Nat} {items : List MrbValue} {callback : Callback} :
      heap address = .array items →
      exchange .log [] (encodeArray heap request.limits.resultBytes items) = .ok callback →
      Crosses request callback
  | parse {heap : Heap} {text : Bytes} {callback : Callback} :
      exchange .json [] (encode heap request.limits.resultBytes [] (.string text) 0) =
        .ok callback → Crosses request callback

/-- The event that a turn writes. -/
def Turn.event : Turn → Option Value
  | .log event | .call event => some event
  | .answer _ | .failed => none

/-- The callbacks of an execution, with the events that are written. -/
def crossings (serde : SerdeJson) : Host → List Callback → Host × List Value
  | host, [] => (host, [])
  | host, callback :: rest =>
      let (host, turn) := host.turn serde callback.kind callback.path callback.json
      let (host, events) := crossings serde host rest
      (host, turn.event.toList ++ events)

/-- The guest writes the event as one frame, and so does the supervisor with what it reads. -/
def Travels (serde : SerdeJson) (event : Value) : Prop :=
  (serde.toVec event).length ≤ MAX_FRAME ∧
    writeFrame serde event = .ok (Framing.frame (serde.toVec event)) ∧
    ∃ again, serde.fromSlice (serde.toVec event) = .ok again ∧
      (serde.toVec again).length ≤ MAX_FRAME ∧
      ∀ writer : Writer, writer.pending = false → (writer.enqueue serde again).2 = .ok ()

/-! ## Callbacks -/

/-- What a callback has crossed with: a catalog path, if it is a call, and an encoded value. -/
structure Callback.Bounded (request : Request) (callback : Callback) : Prop where
  path : callback.kind = .call → callback.path ∈ pathsOf request
  json : ∃ heap v, encode heap request.limits.resultBytes [] v 0 = .ok callback.json

theorem exchange_ok {kind : Kind} {path : Bytes} {args : Except Exception Bytes}
    {callback : Callback} (h : exchange kind path args = .ok callback) :
    callback.kind = kind ∧ callback.path = path ∧ args = .ok callback.json := by
  cases args with
  | error e => cases h
  | ok json =>
    change (if 0 ∈ path then Except.error Exception.nullByte else Except.ok _) = _ at h
    split at h
    · cases h
    · rw [← Except.ok.inj h]
      exact ⟨rfl, rfl, rfl⟩

section

variable {request : Request} {callback : Callback} {heap : Heap} {items : List MrbValue}

theorem bounded_of_array {address : Nat} (haddress : heap address = .array items) {kind : Kind}
    {path : Bytes} (hpath : kind = .call → path ∈ pathsOf request)
    (h : exchange kind path (encodeArray heap request.limits.resultBytes items) = .ok callback) :
    callback.Bounded request := by
  obtain ⟨rfl, rfl, hjson⟩ := exchange_ok h
  refine ⟨hpath, heap, .object address, ?_⟩
  rw [encodeArray_eq heap _ haddress, hjson]

theorem bounded_of_value {v : MrbValue} {kind : Kind} {path : Bytes} (hkind : kind ≠ .call)
    (h : exchange kind path (encode heap request.limits.resultBytes [] v 0) = .ok callback) :
    callback.Bounded request := by
  obtain ⟨rfl, rfl, hjson⟩ := exchange_ok h
  exact ⟨fun hcall => absurd hcall hkind, heap, v, hjson⟩

theorem Crosses.bounded (h : Crosses request callback) : callback.Bounded request := by
  cases h with
  | @dispatch heap address items before name _ haddress hdispatch =>
    unfold appDispatch at hdispatch
    dsimp only at hdispatch
    split at hdispatch
    · next hmem => exact bounded_of_array haddress (fun _ => hmem) (Dispatched.exchanged.inj hdispatch)
    · split at hdispatch
      · cases hdispatch
      · exact bounded_of_value (by decide) (Dispatched.exchanged.inj hdispatch)
  | @call heap address items path _ haddress hcall =>
    unfold appCall at hcall
    split at hcall
    · next hmem => exact bounded_of_array haddress (fun _ => hmem) hcall
    · exact bounded_of_value (by decide) hcall
  | capture haddress hlog =>
    exact bounded_of_array haddress (fun hkind : Kind.log = .call => by cases hkind) hlog
  | parse hjson => exact bounded_of_value (by decide) hjson

end

/-- The event of a turn has the value that was read and, for a call, the path. -/
theorem Host.turn_event {serde : SerdeJson} {host next : Host} {kind : Kind} {path bytes : Bytes}
    {turn : Turn} {event : Value} (h : host.turn serde kind path bytes = (next, turn))
    (hevent : turn.event = some event) :
    ∃ value, serde.fromSlice bytes = .ok value ∧
      (event = logEvent host.execution value ∨
        kind = .call ∧ ∃ n name, utf8 name = path ∧
          event = callEvent host.execution n name value) := by
  unfold Host.turn at h
  split at h
  · next name value hname hvalue =>
    refine ⟨value, hvalue, ?_⟩
    cases kind with
    | unknown | json =>
      cases h
      cases hevent
    | log =>
      dsimp only at h
      split at h
      · cases h
        cases hevent
      · cases h
        exact Or.inl (Option.some.inj hevent).symm
    | call =>
      dsimp only at h
      split at h
      · cases h
        cases hevent
      · cases h
        exact Or.inr ⟨rfl, _, name, decodeUtf8_eq_some.mp hname, (Option.some.inj hevent).symm⟩
  · cases h
    cases hevent

theorem counted_crossings {request : Request} (serde : SerdeJson) (callbacks : List Callback)
    {host : Host} (h : host.Counted request) : (crossings serde host callbacks).1.Counted request := by
  induction callbacks generalizing host with
  | nil => exact h
  | cons callback rest ih => exact ih (h.turn serde callback.kind callback.path callback.json)

/-! ## Sizes -/

section

variable {serde : SerdeJson} {request : Request}

/-- A value that was encoded by the guest, as it is read. -/
structure Crossed (value : Value) : Prop where
  floatFree : value.doc.floatFree = true
  nesting : value.doc.nesting ≤ 65
  length : ∀ float, ((compactWith float).render value.doc).length ≤ 4 * 1024 * 1024

theorem crossed_null : Crossed .null where
  floatFree := rfl
  nesting := by decide
  length _ := (by decide : Json.Ascii.null.length ≤ 4 * 1024 * 1024)

theorem crossed_of_encode (hs : serde.Standard) (hstrict : serde.Strict)
    (hrequest : request.Admissible) {heap : Heap} {v : MrbValue} {json : Bytes} {value : Value}
    (hencode : encode heap request.limits.resultBytes [] v 0 = .ok json)
    (hread : serde.fromSlice json = .ok value) : Crossed value := by
  obtain ⟨d, hd, hheight, rfl, hlength⟩ := encode_of_validUtf8 hencode (hstrict.utf8 _ _ hread)
  have hfree := unfolds_floatFree hd
  have htext := (style_lawful.element hfree).text
  have hnesting := Doc.nesting_le_height_succ d
  rw [hs.parses _ _ htext (by omega)] at hread
  obtain rfl := Except.ok.inj hread
  refine ⟨Doc.floatFree_canon hfree, (Doc.nesting_canon_le d).trans (by omega), fun float => ?_⟩
  have hminimal : (compactWith float).Minimal := compact_minimal
  exact (hminimal.text htext).trans (hlength.trans (resultBytes_le hrequest))

/-- An event travels if it is short, and still is with the numbers that are read in it. -/
theorem travels_of_length (hn : serde.Numeric) {event : Value} (hnesting : event.doc.nesting < 128)
    (hfirst : (serde.toVec event).length ≤ MAX_FRAME)
    (hagain : ∀ f, (serde.toVec (event.mapNumbers (Number.reread f))).length ≤ MAX_FRAME) :
    Travels serde event := by
  obtain ⟨f, hrereads⟩ := hn.rereads
  refine ⟨hfirst, ?_, _, hrereads event hnesting, hagain f, ?_⟩
  · rw [writeFrame, if_neg (Nat.not_lt.mpr hfirst)]
    rfl
  · intro writer hidle
    rw [Writer.enqueue, hidle, if_neg Bool.false_ne_true, writeFrame,
      if_neg (Nat.not_lt.mpr (hagain f))]

theorem travels_of_floatFree (hn : serde.Numeric) {event : Value}
    (hnesting : event.doc.nesting < 128) (hfree : event.doc.floatFree = true)
    (hevent : ∀ float : UInt64 → Bytes,
      ((compactWith float).render event.doc).length ≤ MAX_FRAME) : Travels serde event := by
  obtain ⟨float, -, hprints⟩ := hn.prints
  have hfirst : (serde.toVec event).length ≤ MAX_FRAME := by
    rw [hprints]
    exact hevent float
  refine travels_of_length hn hnesting hfirst fun f => ?_
  have hsame : event.mapNumbers (Number.reread f) = event :=
    Value.ext_doc (Doc.mapNumbers_reread hfree)
  rw [hsame]
  exact hfirst

theorem length_protocol (float : UInt64 → Bytes) :
    (compactWith float).memberSize ("protocol", .string PROTOCOL) ≤ 27 :=
  length_memberSize_le float "protocol" (k := 12) (n := 15) (by decide)
    (by decide : (compact.quote PROTOCOL).length ≤ 15)

theorem length_execution (float : UInt64 → Bytes) {execution : String}
    (h : (utf8 execution).length ≤ 128) :
    (compactWith float).memberSize ("execution_id", .string execution) ≤ 786 := by
  have hmember := length_memberSize_le float "execution_id" (k := 16)
    (d := .string execution) (by decide) (length_quote_le float _)
  omega

theorem length_errorKind_le {native : NativeResult} (h : native.errorType.length < 64) :
    (utf8 (errorKind native)).length ≤ 63 := by
  unfold errorKind
  split
  · cases htype : decodeUtf8 native.errorType with
    | none => exact (by decide : (utf8 "ruby_error").length ≤ 63)
    | some kind =>
      rw [Option.getD_some, decodeUtf8_eq_some.mp htype]
      omega
  · split
    · exact (by decide : (utf8 "syntax_error").length ≤ 63)
    · split
      · exact (by decide : (utf8 "profile_error").length ≤ 63)
      · exact (by decide : (utf8 "ruby_error").length ≤ 63)

theorem length_position_le (s : Style) (p : Prop) [Decidable p] (n : Int32) :
    (s.render (if p then signed n else Value.null).doc).length ≤ 21 := by
  split
  · exact length_integer_le s _
  · exact (by decide : Json.Ascii.null.length ≤ 21)

/-! ## Events -/

theorem logEvent_travels (hn : serde.Numeric) (hrequest : request.Admissible) {value : Value}
    (hvalue : Crossed value) : Travels serde (logEvent request.executionId value) := by
  have hmax : 4 * 1024 * 1024 + 4096 ≤ MAX_FRAME := by decide
  refine travels_of_floatFree hn ?_ ?_ fun float => ?_
  · refine Nat.lt_of_le_of_lt (Value.nesting_object (n := 65) ?_) (by decide)
    simp [Doc.nesting, hvalue.nesting]
  · refine Value.floatFree_object ?_
    simp only [List.forall_mem_cons]
    exact ⟨rfl, rfl, rfl, hvalue.floatFree, by simp⟩
  · have hprotocol := length_protocol float
    have hexecution := length_execution float hrequest.identity.2
    have hkind := length_memberSize_le float "kind" (k := 8) (d := .string "log") (n := 5)
      (by decide) (by decide : (compact.quote "log").length ≤ 5)
    have hvalues := length_memberSize_le float "values" (k := 10) (by decide)
      (hvalue.length float)
    refine (Style.length_valueObject_le _).trans ?_
    simp only [List.map_cons, List.map_nil, List.sum_cons, List.sum_nil, Value.doc_string]
    omega

theorem callEvent_travels (hn : serde.Numeric) (hrequest : request.Admissible) {value : Value}
    (hvalue : Crossed value) {name : String} (hname : (utf8 name).length ≤ 256) (n : Nat) :
    Travels serde (callEvent request.executionId n name value) := by
  have hmax : 4 * 1024 * 1024 + 4096 ≤ MAX_FRAME := by decide
  refine travels_of_floatFree hn ?_ ?_ fun float => ?_
  · refine Nat.lt_of_le_of_lt (Value.nesting_object (n := 65) ?_) (by decide)
    simp [Doc.nesting, Doc.u64, hvalue.nesting]
  · refine Value.floatFree_object ?_
    simp only [List.forall_mem_cons]
    exact ⟨rfl, rfl, rfl, rfl, rfl, hvalue.floatFree, by simp⟩
  · have hprotocol := length_protocol float
    have hexecution := length_execution float hrequest.identity.2
    have hkind := length_memberSize_le float "kind" (k := 8) (d := .string "call") (n := 6)
      (by decide) (by decide : (compact.quote "call").length ≤ 6)
    have hsequence := length_memberSize_le float "sequence" (k := 12) (by decide)
      (length_u64_le (compactWith float) n)
    have hpath := length_memberSize_le float "path" (k := 8) (d := .string name)
      (by decide) (length_quote_le float _)
    have hargs := length_memberSize_le float "args" (k := 8) (by decide)
      (hvalue.length float)
    refine (Style.length_valueObject_le _).trans ?_
    simp only [List.map_cons, List.map_nil, List.sum_cons, List.sum_nil, Value.doc_string,
      Value.doc_u64]
    omega

/-- The longest diagnostic: every byte of the message is replaced and every character of the
others is escaped. -/
theorem length_reported {native : NativeResult} (hrequest : request.Admissible)
    (hnative : native.Left request) (float : UInt64 → Bytes) :
    ((compactWith float).render (reported request native).doc).length ≤ 40000 := by
  unfold reported
  split
  · have hkind := length_errorKind_le hnative.errorType
    have hlossy := length_lossy_le native.error
    have herror := hnative.error
    have hfilename := hrequest.filename.1
    have htype := length_memberSize_le float "type" (k := 8) (d := .string (errorKind native))
      (by decide) (length_quote_le float _)
    have hmessage := length_memberSize_le float "message" (k := 11)
      (d := .string (lossy native.error)) (by decide) (length_quote_le float _)
    have hsource := length_memberSize_le float "source" (k := 10)
      (d := .string request.filename) (by decide) (length_quote_le float _)
    have hline := length_memberSize_le float "line" (k := 8) (by decide)
      (length_position_le (compactWith float) (0 < native.line) native.line)
    have hcolumn := length_memberSize_le float "column" (k := 10) (by decide)
      (length_position_le (compactWith float) (0 < native.line ∧ 0 ≤ native.column) native.column)
    refine (Style.length_valueObject_le _).trans ?_
    simp only [List.map_cons, List.map_nil, List.sum_cons, List.sum_nil, Value.doc_string]
    omega
  · exact (by decide : Json.Ascii.null.length ≤ 40000)

theorem completed_travels (hn : serde.Numeric) (hrequest : request.Admissible)
    {native : NativeResult} (hnative : native.Left request) (host : Host) {result time : Value}
    (htime : IsTime time) (hresult : Crossed result) :
    Travels serde (completedEvent request host native result time) := by
  have hfits : ∀ time, IsTime time →
      (serde.toVec (completedEvent request host native result time)).length ≤ MAX_FRAME :=
    fun time ht => (fits_completed hn hrequest host ht hresult.length
      (length_reported hrequest hnative)).bounded
  have hnesting : (completedEvent request host native result time).doc.nesting ≤ 66 :=
    nesting_completed htime (by decide) hresult.nesting
  refine travels_of_length hn (hnesting.trans_lt (by decide)) (hfits time htime) fun f => ?_
  rw [completed_reread hresult.floatFree]
  exact hfits _ (htime.mapNumbers (Number.reread f))

/-! ## All of them -/

theorem path_length_le (hrequest : request.Admissible) {path : Bytes}
    (h : path ∈ pathsOf request) : path.length ≤ 256 := by
  obtain ⟨allowed, hallowed, rfl⟩ := List.mem_map.mp h
  exact (hrequest.catalog allowed hallowed).1

/-- Whatever a callback writes travels. -/
theorem turn_travels (hs : serde.Standard) (hn : serde.Numeric) (hstrict : serde.Strict)
    (hrequest : request.Admissible) {callback : Callback} (hcallback : callback.Bounded request)
    {host next : Host} (hhost : host.execution = request.executionId) {turn : Turn}
    (h : host.turn serde callback.kind callback.path callback.json = (next, turn)) {event : Value}
    (hevent : turn.event = some event) : Travels serde event := by
  obtain ⟨heap, v, hencode⟩ := hcallback.json
  obtain ⟨value, hread, hshape⟩ := Host.turn_event h hevent
  have hvalue := crossed_of_encode hs hstrict hrequest hencode hread
  rw [hhost] at hshape
  rcases hshape with rfl | ⟨hkind, n, name, hname, rfl⟩
  · exact logEvent_travels hn hrequest hvalue
  · have hlength := path_length_le hrequest (hcallback.path hkind)
    rw [← hname] at hlength
    exact callEvent_travels hn hrequest hvalue hlength n

theorem crossings_travel (hs : serde.Standard) (hn : serde.Numeric) (hstrict : serde.Strict)
    (hrequest : request.Admissible) {callbacks : List Callback}
    (hcallbacks : ∀ callback ∈ callbacks, callback.Bounded request) {host : Host}
    (hhost : host.Counted request) :
    ∀ event ∈ (crossings serde host callbacks).2, Travels serde event := by
  induction callbacks generalizing host with
  | nil => exact fun event hevent => absurd hevent (List.not_mem_nil)
  | cons callback rest ih =>
    intro event hevent
    rw [crossings] at hevent
    cases hturn : host.turn serde callback.kind callback.path callback.json with
    | mk next turn =>
      simp only [hturn, List.mem_append, Option.mem_toList] at hevent
      rcases hevent with hnow | hlater
      · exact turn_travels hs hn hstrict hrequest (hcallbacks callback (List.mem_cons_self ..))
          hhost.execution hturn hnow
      · have hnext := hhost.turn serde callback.kind callback.path callback.json
        rw [hturn] at hnext
        exact ih (fun c hc => hcallbacks c (List.mem_cons_of_mem _ hc)) hnext event hlater

/-- A finished run wrote an event with what the encoder left. -/
theorem conclusion_travels (hs : serde.Standard) (hn : serde.Numeric) (hstrict : serde.Strict)
    (hrequest : request.Admissible) {native : NativeResult} (hnative : native.Left request)
    (host : Host) {cpuMs : Option UInt64} {event : Value}
    (h : conclusion serde request host native cpuMs = .ok event) : Travels serde event := by
  have htime := isTime_milliseconds cpuMs
  unfold conclusion at h
  split at h
  · obtain rfl := Except.ok.inj h
    exact completed_travels hn hrequest hnative host htime crossed_null
  · next json hjson =>
    split at h
    · next value hread =>
      obtain rfl := Except.ok.inj h
      obtain ⟨heap, v, hencode⟩ := hnative.json json hjson
      exact completed_travels hn hrequest hnative host htime
        (crossed_of_encode hs hstrict hrequest hencode hread)
    · cases h

/-- Every event of an execution fits into a frame, and so does the supervisor's copy. -/
theorem frames_fit (hs : serde.Standard) (hn : serde.Numeric) (hstrict : serde.Strict)
    (hrequest : request.validate = .ok ()) {callbacks : List Callback}
    (hcallbacks : ∀ callback ∈ callbacks, Crosses request callback) {native : NativeResult}
    (hnative : native.Left request) (cpuMs : Option UInt64) :
    (∀ event ∈ (crossings serde (.new request) callbacks).2, Travels serde event) ∧
    ∀ event, run serde request (fun host => ((crossings serde host callbacks).1, native)) cpuMs =
      .ok event → Travels serde event := by
  have hadmissible := Request.validate_iff.mp hrequest
  constructor
  · exact crossings_travel hs hn hstrict hadmissible (fun c hc => (hcallbacks c hc).bounded)
      (Host.counted_new request)
  · intro event hrun
    exact conclusion_travels hs hn hstrict hadmissible hnative _ (run_ok hrun)

end

/-- A program with one log and the message of its error cut inside a character. -/
theorem frames_fit_sample :
    (∀ event ∈ (crossings SerdeJson.unicode (.new Request.sample)
      [⟨.log, [], utf8 "[1]"⟩]).2, Travels SerdeJson.unicode event) ∧
    ∀ event, run SerdeJson.unicode Request.sample (fun host =>
        ((crossings SerdeJson.unicode host [⟨.log, [], utf8 "[1]"⟩]).1,
          { error := [0xe2, 0x82], status := 2 })) none = .ok event →
      Travels SerdeJson.unicode event := by
  have hlog : exchange .log [] (encodeArray (fun _ => .array [.integer ⟨1, by decide⟩])
      Request.sample.limits.resultBytes [.integer ⟨1, by decide⟩]) =
      .ok ⟨.log, [], utf8 "[1]"⟩ := by decide
  refine frames_fit SerdeJson.unicode_standard SerdeJson.unicode_numeric SerdeJson.unicode_strict
    (by decide) (fun callback hcallback => ?_) ⟨fun json hjson => ?_, ?_, ?_⟩ none
  · obtain rfl := List.mem_singleton.mp hcallback
    exact @Crosses.capture _ _ 0 _ _ rfl hlog
  · cases hjson
  · decide
  · decide

end RubyEngine.Guest
