import RubyEngine.Client.Fidelity
import RubyEngine.Guest.Frames
import RubyEngine.Protocol.Delivery

/-!
# Failures of capabilities on their way through the program

A closure throws a failure with a code and a text. Both go to the guest in a reply, are
raised there in an exception and, if nothing rescues it, come back in the diagnostic of
the completed event.
-/
namespace RubyEngine.Client

open Json (Doc Number Spells Style Value)

/-! ## The spelling of a frame -/

theorem spells_spell (c : Char) : Spells (spell c) c := by
  unfold spell
  split
  · next h => exact h ▸ .short _ _ rfl
  split
  · next h => exact h ▸ .short _ _ rfl
  split
  · next h => exact h ▸ .short _ _ rfl
  split
  · next h => exact h ▸ .short _ _ rfl
  split
  · next h => exact h ▸ .short _ _ rfl
  split
  · next h => exact h ▸ .short _ _ rfl
  split
  · next h => exact h ▸ .short _ _ rfl
  split
  · next h => exact h ▸ .short _ _ rfl
  split
  · exact Json.spells_charEscape c
  · next hquote hbackslash _ _ _ _ _ _ hplain => exact .plain c (by omega) hquote hbackslash

theorem Php.frameStyle_lawful (php : Php) : php.frameStyle.Lawful := by
  intro c
  show Spells (frameSpell c) c
  unfold frameSpell
  split
  · next h => exact h ▸ .plain '/' (by decide) (by decide) (by decide)
  split
  · next hhigh =>
    refine .plain c (by omega) ?_ ?_
    · rintro rfl
      exact absurd hhigh.1 (by decide)
    · rintro rfl
      exact absurd hhigh.1 (by decide)
  · exact spells_spell c

theorem length_spell_le (c : Char) : (spell c).length ≤ 6 * (String.utf8EncodeChar c).length := by
  have hpos : 1 ≤ (String.utf8EncodeChar c).length :=
    List.length_pos_of_ne_nil String.utf8EncodeChar_ne_nil
  have hunit : ∀ n, (Json.unitEscape n).length = 6 := fun _ => rfl
  have hescape : (Json.charEscape c).length ≤ 6 * (String.utf8EncodeChar c).length := by
    unfold Json.charEscape
    split
    · rw [hunit]
      omega
    · next hlarge =>
      have hfour : (String.utf8EncodeChar c).length = 4 := by
        rw [length_encode_high (by omega), if_neg (by omega), if_neg hlarge]
      rw [List.length_append, hunit, hunit, hfour]
      decide
  have htwo : ∀ a b : UInt8, [a, b].length ≤ 6 * (String.utf8EncodeChar c).length := by
    intro a b
    rw [List.length_cons, List.length_singleton]
    omega
  unfold spell
  repeat' split
  all_goals first | exact htwo _ _ | exact hescape | omega

theorem Php.length_quote_le (php : Php) (s : String) :
    (php.frameStyle.quote s).length ≤ 6 * (utf8 s).length + 2 := by
  refine Style.length_quote_le (fun c => ?_) s
  show (frameSpell c).length ≤ _
  have hspell := length_spell_le c
  have hpos : 1 ≤ (String.utf8EncodeChar c).length :=
    List.length_pos_of_ne_nil String.utf8EncodeChar_ne_nil
  unfold frameSpell
  split
  · rw [List.length_singleton]
    omega
  · split
    · omega
    · exact hspell

namespace Execute

open Guest (Callback Exception ExceptionObject Host MrbValue Heap crossings)
open Supervisor (Loop)

/-! ## The reply -/

/-- The members of the reply to a failed call. -/
def failureEntries (executionId : String) (sequence : Nat) (code message : String) :
    List (String × Value) :=
  [("protocol", .string PROTOCOL), ("execution_id", .string executionId), ("kind", .string "reply"),
    ("sequence", .u64 sequence), ("ok", .bool false), ("code", .string code),
    ("message", .string message)]

/-- The reply as it is read. -/
def failureReply (executionId : String) (sequence : Nat) (code message : String) : Value :=
  Value.object (failureEntries executionId sequence code message)

/-- The reply as it is written. -/
def failureDoc (executionId : String) (sequence : Nat) (code message : String) : Doc :=
  .object ((failureEntries executionId sequence code message).map (fun e => (e.1, e.2.doc)))

variable {php : Php} {inv : Invocation} {executionId code message : String} {sequence : Nat}

theorem failureReply_eq :
    Value.ofDoc (failureDoc executionId sequence code message) =
      failureReply executionId sequence code message := Value.ext_doc rfl

theorem failureReply_index :
    (failureReply executionId sequence code message).index "protocol" = .string PROTOCOL ∧
    (failureReply executionId sequence code message).index "execution_id" = .string executionId ∧
    (failureReply executionId sequence code message).index "kind" = .string "reply" ∧
    (failureReply executionId sequence code message).index "sequence" = .u64 sequence ∧
    (failureReply executionId sequence code message).index "ok" = .bool false ∧
    (failureReply executionId sequence code message).index "code" = .string code ∧
    (failureReply executionId sequence code message).index "message" = .string message := by
  simp [failureReply, failureEntries, SortedMap.lookup]

theorem length_failure (hid : (utf8 executionId).length ≤ 128) (hcode : (utf8 code).length ≤ 63)
    (hmessage : (utf8 message).length ≤ 2047) :
    (php.frameStyle.render (failureDoc executionId sequence code message)).length ≤ 20000 := by
  have hquote := php.length_quote_le
  have hname : ∀ name ∈ ["protocol", "execution_id", "kind", "sequence", "ok", "code", "message"],
      (php.frameStyle.quote name).length ≤ 80 := by
    intro name hmem
    have hshort : ∀ name ∈ ["protocol", "execution_id", "kind", "sequence", "ok", "code",
        "message"], (utf8 name).length ≤ 12 := by decide
    have hle := hquote name
    have hlength := hshort name hmem
    omega
  have hprotocol : (utf8 PROTOCOL).length ≤ 20 := by decide
  have hreply : (utf8 "reply").length ≤ 20 := by decide
  have hprotocol' := hquote PROTOCOL
  have hid' := hquote executionId
  have hreply' := hquote "reply"
  have hsequence := Guest.length_u64_le php.frameStyle sequence
  have hcode' := hquote code
  have hmessage' := hquote message
  simp only [List.forall_mem_cons] at hname
  obtain ⟨h1, h2, h3, h4, h5, h6, h7, _⟩ := hname
  rw [failureDoc, Style.length_object (by simp [failureEntries])]
  simp only [failureEntries, List.map_cons, List.map_nil, List.sum_cons, List.sum_nil,
    Style.memberSize, Value.doc_string, Value.doc_u64, Value.doc_bool]
  simp only [Style.render, Json.Ascii.false, List.length_cons, List.length_nil]
  omega

/-- The bytes that answer a call whose closure has thrown. -/
theorem outgoing_failure {failure : CapabilityFailure} (hcode : utf8 code = failure.errorType)
    (hmessage : utf8 message = failure.message)
    (hfits : (php.frameStyle.render (failureDoc inv.executionId sequence code message)).length ≤
      MAX_FRAME) :
    outgoing php (reply inv sequence (replyFields (.error (.capability failure)))) =
      .ok (Framing.frame
        (php.frameStyle.render (failureDoc inv.executionId sequence code message))) := by
  have hencode : encode 0 (reply inv sequence (replyFields (.error (.capability failure)))) =
      .ok (failureDoc inv.executionId sequence code message) := by
    rw [reply, replyFields, ← hcode, ← hmessage]
    simp only [member, text, List.cons_append, List.nil_append, encode, encodeEntries,
      encodeString_utf8]
    rfl
  rw [outgoing, hencode]
  exact if_neg (Nat.not_lt.mpr hfits)

/-- The client answers with the failure. -/
theorem step_threw {failure : CapabilityFailure} {vars : Vars} {path : String} {args : List Doc}
    (hcode : utf8 code = failure.errorType) (hmessage : utf8 message = failure.message)
    (hfits : (php.frameStyle.render
      (failureDoc inv.executionId vars.sequence code message)).length ≤ MAX_FRAME) :
    step php inv ⟨.calling path args, vars⟩ (.threw (.capability failure)) =
      some (.next ⟨.writing (Framing.frame (php.frameStyle.render
        (failureDoc inv.executionId vars.sequence code message))), vars⟩ []) := by
  show some (onOutcome php inv vars (.error (.capability failure))) = _
  rw [onOutcome, outgoing_failure hcode hmessage hfits]
  rfl

/-! ## In the guest -/

theorem hashGet_ofEntries (key : String) (records : Bool) (entries : List (String × Doc)) :
    Guest.hashGet key (Guest.Ruby.ofEntries records entries) =
      Guest.Ruby.ofDoc records ((Doc.object entries).index key) := by
  induction entries with
  | nil => rfl
  | cons e rest ih =>
    obtain ⟨name, d⟩ := e
    by_cases hname : key = name
    · subst hname
      simp [Guest.hashGet, Guest.Ruby.ofEntries, Doc.index, SortedMap.lookup]
    · have hbytes : utf8 name ≠ utf8 key := fun h => hname (utf8_injective h).symm
      simp only [Guest.hashGet, Doc.index] at ih
      simp [Guest.hashGet, Guest.Ruby.ofEntries, Doc.index, SortedMap.lookup, hname, hbytes, ih]

/-- A response that is an object and has room in the tree is opened as a record. -/
theorem conclude_record {response : Value} {entries : List (String × Doc)}
    (hdoc : response.doc = .object entries) (hheight : response.doc.height ≤ 64)
    (hfits : Guest.fitsWord response.doc = true) :
    Guest.conclude response =
      Guest.openEnvelope (.record (Guest.Ruby.ofEntries true entries)) := by
  obtain ⟨nodes, hnodes⟩ := (Guest.Tree.new_iff response.doc).mpr ⟨hheight, hfits⟩
  have hdecode := Guest.decode_new hnodes true
  rw [hdoc] at hdecode
  simp only [Guest.conclude, hnodes, hdecode]
  rfl

/-- The reply raises an exception with the two texts. -/
theorem conclude_failure (hsequence : sequence < 2 ^ 63) :
    Guest.conclude (failureReply executionId sequence code message) =
      .error (.raised (.capability (utf8 message) (some (utf8 code)))) := by
  obtain ⟨_, _, _, _, hok, hcode, hmessage⟩ := @failureReply_index executionId code message sequence
  generalize hentries : SortedMap.ofList ((failureEntries executionId sequence code message).map
    (fun e => (e.1, e.2.doc))) = entries
  have hdoc : (failureReply executionId sequence code message).doc = .object entries := by
    rw [← hentries]
    rfl
  have hword : Guest.fitsWord (.u64 sequence) = true := by
    simp [Guest.fitsWord, Doc.u64, Json.Integer.wrap, Doc.every]
    omega
  have hleaves : ∀ e ∈ failureEntries executionId sequence code message,
      e.2.doc.height = 0 ∧ Guest.fitsWord e.2.doc = true := by
    simp only [failureEntries, List.forall_mem_cons]
    exact ⟨⟨rfl, rfl⟩, ⟨rfl, rfl⟩, ⟨rfl, rfl⟩, ⟨rfl, hword⟩, ⟨rfl, rfl⟩, ⟨rfl, rfl⟩, ⟨rfl, rfl⟩,
      by simp⟩
  have hmembers : ∀ e ∈ entries, e.2.height = 0 ∧ Guest.fitsWord e.2 = true := by
    intro e he
    rw [← hentries] at he
    obtain ⟨m, hm, rfl⟩ := List.mem_map.mp (SortedMap.mem_ofList he)
    exact hleaves m hm
  have hheight : (failureReply executionId sequence code message).doc.height ≤ 64 := by
    rw [hdoc, Doc.height, Doc.heightEntries_le]
    intro e he
    rw [(hmembers e he).1]
    decide
  have hfits : Guest.fitsWord (failureReply executionId sequence code message).doc = true := by
    rw [hdoc, Guest.fitsWord_object]
    exact fun e he => (hmembers e he).2
  rw [conclude_record hdoc hheight hfits, Guest.openEnvelope]
  simp only [hashGet_ofEntries, ← hdoc]
  simp only [Value.index] at hok hcode hmessage
  rw [hok, hcode, hmessage]
  rfl

/-! ## The diagnostic -/

/-- A diagnostic with this code and this text. -/
def Names (diagnostic : Doc) (code message : String) : Prop :=
  diagnostic.index "type" = .string code ∧ diagnostic.index "message" = .string message

theorem Names.mapNumbers {diagnostic : Doc} (h : Names diagnostic code message)
    (f : Number → Number) : Names (diagnostic.mapNumbers f) code message := by
  obtain ⟨htype, htext⟩ := h
  constructor
  · rw [Doc.index_mapNumbers, htype]
    rfl
  · rw [Doc.index_mapNumbers, htext]
    rfl

/-- The diagnostic of an exception whose texts are in the two buffers. -/
theorem names_reported (request : Request) {native : Guest.NativeResult} (hstatus : native.status = 2)
    (hcode : native.errorType = utf8 code) (hne : utf8 code ≠ [])
    (hmessage : native.error = utf8 message) :
    Names (Guest.reported request native).doc code message := by
  have hkind : Guest.errorKind native = code := by
    rw [Guest.errorKind, hcode, if_pos hne, decodeUtf8_eq_some.mpr rfl, Option.getD_some]
  have hfailed : native.status ≠ 0 := by
    rw [hstatus]
    decide
  rw [Guest.reported, if_pos hfailed, Guest.diagnostic, hkind, hmessage, lossy_utf8]
  constructor
  · show Value.index _ _ = _
    simp [SortedMap.lookup]
  · show Value.index _ _ = _
    simp [SortedMap.lookup]

/-! ## The whole way -/

/-- The bytes of a code are letters, digits and underscores. -/
theorem errorType_text {bytes : Bytes} (h : isErrorType bytes = true) :
    (∃ code : String, utf8 code = bytes) ∧ bytes ≠ [] ∧ 0 ∉ bytes ∧ bytes.length ≤ 63 := by
  cases bytes with
  | nil => cases h
  | cons first rest =>
    simp only [isErrorType, Bool.and_eq_true, Bool.or_eq_true, decide_eq_true_eq, List.all_eq_true,
      UInt8.le_iff_toNat_le] at h
    obtain ⟨⟨hfirst, hlength⟩, hrest⟩ := h
    have hlow : (0x61 : UInt8).toNat = 0x61 ∧ (0x7a : UInt8).toNat = 0x7a ∧
        (0x30 : UInt8).toNat = 0x30 ∧ (0x39 : UInt8).toNat = 0x39 := by decide
    have hascii : ∀ b ∈ first :: rest, 0 < b.toNat ∧ b.toNat < 128 := by
      intro b hb
      rcases List.mem_cons.mp hb with rfl | hmem
      · omega
      · rcases hrest b hmem with (hletter | hdigit) | rfl
        · omega
        · omega
        · decide
    refine ⟨validUtf8_ascii fun b hb => (hascii b hb).2, List.cons_ne_nil _ _, fun hzero => ?_, ?_⟩
    · exact absurd (hascii 0 hzero).1 (by decide)
    · rw [List.length_cons]
      omega

variable {serde : SerdeJson} {request : Request}

/-- The supervisor forwards the reply that it waits for. -/
theorem failure_forwarded (hs : serde.Standard) (hc : serde.Compact)
    (hfits : Framing.Fits MAX_FRAME
      (php.frameStyle.render (failureDoc request.executionId sequence code message)))
    (hsequence : sequence < 2 ^ 63) :
    serde.fromSlice (php.frameStyle.render (failureDoc request.executionId sequence code message)) =
        .ok (failureReply request.executionId sequence code message) ∧
      ∀ s : Loop, s.pendingSequence = some sequence → s.toGuest.pending = false →
        Delivery.Forwards serde request s
          (failureReply request.executionId sequence code message) := by
  have hfree : (failureDoc request.executionId sequence code message).floatFree = true := by
    rw [failureDoc, Doc.floatFree_object, List.forall_mem_map]
    simp only [failureEntries, List.forall_mem_cons]
    exact ⟨rfl, rfl, rfl, rfl, rfl, rfl, rfl, by simp⟩
  have hnesting : (failureDoc request.executionId sequence code message).nesting < 128 := by
    simp [failureDoc, failureEntries, Doc.nesting, Doc.nestingEntries, Doc.u64]
  have htext := (php.frameStyle_lawful.element hfree).text
  rw [← failureReply_eq]
  refine ⟨hs.parses _ _ htext hnesting, fun s hpending hidle => ?_⟩
  obtain ⟨hprotocol, hexecution, hkind, hnumber, -⟩ :=
    @failureReply_index request.executionId code message sequence
  have hanswers : Supervisor.Answers request s
      (Value.ofDoc (failureDoc request.executionId sequence code message)) := by
    rw [failureReply_eq]
    refine ⟨?_, ?_, sequence, hpending, ?_⟩
    · rw [hprotocol, hexecution]
      exact ⟨rfl, rfl⟩
    · rw [hkind]
      rfl
    · rw [hnumber]
      exact Doc.asU64_u64 (by omega)
  exact (Delivery.forwards_iff hs hc hfits htext hnesting hfree hanswers).1.mpr hidle

/-- The guest accepts the reply to its call. -/
theorem failure_accepted {host : Host} (hexecution : host.execution = request.executionId)
    (hsequence : host.sequence < 2 ^ 63) :
    host.accepts (failureReply request.executionId host.sequence code message) = true := by
  obtain ⟨hprotocol, hid, hkind, hnumber, hok, -⟩ :=
    @failureReply_index request.executionId code message host.sequence
  rw [Guest.Host.accepts, hprotocol, hid, hkind, hnumber, hok,
    Doc.asU64_u64 (by omega : host.sequence < 2 ^ 64), hexecution]
  simp [Doc.asStr, Doc.isBoolean]

/-- An execution that ends with the two texts in its buffers ends with them in the client. -/
theorem failure_diagnosed (hn : serde.Numeric) (hreads : php.Reads serde)
    (hrequest : request.Admissible) (hid : inv.executionId = request.executionId)
    {native : Guest.NativeResult} (hleft : native.Left request) (hjson : native.json = none)
    (hnames : Names (Guest.reported request native).doc code message)
    (hstatus : native.status ≠ 0) (host : Host) (cpuMs : Option UInt64) :
    ∃ event relayed, Guest.conclusion serde request host native cpuMs = .ok event ∧
      Names (event.index "error") code message ∧ Passes serde request event relayed ∧
      Concludes php inv (serde.toVec relayed) (fun execution =>
        ∃ entries, execution.error = some (.engine entries) ∧
          Names (.object entries) code message) := by
  have hfits : ∀ time, Guest.IsTime time → Framing.Fits MAX_FRAME
      (serde.toVec (Guest.completedEvent request host native .null time)) :=
    fun time ht => Guest.fits_completed hn hrequest host ht Guest.crossed_null.length
      (Guest.length_reported hrequest hleft)
  obtain ⟨time, htime, hpasses⟩ := passes_completed hn host .null rfl (by decide) hfits cpuMs
  refine ⟨_, _, ?_, ?_, hpasses, Concludes.of_payload (hfits _ htime) (fun vars => ?_)⟩
  · rw [Guest.conclusion, hjson]
  · rw [Guest.error_completed]
    exact hnames
  · have hreadable : readable (Guest.completedEvent request host native .null time).doc = true :=
      Guest.readable_completed htime
    have hnesting : (Guest.completedEvent request host native .null time).doc.nesting ≤ 66 :=
      Guest.nesting_completed htime (by decide) (by decide : Value.null.doc.nesting ≤ 65)
    obtain ⟨g, entries, hindex, hend⟩ := completed_decoded hreads hid hreadable
      (hnesting.trans (by decide))
    have herror := hindex "error"
    rw [Guest.error_completed] at herror
    have hkept := (hnames.mapNumbers (Number.reread g)).mapNumbers (narrowNumber php.round)
    rw [← herror] at hkept
    obtain ⟨members, hmembers⟩ : ∃ members, (Doc.object entries).index "error" = .object members := by
      rw [herror, Guest.reported, if_pos hstatus]
      exact ⟨_, rfl⟩
    rw [hmembers] at hkept
    have hcompleted : onCompleted inv vars (.object entries) = .ok (.finish
        { executionId := inv.executionId
          result := (Doc.object entries).index "result"
          error := some (.engine members)
          logs := vars.logs
          usage := toArray ((Doc.object entries).index "usage")
          validatedOnly := inv.validateOnly }) := by
      rw [onCompleted, hmembers]
    exact ⟨_, ⟨members, rfl, hkept⟩, hend vars _ hcompleted⟩

/-- The stations of a failure that a closure throws, the answer to the call of a host in the
guest. -/
structure Survives (serde : SerdeJson) (php : Php) (request : Request) (inv : Invocation)
    (vars : Vars) (host : Host) (failure : CapabilityFailure) (code message : String)
    (payload : Bytes) (response : Value) (e : Exception) : Prop where
  sameCode : utf8 code = failure.errorType
  sameText : utf8 message = failure.message
  /-- The client writes the reply. -/
  written : ∀ path args, step php inv ⟨.calling path args, vars⟩ (.threw (.capability failure)) =
    some (.next ⟨.writing (Framing.frame payload), vars⟩ [])
  fits : Framing.Fits MAX_FRAME payload
  /-- The supervisor reads it, and forwards it when it waits for it. -/
  read : serde.fromSlice payload = .ok response
  forwarded : ∀ s : Loop, s.pendingSequence = some host.sequence → s.toGuest.pending = false →
    Delivery.Forwards serde request s response
  /-- The guest accepts it and raises an exception. -/
  accepted : host.accepts response = true
  raised : Guest.conclude response = .error (.raised e)
  /-- If nothing rescues the exception, the completed event and the `Execution` have the code
  and the text in their diagnostics. -/
  reported : ∀ (host : Host) (heap : Heap) (trace : Option (List MrbValue))
    (peakMemory instructions : Nat) (cpuMs : Option UInt64), ∃ event relayed,
      Guest.conclusion serde request host
        (Guest.rubyExecute request heap trace peakMemory instructions (.raised e.object)) cpuMs =
          .ok event ∧
      Names (event.index "error") code message ∧ Passes serde request event relayed ∧
      Concludes php inv (serde.toVec relayed) (fun execution =>
        ∃ entries, execution.error = some (.engine entries) ∧ Names (.object entries) code message)

/-- The code and the text of a failure come back to the application as they were thrown. -/
theorem failure_survives (serde : SerdeJson) (hs : serde.Standard) (hc : serde.Compact)
    (hn : serde.Numeric) (php : Php) (hreads : php.Reads serde) (request : Request)
    (hvalid : request.validate = .ok ()) (before : List Callback) (callback : Callback)
    (next : Host) (call : Value)
    (hcall : (crossings serde (.new request) before).1.turn serde callback.kind callback.path
      callback.json = (next, .call call))
    (inv : Invocation) (hid : inv.executionId = request.executionId) (vars : Vars)
    (hsequence : vars.sequence = next.sequence) (failure : CapabilityFailure) (message : String)
    (hmessage : utf8 message = failure.message) (hnul : 0 ∉ failure.message)
    (hlength : failure.message.length ≤ 2047) :
    ∃ code payload response e,
      Survives serde php request inv vars next failure code message payload response e := by
  have hrequest := Request.validate_iff.mp hvalid
  obtain ⟨⟨code, hcode⟩, hne, hcodeNul, hcodeLength⟩ := errorType_text failure.valid
  obtain ⟨hexecution, -, hcalls, hlimit⟩ : next.Counted request := by
    have hstart := Guest.counted_crossings serde before (Host.counted_new request)
    have hturn := hstart.turn serde callback.kind callback.path callback.json
    rwa [hcall] at hturn
  have hsmall : next.sequence < 2 ^ 63 := by
    have hceiling := hrequest.limits
    simp only [Limits.exceeds, Bool.or_eq_false_iff, decide_eq_false_iff_not] at hceiling
    omega
  have htext : (utf8 code).length ≤ 63 ∧ (utf8 message).length ≤ 2047 := by
    rw [hcode, hmessage]
    exact ⟨hcodeLength, hlength⟩
  have hbound : (php.frameStyle.render
      (failureDoc request.executionId next.sequence code message)).length ≤ MAX_FRAME :=
    (length_failure hrequest.identity.2 htext.1 htext.2).trans (by decide)
  have hfits : Framing.Fits MAX_FRAME (php.frameStyle.render
      (failureDoc request.executionId next.sequence code message)) := by
    refine ⟨?_, hbound⟩
    rw [failureDoc, Style.render, List.cons_append, List.length_cons]
    exact Nat.succ_pos _
  obtain ⟨hread, hforwards⟩ := failure_forwarded hs hc hfits hsmall
  refine ⟨code, _, _, _, hcode, hmessage, fun path args => ?_, hfits, hread, hforwards,
    failure_accepted hexecution hsmall, conclude_failure hsmall, ?_⟩
  · rw [← hid, ← hsequence] at hbound ⊢
    exact step_threw hcode hmessage hbound
  · intro host heap trace peakMemory instructions cpuMs
    have hroom : 0 ∉ utf8 message ∧ (utf8 message).length < 2048 := by
      rw [hmessage]
      exact ⟨hnul, by omega⟩
    have hcodeRoom : 0 ∉ utf8 code ∧ (utf8 code).length < 64 := by
      rw [hcode]
      exact ⟨hcodeNul, by omega⟩
    obtain ⟨hjson, hstatus, htype, herror⟩ := Guest.rubyExecute_capability request heap trace
      peakMemory instructions hroom hcodeRoom
    have hnames := names_reported request hstatus htype (hcode ▸ hne) herror
    exact failure_diagnosed hn hreads hrequest hid
      (Guest.rubyExecute_left peakMemory instructions _) hjson hnames (by rw [hstatus]; decide) host
      cpuMs

theorem utf8_letters (n : Nat) : utf8 (Delivery.letters n) = List.replicate n 0x61 := by
  rw [Delivery.letters, utf8_ofList]
  induction n with
  | zero => rfl
  | succ n ih =>
    rw [List.replicate_succ, encodeChars_cons, ih]
    rfl

/-- The longest code and the longest text. -/
def longestFailure : CapabilityFailure where
  errorType := List.replicate 63 0x61
  message := List.replicate 2047 0x61
  valid := by decide

theorem failure_survives_sample : ∃ code payload response e,
    Survives .reference .reference Request.sample nulInvocation { sequence := 1 }
      { Host.new Request.sample with calls := 1, sequence := 1 } longestFailure code
      (Delivery.letters 2047) payload response e :=
  failure_survives .reference SerdeJson.reference_standard SerdeJson.reference_compact
    SerdeJson.reference_numeric .reference Php.reference_reads Request.sample (by decide) []
    ⟨.call, utf8 "a", utf8 "[]"⟩ _ (Guest.callEvent "e" 1 "a" (.array [])) (by decide)
    nulInvocation rfl _ rfl longestFailure _ (utf8_letters 2047)
    (fun hzero => absurd (List.eq_of_mem_replicate hzero) (by decide)) List.length_replicate.le

end Execute

end RubyEngine.Client
