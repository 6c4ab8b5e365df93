import RubyEngine.Json.Utf8
import RubyEngine.Serde.Reference
import RubyEngine.Guest.TreeDecode
import RubyEngine.Guest.EncodeCorrect
import RubyEngine.Guest.HostCall

/-!
# JSON.generate and JSON.parse

Both helpers go through the conversions of the host calls. The value that
`JSON.parse` returns is a member of an envelope, and lies one level deeper there
than it lay under `JSON.generate`.
-/
namespace RubyEngine.Guest

open Json

/-! ## The helpers -/

def jsonGenerate (heap : Heap) (limit : Nat) (value : MrbValue) : Except Exception Bytes :=
  encode heap limit [] value 0

/-- `json_parse` on a string. The kind `json` never asks for a pipe. -/
def jsonParse (serde : SerdeJson) (host : Host) (heap : Heap) (limit : Nat) (text : Bytes) :
    Except Trap Ruby :=
  match exchangeBytes heap limit [] (.string text) with
  | .error e => .error (.raised e)
  | .ok json =>
      match (host.turn serde .json [] json).2 with
      | .answer response => conclude response
      | _ => .error (.raised .hostProtocol)

/-- The text as an argument of `json_parse`. -/
def quoted (text : Bytes) : Bytes := Ascii.quote :: text.flatMap byteEscape ++ [Ascii.quote]

/-! ## Equality -/

section

variable (heap : Heap)

mutual
/-- The value is the same as one of the heap, up to symbols that have become strings
and hashes that have become records. Like the hashes of Ruby, records are the same
if they have equally many keys and the same value under each. -/
def SameValue : Ruby → MrbValue → Prop
  | .nil, v => shape heap v = .nil
  | .bool b, v => shape heap v = .bool b
  | .integer i, v => ∃ w : Word, shape heap v = .integer w ∧ i = w.val
  | .float _, _ => False
  | .string bytes, v => shape heap v = .text bytes
  | .array items, v => ∃ others, shape heap v = .array others ∧ SameItems items others
  | .hash _, _ => False
  | .record entries, v => ∃ others, shape heap v = .hash others ∧
      entries.length = others.length ∧ (entries.map Prod.fst).Nodup ∧ SameEntries entries others
def SameItems : List Ruby → List MrbValue → Prop
  | [], others => others = []
  | r :: rest, others => ∃ v more, others = v :: more ∧ SameValue r v ∧ SameItems rest more
def SameEntries : List (Bytes × Ruby) → Entries → Prop
  | [], _ => True
  | (key, r) :: rest, others =>
      (∃ e ∈ others, e.1.text = some key ∧ SameValue r e.2) ∧ SameEntries rest others
end

variable {heap}

theorem sameEntries_iff {entries : List (Bytes × Ruby)} {others : Entries} :
    SameEntries heap entries others ↔
      ∀ r ∈ entries, ∃ e ∈ others, e.1.text = some r.1 ∧ SameValue heap r.2 e.2 := by
  induction entries with
  | nil => simp [SameEntries]
  | cons r rest ih => simp only [SameEntries, ih, List.forall_mem_cons]

theorem ofEntries_eq_map (records : Bool) (entries : List (String × Doc)) :
    Ruby.ofEntries records entries = entries.map (fun e => (utf8 e.1, Ruby.ofDoc records e.2)) := by
  induction entries with
  | nil => rfl
  | cons e rest ih => rw [Ruby.ofEntries, ih, List.map_cons]

theorem sameItems_of_unfolds {ds : List Doc} {items : List MrbValue}
    (h : ∀ d ∈ ds, ∀ v, Unfolds heap d v → SameValue heap (Ruby.ofDoc true d.canon) v)
    (hds : UnfoldsItems heap ds items) :
    SameItems heap (Ruby.ofItems true (Doc.canonItems ds)) items := by
  induction ds generalizing items with
  | nil => exact hds
  | cons d ds ih =>
    obtain ⟨v, rest, rfl, hd, hrest⟩ := hds
    exact ⟨v, rest, rfl, h d (by simp) v hd,
      ih (fun x hx => h x (List.mem_cons_of_mem _ hx)) hrest⟩

/-- The Ruby value of the unfolding, once read as a value, is the same again. -/
theorem sameValue_of_unfolds {d : Doc} {v : MrbValue} (h : Unfolds heap d v) :
    SameValue heap (Ruby.ofDoc true d.canon) v := by
  induction d using Doc.induct generalizing v with
  | null | bool | string => exact h
  | number n =>
    obtain ⟨i, hshape, rfl⟩ := h
    exact ⟨i, hshape, rfl⟩
  | array ds ih =>
    obtain ⟨items, hshape, hds⟩ := h
    exact ⟨items, hshape, sameItems_of_unfolds (fun d hd v hv => ih d hd hv) hds⟩
  | object ms ih =>
    obtain ⟨entries, hshape, hms, hnodup⟩ := h
    have hperm := Doc.canonEntries_perm hnodup
    rw [Doc.canon, Ruby.ofDoc, if_pos rfl]
    refine ⟨entries, hshape, ?_, ?_, ?_⟩
    · rw [ofEntries_eq_map, List.length_map, hperm.length_eq, List.length_map,
        unfoldsEntries_length hms]
    · have hkeys := nodup_keys (SortedMap.sorted_ofList (Doc.canonEntries ms))
      rw [ofEntries_eq_map, List.map_map]
      exact hkeys
    · rw [sameEntries_iff, ofEntries_eq_map]
      intro r hr
      obtain ⟨x, hx, rfl⟩ := List.mem_map.mp hr
      obtain ⟨m, hm, rfl⟩ := List.mem_map.mp (hperm.mem_iff.mp hx)
      obtain ⟨e, he, hkey, hd⟩ := unfoldsEntries_left hms m hm
      exact ⟨e, he, hkey, ih m hm hd⟩

/-! ## Bounds -/

theorem fitsWord_canon {d : Doc} {v : MrbValue} (h : Unfolds heap d v) :
    fitsWord d.canon = true := by
  induction d using Doc.induct generalizing v with
  | null | bool | string => rfl
  | number n =>
    obtain ⟨i, _, rfl⟩ := h
    simpa [fitsWord, Doc.canon, Doc.every, Word.toInteger] using i.property.2
  | array ds ih =>
    obtain ⟨items, _, hds⟩ := h
    rw [Doc.canon, fitsWord_array, Doc.canonItems_eq_map]
    intro e he
    obtain ⟨d, hd, rfl⟩ := List.mem_map.mp he
    obtain ⟨x, _, hx⟩ := unfoldsItems_left hds d hd
    exact ih d hd hx
  | object ms ih =>
    obtain ⟨entries, _, hms, hnodup⟩ := h
    rw [Doc.canon, fitsWord_object]
    intro e he
    obtain ⟨m, hm, rfl⟩ := List.mem_map.mp ((Doc.canonEntries_perm hnodup).mem_iff.mp he)
    obtain ⟨x, _, _, hx⟩ := unfoldsEntries_left hms m hm
    exact ih m hm hx

/-! ## The envelope -/

/-- The response of a helper that succeeds. -/
def parsedEnvelope (value : Value) : Value := Value.object [("ok", .bool true), ("value", value)]

theorem parsedEnvelope_doc (value : Value) :
    (parsedEnvelope value).doc = .object [("ok", .bool true), ("value", value.doc)] := by
  have hsorted : SortedMap.Sorted [("ok", Doc.bool true), ("value", value.doc)] := by
    simp only [SortedMap.Sorted, List.pairwise_pair]
    rw [String.lt_iff_toList_lt]
    decide
  rw [parsedEnvelope, Value.object]
  simp only [List.map_cons, List.map_nil, Value.doc_bool, SortedMap.ofList_of_sorted hsorted]

/-- A member lies one level below its envelope. -/
theorem conclude_parsed (value : Value) (hfits : fitsWord value.doc = true) :
    conclude (parsedEnvelope value) =
      if value.doc.height ≤ 63 then .ok (Ruby.ofDoc true value.doc)
      else .error (.raised .hostProtocol) := by
  have hheight : (parsedEnvelope value).doc.height = value.doc.height + 1 := by
    rw [parsedEnvelope_doc, Doc.height, Doc.heightEntries, Doc.heightEntries, Doc.heightEntries]
    simp [Doc.height]
  have hword : fitsWord (parsedEnvelope value).doc = true := by
    rw [parsedEnvelope_doc, fitsWord_object]
    simp only [List.forall_mem_cons, hfits]
    simp [fitsWord, Doc.every]
  have hnew := Tree.new_iff (parsedEnvelope value).doc
  rw [hheight] at hnew
  unfold conclude
  by_cases hlow : value.doc.height ≤ 63
  · obtain ⟨nodes, hnodes⟩ := hnew.mpr ⟨by omega, hword⟩
    rw [hnodes, if_pos hlow]
    simp only [decode_new hnodes true, parsedEnvelope_doc]
    rfl
  · rw [if_neg hlow]
    cases hnodes : Tree.new (parsedEnvelope value).doc with
    | error e => rfl
    | ok nodes =>
      have hadmitted := (hnew.mp ⟨nodes, hnodes⟩).1
      omega

/-! ## The round trip -/

theorem jsonData_render {serde : SerdeJson} (hserde : serde.Standard) {s : String} {d : Doc}
    (hfloat : d.floatFree = true) (hnesting : d.nesting < 128) (hs : utf8 s = style.render d) :
    jsonData serde (Value.ofDoc (.string s)) = parsedEnvelope (Value.ofDoc d) := by
  have hparse := hserde.parses _ d (style_lawful.element hfloat).text hnesting
  rw [← hs] at hparse
  have htext : (Value.ofDoc (.string s)).doc.asStr = some s := rfl
  simp only [jsonData, htext, Option.bind_some, hparse]
  rfl

/-- Parsing what `JSON.generate` printed comes down to the envelope. -/
theorem jsonParse_render {serde : SerdeJson} (hserde : serde.Standard) (host : Host) (heap : Heap)
    {limit : Nat} {d : Doc} (hfloat : d.floatFree = true) (hnesting : d.nesting < 128)
    (hquoted : (quoted (style.render d)).length ≤ limit) :
    jsonParse serde host heap limit (style.render d) =
      conclude (parsedEnvelope (Value.ofDoc d)) := by
  obtain ⟨s, hs⟩ := validUtf8_render style_lawful hfloat
  have hquote : quoted (style.render d) = style.quote s := by
    rw [quoted, ← hs, flatMap_utf8]
    rfl
  rw [hquote] at hquoted
  have hencode : encode heap limit [] (.string (utf8 s)) 0 = .ok (style.quote s) :=
    encode_of_unfolds (d := .string s) rfl (Nat.zero_le _) hquoted
  have hbytes : exchangeBytes heap limit [] (.string (style.render d)) = .ok (style.quote s) := by
    rw [← hs, exchangeBytes, hencode]
    rfl
  have hread := hserde.parses (style.quote s) (.string s)
    (style_lawful.element (d := .string s) rfl).text (by simp [Doc.nesting])
  have hturn : (host.turn serde .json [] (style.quote s)).2 =
      .answer (parsedEnvelope (Value.ofDoc d)) := by
    rw [← jsonData_render hserde hfloat hnesting hs, Host.turn, hread]
    rfl
  simp only [jsonParse, hbytes, hturn]

/-- What `JSON.generate` printed parses back to the same value exactly when nothing in it
lies at depth 64, the deepest level that the generator accepts. -/
theorem json_round_trip (serde : SerdeJson) (hserde : serde.Standard) (host : Host) (heap : Heap)
    (limit : Nat) (x : MrbValue) (text : Bytes) (htext : Textual heap x)
    (hgenerate : jsonGenerate heap limit x = .ok text) (hquoted : (quoted text).length ≤ limit) :
    (∃ r, jsonParse serde host heap limit text = .ok r ∧ SameValue heap r x) ↔
      ∀ w, ¬ Occurs heap x 64 w := by
  obtain ⟨d, hd, hheight, rfl, _⟩ := encode_ok htext hgenerate
  have hnesting : d.nesting < 128 := (Doc.nesting_le_height_succ d).trans_lt (by omega)
  have hparse := jsonParse_render hserde host heap (unfolds_floatFree hd) hnesting hquoted
  rw [conclude_parsed _ (fitsWord_canon hd)] at hparse
  have hdepth : d.canon.height = d.height := Doc.height_canon (unfolds_distinct hd)
  have hlow : (∀ w, ¬ Occurs heap x 64 w) ↔ d.height ≤ 63 := by
    rw [← not_exists, unfolds_occurs hd]
    omega
  rw [hlow, hparse]
  show (∃ r, (if d.canon.height ≤ 63 then _ else _) = Except.ok r ∧ _) ↔ _
  rw [hdepth]
  by_cases h63 : d.height ≤ 63
  · rw [if_pos h63]
    exact iff_of_true ⟨_, rfl, sameValue_of_unfolds hd⟩ h63
  · rw [if_neg h63]
    refine iff_of_false ?_ h63
    intro ⟨r, hr, _⟩
    cases hr

end

/-! ## At the bound -/

/-- Arrays inside one another, the innermost one empty and at depth `n`. -/
def nested (n : Nat) : Heap :=
  fun address => .array (if address < n then [.object (address + 1)] else [])

def brackets (n : Nat) : Bytes :=
  List.replicate n Ascii.openBracket ++ List.replicate n Ascii.closeBracket

theorem nested_textual (n : Nat) : Textual (nested n) (.object 0) := by
  have hobject : ∀ v m w, Occurs (nested n) v m w → (∃ a, v = .object a) → ∃ a, w = .object a := by
    intro v m w hocc hv
    induction hocc with
    | root _ => exact hv
    | deeper hchild _ ih =>
      obtain ⟨a, rfl⟩ := hv
      apply ih
      cases hchild with
      | item hshape hx =>
        obtain rfl := Shape.array.inj hshape
        split at hx
        · exact ⟨a + 1, List.mem_singleton.mp hx⟩
        · cases hx
      | member hshape _ => cases hshape
  constructor
  · intro m w bytes hocc hshape
    obtain ⟨a, rfl⟩ := hobject _ m w hocc ⟨0, rfl⟩
    cases hshape
  · intro m w entries hocc hshape
    obtain ⟨a, rfl⟩ := hobject _ m w hocc ⟨0, rfl⟩
    cases hshape

theorem json_round_trip_nested :
    (∃ r, jsonParse .reference (.new .sample) (nested 63) 200 (brackets 64) = .ok r ∧
      SameValue (nested 63) r (.object 0)) ↔ ∀ w, ¬ Occurs (nested 63) (.object 0) 64 w :=
  json_round_trip .reference SerdeJson.reference_standard (.new .sample) (nested 63) 200 (.object 0)
    (brackets 64) (nested_textual 63) (by decide +kernel) (by decide +kernel)

/-- At depth 64 the generator prints and the parser of the same limit raises. -/
theorem json_generate_not_parsed :
    SerdeJson.reference.Standard ∧ Textual (nested 64) (.object 0) ∧
      jsonGenerate (nested 64) 200 (.object 0) = .ok (brackets 65) ∧
      (quoted (brackets 65)).length ≤ 200 ∧
      jsonParse .reference (.new .sample) (nested 64) 200 (brackets 65) =
        .error (.raised .hostProtocol) := by
  refine ⟨SerdeJson.reference_standard, nested_textual 64, by decide +kernel, by decide +kernel, ?_⟩
  have hrun : (match jsonParse .reference (.new .sample) (nested 64) 200 (brackets 65) with
      | .error e => some e
      | .ok _ => none) = some (.raised .hostProtocol) := by decide +kernel
  split at hrun
  · next e he => rw [he, Option.some.inj hrun]
  · cases hrun

end RubyEngine.Guest
