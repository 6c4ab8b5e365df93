import RubyEngine.Json.Numbers
import RubyEngine.Json.Utf8
import RubyEngine.Serde.Reference

/-!
# Printing and reading with floats

The library prints a float in at most 24 bytes and may read another one back.
Everything around it comes back as it was.
-/
namespace RubyEngine

open Json (Doc Number Style Value)

def floatLimit : Nat := 24

/-- The compact style with a text for each float. -/
def compactWith (float : UInt64 → Bytes) : Style := ⟨compactSpell, float⟩

/-! ## Lengths -/

theorem length_quote_le (float : UInt64 → Bytes) (s : String) :
    ((compactWith float).quote s).length ≤ 6 * (utf8 s).length + 2 := by
  refine Style.length_quote_le (fun c => ?_) s
  have hspell := length_compactSpell c
  have hpos : 1 ≤ (String.utf8EncodeChar c).length :=
    List.length_pos_of_ne_nil String.utf8EncodeChar_ne_nil
  show (compactSpell c).length ≤ _
  omega

theorem length_memberSize_le (float : UInt64 → Bytes) (key : String) {d : Doc} {k n : Nat}
    (hkey : (compact.quote key).length + 2 ≤ k) (hd : ((compactWith float).render d).length ≤ n) :
    (compactWith float).memberSize (key, d) ≤ k + n := by
  have hquote : ((compactWith float).quote key).length = (compact.quote key).length := rfl
  simp only [Style.memberSize, hquote]
  omega

/-! ## The library with floats -/

/-- The documented treatment of values with floats in them. -/
structure SerdeJson.Numeric (serde : SerdeJson) : Prop where
  prints : ∃ float : UInt64 → Bytes, (∀ bits, (float bits).length ≤ floatLimit) ∧
    ∀ v : Value, serde.toVec v = (compactWith float).render v.doc
  rereads : ∃ f : UInt64 → Number, ∀ v : Value, v.doc.nesting < 128 →
    serde.fromSlice (serde.toVec v) = .ok (v.mapNumbers (Number.reread f))

/-- The integer that the reference codec prints and reads for every float. -/
def zero : UInt64 → Number := fun _ => .int ⟨0, by decide⟩

theorem render_zero (d : Doc) : compact.render (d.mapNumbers (Number.reread zero)) = compact.render d := by
  induction d using Doc.induct with
  | null | bool | string => rfl
  | number n => cases n <;> rfl
  | array items ih =>
    have hitems : ∀ first, compact.renderItems first (Doc.mapItems (Number.reread zero) items) =
        compact.renderItems first items := by
      induction items with
      | nil => intro _; rfl
      | cons d rest htail =>
        intro first
        rw [Doc.mapItems, Style.renderItems, Style.renderItems, ih d (List.mem_cons_self ..),
          htail (fun x hx => ih x (List.mem_cons_of_mem _ hx))]
    rw [Doc.mapNumbers, Style.render, Style.render, hitems]
  | object entries ih =>
    have hentries : ∀ first, compact.renderEntries first
        (Doc.mapEntries (Number.reread zero) entries) = compact.renderEntries first entries := by
      induction entries with
      | nil => intro _; rfl
      | cons e rest htail =>
        intro first
        rw [Doc.mapEntries, Style.renderEntries, Style.renderEntries, ih e (List.mem_cons_self ..),
          htail (fun x hx => ih x (List.mem_cons_of_mem _ hx))]
    rw [Doc.mapNumbers, Style.render, Style.render, hentries]

theorem floatFree_zero (d : Doc) : (d.mapNumbers (Number.reread zero)).floatFree = true := by
  induction d using Doc.induct with
  | null | bool | string => rfl
  | number n => cases n <;> rfl
  | array items ih =>
    rw [Doc.mapNumbers, Doc.floatFree_array, Doc.mapItems_eq_map, List.forall_mem_map]
    exact ih
  | object entries ih =>
    rw [Doc.mapNumbers, Doc.floatFree_object, Doc.mapEntries_eq_map, List.forall_mem_map]
    exact ih

/-- The text of a document is one of the same document with integers for its floats. -/
theorem text_zero (d : Doc) : Json.Text (compact.render d) (d.mapNumbers (Number.reread zero)) := by
  rw [← render_zero d]
  exact (compact_lawful.element (floatFree_zero d)).text

theorem SerdeJson.reference_numeric : SerdeJson.reference.Numeric where
  prints := ⟨fun _ => Json.digits 0, fun _ => (by decide : (Json.digits 0).length ≤ floatLimit),
    fun _ => rfl⟩
  rereads := by
    refine ⟨zero, fun v hv => ?_⟩
    have hread := reference_standard.parses _ _ (text_zero v.doc)
      ((Doc.nesting_mapNumbers _ v.doc).trans_lt hv)
    have hvalue : Value.ofDoc (v.doc.mapNumbers (Number.reread zero)) =
        v.mapNumbers (Number.reread zero) := Value.ofDoc_doc (v.mapNumbers (Number.reread zero))
    rwa [hvalue] at hread

/-! ## A codec that reads UTF-8 only -/

def SerdeJson.unicode : SerdeJson where
  toVec := SerdeJson.reference.toVec
  fromSlice bytes :=
    match decodeUtf8 bytes with
    | none => .error ⟨.malformed, "invalid unicode code point"⟩
    | some _ => SerdeJson.reference.fromSlice bytes
  rejection := SerdeJson.reference.rejection

theorem SerdeJson.fromSlice_unicode {bytes : Bytes} (h : ValidUtf8 bytes) :
    SerdeJson.unicode.fromSlice bytes = SerdeJson.reference.fromSlice bytes := by
  obtain ⟨s, hs⟩ := h
  simp only [SerdeJson.unicode, decodeUtf8_eq_some.mpr hs]

theorem SerdeJson.unicode_standard : SerdeJson.unicode.Standard where
  parses bytes d h hn := by
    rw [fromSlice_unicode h.validUtf8]
    exact reference_standard.parses bytes d h hn

theorem SerdeJson.unicode_numeric : SerdeJson.unicode.Numeric where
  prints := reference_numeric.prints
  rereads := by
    obtain ⟨f, hf⟩ := reference_numeric.rereads
    refine ⟨f, fun v hv => ?_⟩
    have htext : ValidUtf8 (SerdeJson.reference.toVec v) := (text_zero v.doc).validUtf8
    exact (fromSlice_unicode htext).trans (hf v hv)

theorem SerdeJson.unicode_strict : SerdeJson.unicode.Strict where
  utf8 bytes v h := by
    cases hdecode : decodeUtf8 bytes with
    | some s => exact ⟨s, decodeUtf8_eq_some.mp hdecode⟩
    | none =>
      simp only [SerdeJson.unicode, hdecode] at h
      cases h

end RubyEngine
