import RubyEngine.Json.Length
import RubyEngine.Json.Parser
import RubyEngine.Serde

/-!
# A codec that does what is assumed

The results about the engine hold for any JSON library with the documented
behaviour. This is one: the parser of the grammar under the recursion limit, and
the printer with the escapes that the library chooses. It knows no floats.
-/
namespace RubyEngine

open Json (Style Value Doc)

/-- The spelling of a character: short escapes where there are any. -/
def compactSpell (c : Char) : Bytes :=
  if c = '"' then [Json.Ascii.backslash, Json.Ascii.quote]
  else if c = '\\' then [Json.Ascii.backslash, Json.Ascii.backslash]
  else if c = '\x08' then [Json.Ascii.backslash, 0x62]
  else if c = '\t' then [Json.Ascii.backslash, 0x74]
  else if c = '\n' then [Json.Ascii.backslash, 0x6e]
  else if c = '\x0c' then [Json.Ascii.backslash, 0x66]
  else if c = '\r' then [Json.Ascii.backslash, 0x72]
  else if c.toNat < 0x20 then Json.unitEscape c.toNat
  else String.utf8EncodeChar c

def compact : Style where
  spell := compactSpell
  float _ := Json.digits 0

theorem compact_lawful : compact.Lawful := by
  intro c
  simp only [compact, compactSpell]
  split
  · next h => exact .short _ _ (h ▸ rfl)
  split
  · next h => exact .short _ _ (h ▸ rfl)
  split
  · next h => exact .short _ _ (h ▸ rfl)
  split
  · next h => exact .short _ _ (h ▸ rfl)
  split
  · next h => exact .short _ _ (h ▸ rfl)
  split
  · next h => exact .short _ _ (h ▸ rfl)
  split
  · next h => exact .short _ _ (h ▸ rfl)
  split
  · next h => exact Json.spells_unit (h.trans (by decide))
  · next hq hb _ _ _ _ _ hlow => exact .plain c (Nat.not_lt.mp hlow) hq hb

theorem length_compactSpell (c : Char) : (compactSpell c).length ≤ 6 := by
  have hutf8 : (String.utf8EncodeChar c).length ≤ 4 := by
    rw [String.length_utf8EncodeChar]
    exact c.utf8Size_le_four
  unfold compactSpell
  repeat' split
  all_goals first | decide | (simp only [Json.unitEscape, List.length_cons, List.length_nil]; omega) | omega

/-- No spelling of a character is shorter than the one that the library chooses. -/
theorem compact_minimal : compact.Minimal := by
  intro bytes c h
  cases h with
  | plain _ hlow hquote hbackslash =>
    have hspell : compactSpell c = String.utf8EncodeChar c := by
      unfold compactSpell
      have hne : ∀ d : Char, d.toNat < 0x20 → c ≠ d := by
        rintro d hd rfl
        omega
      rw [if_neg hquote, if_neg hbackslash, if_neg (hne _ (by decide)), if_neg (hne _ (by decide)),
        if_neg (hne _ (by decide)), if_neg (hne _ (by decide)), if_neg (hne _ (by decide)),
        if_neg (by omega)]
    exact (congrArg List.length hspell).le
  | short b _ hshort =>
    have htwo : ∀ b : UInt8, ∀ c ∈ Json.shortEscape b, (compactSpell c).length ≤ 2 := by
      intro b c hc
      unfold Json.shortEscape at hc
      repeat' split at hc
      all_goals simp only [Option.mem_def, Option.some.injEq, reduceCtorEq] at hc
      all_goals subst hc; decide
    exact htwo b c hshort
  | unit | pair => exact (length_compactSpell c).trans (by simp)

/-- Printing puts no white space and spells every character in the shortest way, and a
text that is read stays below the recursion limit. -/
structure SerdeJson.Compact (serde : SerdeJson) : Prop where
  prints : ∀ v : Value, v.doc.floatFree = true → serde.toVec v = compact.render v.doc
  limit : ∀ bytes v, serde.fromSlice bytes = .ok v → v.doc.nesting < 128

namespace SerdeJson

def reference : SerdeJson where
  toVec v := compact.render v.doc
  fromSlice bytes :=
    match Json.parse bytes with
    | none => .error ⟨.malformed, "expected value"⟩
    | some d =>
        if d.nesting < 128 then .ok (Value.ofDoc d)
        else .error ⟨.malformed, "recursion limit exceeded"⟩
  rejection _ := "invalid type"

theorem reference_standard : reference.Standard where
  parses bytes d h hn := by simp only [reference, Json.parse_text h, if_pos hn]

theorem render_ne_nil (style : Style) (hs : ∀ bits, style.float bits ≠ []) (d : Doc) :
    style.render d ≠ [] := by
  cases d with
  | bool b => cases b <;> simp [Style.render, Json.Ascii.true, Json.Ascii.false]
  | number n =>
    cases n with
    | int i =>
      obtain ⟨b, rest, heq, _⟩ := Json.decimal_head i.val
      simp [Style.render, Style.number, heq]
    | float bits => simpa [Style.render, Style.number] using hs bits
  | null | string | array | object => simp [Style.render, Json.Ascii.null, Style.quote]

theorem reference_roundTrips : reference.RoundTrips where
  back v hv := by
    have htext := (compact_lawful.element hv.1).text
    have hparse := reference_standard.parses _ _ htext hv.2
    rwa [Value.ofDoc_doc] at hparse
  nonempty v := render_ne_nil compact (fun _ => Json.digits_ne_nil 0) v.doc

theorem reference_compact : reference.Compact where
  prints _ _ := rfl
  limit bytes v h := by
    simp only [reference] at h
    split at h
    · cases h
    · next d _ =>
      split at h
      · next hlt =>
        cases h
        exact (Doc.nesting_canon_le d).trans_lt hlt
      · cases h

/-- What is printed compactly is read back. -/
theorem Compact.back {serde : SerdeJson} (hs : serde.Standard) (hc : serde.Compact) {v : Value}
    (hv : Plain v) : serde.fromSlice (serde.toVec v) = .ok v := by
  have htext := (compact_lawful.element hv.1).text
  have hread := hs.parses _ _ htext hv.2
  rwa [Value.ofDoc_doc, ← hc.prints v hv.1] at hread

end SerdeJson

end RubyEngine
