import RubyEngine.Json.Text

/-!
# Printing JSON without white space

The printers of the engine differ in how they spell a character and nowhere else.
A `Style` is such a spelling, and a document printed in a style that spells
characters correctly is JSON text of this very document.
-/
namespace RubyEngine.Json

/-! ## Hexadecimal escapes -/

def hexByte (n : Nat) : UInt8 := if n < 10 then UInt8.ofNat (0x30 + n) else UInt8.ofNat (0x57 + n)

/-- The escape of one code unit, with four lower-case digits. -/
def unitEscape (n : Nat) : Bytes :=
  [Ascii.backslash, Ascii.letterU, hexByte (n / 4096 % 16), hexByte (n / 256 % 16),
    hexByte (n / 16 % 16), hexByte (n % 16)]

/-- The escape of a character: one code unit, or two surrogates. -/
def charEscape (c : Char) : Bytes :=
  if c.toNat < 0x10000 then unitEscape c.toNat
  else
    unitEscape (0xd800 + (c.toNat - 0x10000) / 0x400) ++
      unitEscape (0xdc00 + (c.toNat - 0x10000) % 0x400)

theorem hexDigit_hexByte : ∀ n < 16, hexDigit (hexByte n) = some n := by decide

theorem hexByte_ascii : ∀ n < 16, (hexByte n).toNat < 128 := by decide

theorem unitEscape_ascii (n : Nat) : ∀ b ∈ unitEscape n, b.toNat < 128 := by
  have hdigit : ∀ m, (hexByte (m % 16)).toNat < 128 :=
    fun m => hexByte_ascii _ (Nat.mod_lt m (by decide))
  simp only [unitEscape, List.forall_mem_cons]
  exact ⟨by decide, by decide, hdigit _, hdigit _, hdigit _, hdigit _, by simp⟩

theorem hex4_unit {n : Nat} (h : n < 0x10000) :
    hex4 (hexByte (n / 4096 % 16)) (hexByte (n / 256 % 16)) (hexByte (n / 16 % 16))
      (hexByte (n % 16)) = some n := by
  simp only [hex4, hexDigit_hexByte _ (Nat.mod_lt _ (by decide)), Option.bind_eq_bind,
    Option.bind_some, Option.pure_def, Option.some.injEq]
  omega

theorem spells_unit {c : Char} (h : c.toNat < 0x10000) : Spells (unitEscape c.toNat) c :=
  .unit _ _ _ _ c (hex4_unit h)

theorem spells_charEscape (c : Char) : Spells (charEscape c) c := by
  unfold charEscape
  split
  · next h => exact spells_unit h
  · next h =>
    have hmax : c.toNat < 0x110000 := by
      rcases c.valid with hv | hv
      · exact hv.trans (by decide)
      · exact hv.2
    exact .pair _ _ _ _ _ _ _ _ _ _ c
      (hex4_unit (by omega))
      (hex4_unit (by omega))
      (by omega) (by omega) (by omega) (by omega) (by omega)

/-! ## Styles -/

structure Style where
  spell : Char → Bytes
  float : UInt64 → Bytes

/-- Every character is spelled by something that stands for it. -/
def Style.Lawful (style : Style) : Prop := ∀ c, Spells (style.spell c) c

namespace Style

variable (style : Style)

def quote (s : String) : Bytes :=
  Ascii.quote :: s.toList.flatMap style.spell ++ [Ascii.quote]

def number : Number → Bytes
  | .int i => decimal i.val
  | .float bits => style.float bits

/-- The comma before every item but the first. -/
def separator (first : Bool) : Bytes := if first then [] else [Ascii.comma]

mutual
def render : Doc → Bytes
  | .null => Ascii.null
  | .bool false => Ascii.false
  | .bool true => Ascii.true
  | .number n => style.number n
  | .string s => style.quote s
  | .array items => Ascii.openBracket :: renderItems true items ++ [Ascii.closeBracket]
  | .object entries => Ascii.openBrace :: renderEntries true entries ++ [Ascii.closeBrace]
def renderItems : Bool → List Doc → Bytes
  | _, [] => []
  | first, d :: rest => separator first ++ render d ++ renderItems false rest
def renderEntries : Bool → List (String × Doc) → Bytes
  | _, [] => []
  | first, (k, d) :: rest =>
      separator first ++ style.quote k ++ Ascii.colon :: render d ++ renderEntries false rest
end

end Style

namespace Style.Lawful

variable {style : Style}

theorem chars (h : style.Lawful) (cs : List Char) : Chars (cs.flatMap style.spell) cs := by
  induction cs with
  | nil => exact .nil
  | cons c cs ih => exact .cons (h c) ih

theorem items {items : List Doc} (h : ∀ d ∈ items, Element (style.render d) d)
    (hne : items ≠ []) : Items (style.renderItems true items) items := by
  induction items with
  | nil => exact absurd rfl hne
  | cons d rest ih =>
    have hd := h d (by simp)
    cases rest with
    | nil =>
      have hone := Items.one blank_nil hd blank_nil
      simpa [Style.renderItems, Style.separator] using hone
    | cons e rest =>
      have htail := ih (fun x hx => h x (List.mem_cons_of_mem _ hx)) (by simp)
      have hcons := Items.cons blank_nil hd blank_nil htail
      simpa [Style.renderItems, Style.separator] using hcons

theorem members (hs : style.Lawful) {entries : List (String × Doc)}
    (h : ∀ e ∈ entries, Element (style.render e.2) e.2) (hne : entries ≠ []) :
    Members (style.renderEntries true entries) entries := by
  induction entries with
  | nil => exact absurd rfl hne
  | cons e rest ih =>
    obtain ⟨k, d⟩ := e
    have hd := h (k, d) (by simp)
    have hk := hs.chars k.toList
    cases rest with
    | nil =>
      have hone := Members.one blank_nil hk blank_nil blank_nil hd blank_nil
      simpa [Style.renderEntries, Style.separator, Style.quote] using hone
    | cons e rest =>
      have htail := ih (fun x hx => h x (List.mem_cons_of_mem _ hx)) (by simp)
      have hcons := Members.cons blank_nil hk blank_nil blank_nil hd blank_nil htail
      simpa [Style.renderEntries, Style.separator, Style.quote] using hcons

/-- A printed document is a text of this document. -/
theorem element (hs : style.Lawful) {d : Doc} (h : d.floatFree = true) :
    Element (style.render d) d := by
  induction d using Doc.induct with
  | null => exact .null
  | bool b => cases b <;> constructor
  | number n =>
    cases n with
    | int i => exact .int i
    | float bits => cases h
  | string s =>
    have hb := Element.string (hs.chars s.toList)
    rwa [String.ofList_toList] at hb
  | array items ih =>
    rw [Doc.floatFree_array] at h
    by_cases hne : items = []
    · subst hne
      exact .emptyArray blank_nil
    · exact .array (Lawful.items (fun d hd => ih d hd (h d hd)) hne)
  | object entries ih =>
    rw [Doc.floatFree_object] at h
    by_cases hne : entries = []
    · subst hne
      exact .emptyObject blank_nil
    · exact .object (hs.members (fun e he => ih e he (h e he)) hne)

end Style.Lawful

end RubyEngine.Json
