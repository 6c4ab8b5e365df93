import Mathlib.Algebra.BigOperators.Group.List.Basic
import Mathlib.Algebra.Order.BigOperators.Group.List
import RubyEngine.Json.Render

/-!
# The length of a printed document

Two styles differ in length by what they differ on the characters of the strings
and of the names. The order of the members does not matter.
-/
namespace RubyEngine.Json

mutual
/-- The characters of every string and every name. -/
def Doc.chars : Doc → List Char
  | .string s => s.toList
  | .array items => charsItems items
  | .object entries => charsEntries entries
  | _ => []
def Doc.charsItems : List Doc → List Char
  | [] => []
  | d :: rest => d.chars ++ charsItems rest
def Doc.charsEntries : List (String × Doc) → List Char
  | [] => []
  | (k, d) :: rest => k.toList ++ d.chars ++ charsEntries rest
end

/-- By how much longer a spelling is than another one. -/
def Style.excess (s t : Style) (c : Char) : Int := (s.spell c).length - (t.spell c).length

def Style.surplus (s t : Style) (cs : List Char) : Int := (cs.map (s.excess t)).sum

namespace Style

variable {s t : Style}

theorem surplus_append (cs ds : List Char) :
    s.surplus t (cs ++ ds) = s.surplus t cs + s.surplus t ds := by
  simp [surplus]

theorem length_spelled (cs : List Char) :
    ((cs.flatMap s.spell).length : Int) = (cs.flatMap t.spell).length + s.surplus t cs := by
  induction cs with
  | nil => rfl
  | cons c cs ih =>
    have hcons : s.surplus t (c :: cs) = s.excess t c + s.surplus t cs := rfl
    rw [List.flatMap_cons, List.flatMap_cons, List.length_append, List.length_append,
      Int.natCast_add, Int.natCast_add, ih, hcons, excess]
    omega

theorem length_quote (text : String) :
    ((s.quote text).length : Int) = (t.quote text).length + s.surplus t text.toList := by
  have hbody := length_spelled (s := s) (t := t) text.toList
  simp only [quote, List.length_cons, List.length_append, List.length_nil, Int.natCast_add]
  omega

theorem length_items {items : List Doc}
    (h : ∀ d ∈ items, ((s.render d).length : Int) = (t.render d).length + s.surplus t d.chars)
    (first : Bool) :
    ((s.renderItems first items).length : Int) =
      (t.renderItems first items).length + s.surplus t (Doc.charsItems items) := by
  induction items generalizing first with
  | nil => rfl
  | cons d rest ih =>
    have hd := h d (by simp)
    have htail := ih (fun x hx => h x (List.mem_cons_of_mem _ hx)) false
    simp only [renderItems, Doc.charsItems, List.length_append, Int.natCast_add, surplus_append]
    omega

theorem length_entries {entries : List (String × Doc)}
    (h : ∀ e ∈ entries,
      ((s.render e.2).length : Int) = (t.render e.2).length + s.surplus t e.2.chars)
    (first : Bool) :
    ((s.renderEntries first entries).length : Int) =
      (t.renderEntries first entries).length + s.surplus t (Doc.charsEntries entries) := by
  induction entries generalizing first with
  | nil => rfl
  | cons e rest ih =>
    obtain ⟨k, d⟩ := e
    have hd : ((s.render d).length : Int) = _ := h (k, d) (by simp)
    have hk := length_quote (s := s) (t := t) k
    have htail := ih (fun x hx => h x (List.mem_cons_of_mem _ hx)) false
    dsimp only at hd
    simp only [renderEntries, Doc.charsEntries, List.length_append, List.length_cons,
      Int.natCast_add, surplus_append]
    omega

/-- The lengths in two styles. -/
theorem length_render {d : Doc} (h : d.floatFree = true) :
    ((s.render d).length : Int) = (t.render d).length + s.surplus t d.chars := by
  induction d using Doc.induct with
  | null => simp [render, Doc.chars, surplus]
  | bool b => cases b <;> simp [render, Doc.chars, surplus]
  | number n =>
    cases n with
    | int i => simp [render, number, Doc.chars, surplus]
    | float bits => cases h
  | string text => exact length_quote text
  | array items ih =>
    rw [Doc.floatFree_array] at h
    have hitems := length_items (fun d hd => ih d hd (h d hd)) true
    simp only [render, Doc.chars, List.length_append, List.length_cons, List.length_nil,
      Int.natCast_add]
    omega
  | object entries ih =>
    rw [Doc.floatFree_object] at h
    have hentries := length_entries (fun e he => ih e he (h e he)) true
    simp only [render, Doc.chars, List.length_append, List.length_cons, List.length_nil,
      Int.natCast_add]
    omega

/-! ## The order of the members -/

theorem length_later_items (items : List Doc) :
    (s.renderItems false items).length = (items.map (fun d => (s.render d).length + 1)).sum := by
  induction items with
  | nil => rfl
  | cons d rest ih =>
    simp only [renderItems, separator, List.length_append, List.map_cons, List.sum_cons, ih]
    simp
    omega

theorem length_later_entries (entries : List (String × Doc)) :
    (s.renderEntries false entries).length =
      (entries.map (fun e => (s.quote e.1).length + (s.render e.2).length + 2)).sum := by
  induction entries with
  | nil => rfl
  | cons e rest ih =>
    obtain ⟨k, d⟩ := e
    simp only [renderEntries, separator, List.length_append, List.length_cons, List.map_cons,
      List.sum_cons, ih]
    simp
    omega

/-- The first item has no comma. -/
theorem length_first_items (items : List Doc) :
    (s.renderItems true items).length = (s.renderItems false items).length - 1 := by
  cases items with
  | nil => rfl
  | cons d rest =>
    simp only [renderItems, separator, List.length_append]
    simp
    omega

theorem length_first_entries (entries : List (String × Doc)) :
    (s.renderEntries true entries).length = (s.renderEntries false entries).length - 1 := by
  cases entries with
  | nil => rfl
  | cons e rest =>
    obtain ⟨k, d⟩ := e
    simp only [renderEntries, separator, List.length_append]
    simp
    omega

theorem length_entries_perm {a b : List (String × Doc)} (h : a.Perm b) :
    (s.renderEntries true a).length = (s.renderEntries true b).length := by
  rw [length_first_entries, length_first_entries, length_later_entries, length_later_entries,
    (h.map _).sum_eq]

/-- Reading an object as a map loses no byte when its names are distinct. -/
theorem length_canon {d : Doc} (h : d.distinct = true) :
    (s.render d.canon).length = (s.render d).length := by
  induction d using Doc.induct with
  | null | bool | number | string => rfl
  | array items ih =>
    rw [Doc.distinct_array] at h
    have hmap : (items.map Doc.canon).map (fun d => (s.render d).length + 1) =
        items.map (fun d => (s.render d).length + 1) := by
      rw [List.map_map]
      exact List.map_congr_left (fun d hd => by simp only [Function.comp, ih d hd (h d hd)])
    simp only [Doc.canon, render, List.length_append, List.length_cons, length_first_items,
      length_later_items, Doc.canonItems_eq_map, hmap]
  | object entries ih =>
    obtain ⟨hnodup, h⟩ := Doc.distinct_object.mp h
    have hperm := Doc.canonEntries_perm hnodup
    have hmap : (entries.map (fun e => (e.1, e.2.canon))).map
          (fun e => (s.quote e.1).length + (s.render e.2).length + 2) =
        entries.map (fun e => (s.quote e.1).length + (s.render e.2).length + 2) := by
      rw [List.map_map]
      exact List.map_congr_left (fun e he => by simp only [Function.comp, ih e he (h e he)])
    simp only [Doc.canon, render, List.length_append, List.length_cons, length_entries_perm hperm,
      length_first_entries, length_later_entries, hmap]

/-! ## Sizes as sums -/

/-- The size of a member with its colon and one comma. -/
def memberSize (s : Style) (e : String × Doc) : Nat :=
  (s.quote e.1).length + (s.render e.2).length + 2

theorem length_object {entries : List (String × Doc)} (h : entries ≠ []) :
    (s.render (.object entries)).length = (entries.map s.memberSize).sum + 1 := by
  have hsum : (s.renderEntries false entries).length = (entries.map s.memberSize).sum :=
    length_later_entries entries
  have hpos : 2 ≤ (entries.map s.memberSize).sum := by
    obtain ⟨e, rest, rfl⟩ := List.exists_cons_of_ne_nil h
    simp only [List.map_cons, List.sum_cons, memberSize]
    omega
  simp only [render, List.length_append, List.length_cons, List.length_nil, length_first_entries,
    hsum]
  omega

theorem length_array {items : List Doc} (h : items ≠ []) :
    (s.render (.array items)).length = (items.map (fun d => (s.render d).length + 1)).sum + 1 := by
  have hsum := length_later_items (s := s) items
  have hpos : 1 ≤ (items.map (fun d => (s.render d).length + 1)).sum := by
    obtain ⟨d, rest, rfl⟩ := List.exists_cons_of_ne_nil h
    simp only [List.map_cons, List.sum_cons]
    omega
  simp only [render, List.length_append, List.length_cons, List.length_nil, length_first_items,
    hsum]
  omega

/-- Reading an object as a map never makes it longer. -/
theorem length_canon_le (d : Doc) : (s.render d.canon).length ≤ (s.render d).length := by
  induction d using Doc.induct with
  | null | bool | number | string => exact Nat.le_refl _
  | array items ih =>
    have hsum : (items.map (fun d => (s.render d.canon).length + 1)).sum ≤
        (items.map (fun d => (s.render d).length + 1)).sum :=
      List.sum_le_sum (fun d hd => Nat.add_le_add_right (ih d hd) 1)
    simp only [Doc.canon, Doc.canonItems_eq_map, render, List.length_append, List.length_cons,
      List.length_nil, length_first_items, length_later_items, List.map_map, Function.comp_def]
    omega
  | object entries ih =>
    have hmap := SortedMap.sum_ofList_le s.memberSize (Doc.canonEntries entries)
    have hsum : (entries.map (fun e => s.memberSize (e.1, e.2.canon))).sum ≤
        (entries.map s.memberSize).sum := by
      refine List.sum_le_sum (fun e he => ?_)
      have he := ih e he
      simp only [memberSize]
      omega
    rw [Doc.canonEntries_eq_map, List.map_map] at hmap
    have hlater : ∀ es : List (String × Doc), (s.renderEntries false es).length =
        (es.map s.memberSize).sum := fun es => length_later_entries es
    simp only [Doc.canon, render, List.length_append, List.length_cons, List.length_nil,
      length_first_entries, hlater, Doc.canonEntries_eq_map]
    simp only [Function.comp_def] at hmap
    omega

theorem length_valueObject_le (entries : List (String × Value)) :
    (s.render (Value.object entries).doc).length ≤
      (entries.map (fun e => s.memberSize (e.1, e.2.doc))).sum + 2 := by
  have hsum := SortedMap.sum_ofList_le s.memberSize (entries.map (fun e => (e.1, e.2.doc)))
  rw [List.map_map] at hsum
  show (s.render (.object (SortedMap.ofList (entries.map (fun e => (e.1, e.2.doc)))))).length ≤ _
  by_cases hne : SortedMap.ofList (entries.map (fun e => (e.1, e.2.doc))) = []
  · rw [hne]
    simp [render, renderEntries]
  · rw [length_object hne]
    exact (Nat.add_le_add_right hsum 1).trans (Nat.le_succ _)

/-- No character takes more than six times its bytes. -/
theorem length_quote_le (h : ∀ c, (s.spell c).length ≤ 6 * (String.utf8EncodeChar c).length)
    (text : String) : (s.quote text).length ≤ 6 * (utf8 text).length + 2 := by
  have hchars : (text.toList.flatMap s.spell).length ≤ 6 * (utf8 text).length := by
    rw [utf8]
    induction text.toList with
    | nil => exact Nat.le_refl _
    | cons c cs ih =>
      have hspell := h c
      rw [List.flatMap_cons, encodeChars_cons, List.length_append, List.length_append]
      omega
  show (Ascii.quote :: text.toList.flatMap s.spell ++ [Ascii.quote]).length ≤ _
  rw [List.length_append, List.length_cons, List.length_singleton]
  omega

/-! ## The shortest text -/

/-- No character can be spelled with fewer bytes. -/
def Minimal (s : Style) : Prop := ∀ bytes c, Spells bytes c → (s.spell c).length ≤ bytes.length

theorem Minimal.quote (h : s.Minimal) {body : Bytes} {cs : List Char} (hcs : Chars body cs) :
    (s.quote (String.ofList cs)).length ≤ body.length + 2 := by
  have hbody : (cs.flatMap s.spell).length ≤ body.length := by
    induction hcs with
    | nil => exact Nat.le_refl _
    | cons hc _ ih =>
      have hhead := h _ _ hc
      rw [List.flatMap_cons, List.length_append, List.length_append]
      omega
  simp only [Style.quote, String.toList_ofList, List.length_append, List.length_cons,
    List.length_nil]
  omega

/-- What is printed in a minimal style is not longer than any other text. -/
theorem Minimal.element (h : s.Minimal) {bytes : Bytes} {d : Doc} (hd : Element bytes d) :
    (s.render d).length ≤ bytes.length := by
  refine @Element.rec (fun bytes d _ => (s.render d).length ≤ bytes.length)
    (fun bytes items _ => (s.renderItems true items).length ≤ bytes.length)
    (fun bytes entries _ => (s.renderEntries true entries).length ≤ bytes.length)
    ?null ?false ?true ?int ?string ?emptyArray ?array ?emptyObject ?object ?item ?items ?member
    ?members bytes d hd
  case null | false | true => exact Nat.le_refl _
  case int => intro i; exact Nat.le_refl _
  case string =>
    intro body cs hcs
    have hq := h.quote hcs
    simp only [render, List.length_append, List.length_cons, List.length_nil]
    omega
  case emptyArray | emptyObject =>
    intro blank _
    simp [render, renderItems, renderEntries]
  case array | object =>
    intro body _ _ ih
    simp only [render, List.length_append, List.length_cons, List.length_nil]
    omega
  case item =>
    intro before text after d _ _ _ ih
    simp only [renderItems, separator, List.length_append, List.length_nil, ↓reduceIte]
    omega
  case items =>
    intro before text after rest d items _ _ _ _ ih ihrest
    rw [length_first_items] at ihrest
    simp only [renderItems, separator, List.length_append, List.length_nil, List.length_cons,
      ↓reduceIte]
    omega
  case member =>
    intro blank key before colon text after cs d _ hkey _ _ _ _ ih
    have hq := h.quote hkey
    simp only [renderEntries, separator, List.length_append, List.length_nil, List.length_cons,
      ↓reduceIte]
    omega
  case members =>
    intro blank key before colon text after rest cs d entries _ hkey _ _ _ _ _ ih ihrest
    have hq := h.quote hkey
    rw [length_first_entries] at ihrest
    simp only [renderEntries, separator, List.length_append, List.length_nil, List.length_cons,
      ↓reduceIte]
    omega

theorem Minimal.text (h : s.Minimal) {bytes : Bytes} {d : Doc} (hd : Text bytes d) :
    (s.render d.canon).length ≤ bytes.length := by
  obtain ⟨before, text, after, _, helement, _, rfl⟩ := hd
  have hle := h.element helement
  have hcanon := length_canon_le (s := s) d
  simp only [List.length_append]
  omega

end Style

end RubyEngine.Json
