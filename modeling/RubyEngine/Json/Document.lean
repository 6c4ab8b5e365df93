import RubyEngine.SortedMap

/-!
# JSON documents and JSON values

A `Doc` is what a JSON text spells: the members of an object stand in text order
and a name may stand twice. A `Value` is what a program holds after reading it:
a document whose objects are maps, listed in key order, as a field of the
structure states. `Doc.canon` turns the one into the other.

An integer is in the range of a signed or an unsigned 64-bit word. A float is
known by its bit pattern only.
-/
namespace RubyEngine.Json

open SortedMap (Sorted)

abbrev Integer := { i : Int // -2 ^ 63 ≤ i ∧ i < 2 ^ 64 }

inductive Number where
  | int (i : Integer)
  | float (bits : UInt64)
  deriving DecidableEq, Repr

inductive Doc where
  | null
  | bool (b : Bool)
  | number (n : Number)
  | string (s : String)
  | array (items : List Doc)
  | object (entries : List (String × Doc))
  deriving Repr, Inhabited

namespace Doc

/-- Induction over a document, with the hypothesis at every item and member. -/
@[elab_as_elim]
theorem induct {P : Doc → Prop} (null : P .null) (bool : ∀ b, P (.bool b))
    (number : ∀ n, P (.number n)) (string : ∀ s, P (.string s))
    (array : ∀ items, (∀ d ∈ items, P d) → P (.array items))
    (object : ∀ entries, (∀ e ∈ entries, P e.2) → P (.object entries)) : ∀ d, P d := by
  intro d
  refine @Doc.rec P (fun items => ∀ d ∈ items, P d) (fun entries => ∀ e ∈ entries, P e.2)
    (fun e => P e.2) null bool number string array object ?_ ?_ ?_ ?_ ?_ d
  · intro d h; cases h
  · intro head tail hh ht d h
    rcases List.mem_cons.mp h with rfl | h
    · exact hh
    · exact ht d h
  · intro e h; cases h
  · intro head tail hh ht e h
    rcases List.mem_cons.mp h with rfl | h
    · exact hh
    · exact ht e h
  · intro _ _ h; exact h

mutual
def decEq : (a b : Doc) → Decidable (a = b)
  | .null, .null => isTrue rfl
  | .bool a, .bool b =>
      if h : a = b then isTrue (h ▸ rfl) else isFalse (fun e => h (Doc.bool.inj e))
  | .number a, .number b =>
      if h : a = b then isTrue (h ▸ rfl) else isFalse (fun e => h (Doc.number.inj e))
  | .string a, .string b =>
      if h : a = b then isTrue (h ▸ rfl) else isFalse (fun e => h (Doc.string.inj e))
  | .array a, .array b =>
      match decEqItems a b with
      | isTrue h => isTrue (h ▸ rfl)
      | isFalse h => isFalse (fun e => h (Doc.array.inj e))
  | .object a, .object b =>
      match decEqEntries a b with
      | isTrue h => isTrue (h ▸ rfl)
      | isFalse h => isFalse (fun e => h (Doc.object.inj e))
  | .null, .bool _ | .null, .number _ | .null, .string _ | .null, .array _ | .null, .object _
  | .bool _, .null | .bool _, .number _ | .bool _, .string _ | .bool _, .array _ | .bool _, .object _
  | .number _, .null | .number _, .bool _ | .number _, .string _ | .number _, .array _
  | .number _, .object _ | .string _, .null | .string _, .bool _ | .string _, .number _
  | .string _, .array _ | .string _, .object _ | .array _, .null | .array _, .bool _
  | .array _, .number _ | .array _, .string _ | .array _, .object _ | .object _, .null
  | .object _, .bool _ | .object _, .number _ | .object _, .string _ | .object _, .array _ =>
      isFalse (fun e => by cases e)
def decEqItems : (a b : List Doc) → Decidable (a = b)
  | [], [] => isTrue rfl
  | [], _ :: _ | _ :: _, [] => isFalse (fun e => by cases e)
  | a :: as, b :: bs =>
      match decEq a b, decEqItems as bs with
      | isTrue h, isTrue hs => isTrue (h ▸ hs ▸ rfl)
      | isFalse h, _ => isFalse (fun e => h (List.cons.inj e).1)
      | _, isFalse hs => isFalse (fun e => hs (List.cons.inj e).2)
def decEqEntries : (a b : List (String × Doc)) → Decidable (a = b)
  | [], [] => isTrue rfl
  | [], _ :: _ | _ :: _, [] => isFalse (fun e => by cases e)
  | (k, a) :: as, (l, b) :: bs =>
      if hk : k = l then
        match decEq a b, decEqEntries as bs with
        | isTrue h, isTrue hs => isTrue (hk ▸ h ▸ hs ▸ rfl)
        | isFalse h, _ => isFalse (fun e => h (Prod.mk.inj (List.cons.inj e).1).2)
        | _, isFalse hs => isFalse (fun e => hs (List.cons.inj e).2)
      else isFalse (fun e => hk (Prod.mk.inj (List.cons.inj e).1).1)
end

instance : DecidableEq Doc := decEq

/-! ## Measures -/

mutual
/-- The depth of the deepest node, the root being at depth 0. A name lies as deep as
its member. -/
def height : Doc → Nat
  | .array items => heightItems items
  | .object entries => heightEntries entries
  | _ => 0
def heightItems : List Doc → Nat
  | [] => 0
  | d :: rest => max (d.height + 1) (heightItems rest)
def heightEntries : List (String × Doc) → Nat
  | [] => 0
  | (_, d) :: rest => max (d.height + 1) (heightEntries rest)
end

mutual
/-- The number of arrays and objects that stand inside one another. -/
def nesting : Doc → Nat
  | .array items => nestingItems items + 1
  | .object entries => nestingEntries entries + 1
  | _ => 0
def nestingItems : List Doc → Nat
  | [] => 0
  | d :: rest => max d.nesting (nestingItems rest)
def nestingEntries : List (String × Doc) → Nat
  | [] => 0
  | (_, d) :: rest => max d.nesting (nestingEntries rest)
end

theorem heightItems_le {items : List Doc} {n : Nat} :
    heightItems items ≤ n ↔ ∀ d ∈ items, d.height + 1 ≤ n := by
  induction items with
  | nil => simp [heightItems]
  | cons d rest ih => simp [heightItems, ih]

theorem heightEntries_le {entries : List (String × Doc)} {n : Nat} :
    heightEntries entries ≤ n ↔ ∀ e ∈ entries, e.2.height + 1 ≤ n := by
  induction entries with
  | nil => simp [heightEntries]
  | cons e rest ih => simp [heightEntries, ih]

theorem nestingItems_le {items : List Doc} {n : Nat} :
    nestingItems items ≤ n ↔ ∀ d ∈ items, d.nesting ≤ n := by
  induction items with
  | nil => simp [nestingItems]
  | cons d rest ih => simp [nestingItems, ih]

theorem nestingEntries_le {entries : List (String × Doc)} {n : Nat} :
    nestingEntries entries ≤ n ↔ ∀ e ∈ entries, e.2.nesting ≤ n := by
  induction entries with
  | nil => simp [nestingEntries]
  | cons e rest ih => simp [nestingEntries, ih]

/-- An innermost empty array or object is nested once more than it is deep. -/
theorem nesting_le_height_succ (d : Doc) : d.nesting ≤ d.height + 1 := by
  induction d using induct with
  | null | bool | number | string => simp [nesting]
  | array items ih =>
    rw [nesting, height, Nat.add_le_add_iff_right, nestingItems_le]
    intro d hd
    exact (ih d hd).trans (heightItems_le.mp (Nat.le_refl _) d hd)
  | object entries ih =>
    rw [nesting, height, Nat.add_le_add_iff_right, nestingEntries_le]
    intro e he
    exact (ih e he).trans (heightEntries_le.mp (Nat.le_refl _) e he)

/-! ## Properties of every node -/

mutual
/-- A property holds of the document and of every item and member in it. -/
def every (p : Doc → Bool) : Doc → Bool
  | .array items => p (.array items) && everyItem p items
  | .object entries => p (.object entries) && everyEntry p entries
  | d => p d
def everyItem (p : Doc → Bool) : List Doc → Bool
  | [] => true
  | d :: rest => d.every p && everyItem p rest
def everyEntry (p : Doc → Bool) : List (String × Doc) → Bool
  | [] => true
  | (_, d) :: rest => d.every p && everyEntry p rest
end

@[simp] theorem every_array {p : Doc → Bool} {items : List Doc} :
    (Doc.array items).every p = true ↔
      p (.array items) = true ∧ ∀ d ∈ items, d.every p = true := by
  have hitems : everyItem p items = true ↔ ∀ d ∈ items, d.every p = true := by
    induction items with
    | nil => simp [everyItem]
    | cons d rest ih => simp [everyItem, ih]
  rw [every, Bool.and_eq_true, hitems]

@[simp] theorem every_object {p : Doc → Bool} {entries : List (String × Doc)} :
    (Doc.object entries).every p = true ↔
      p (.object entries) = true ∧ ∀ e ∈ entries, e.2.every p = true := by
  have hentries : everyEntry p entries = true ↔ ∀ e ∈ entries, e.2.every p = true := by
    induction entries with
    | nil => simp [everyEntry]
    | cons e rest ih => simp [everyEntry, ih]
  rw [every, Bool.and_eq_true, hentries]

def isFloat : Doc → Bool
  | .number (.float _) => true
  | _ => false

def floatFree (d : Doc) : Bool := d.every (fun d => !d.isFloat)

theorem floatFree_array {items : List Doc} :
    (Doc.array items).floatFree = true ↔ ∀ d ∈ items, d.floatFree = true := by
  simp [floatFree, isFloat]

theorem floatFree_object {entries : List (String × Doc)} :
    (Doc.object entries).floatFree = true ↔ ∀ e ∈ entries, e.2.floatFree = true := by
  simp [floatFree, isFloat]

/-! ## Objects as maps -/

def isMap : Doc → Bool
  | .object entries => decide (Sorted entries)
  | _ => true

/-- Every object lists its members in key order, each key once. -/
def canonical (d : Doc) : Bool := d.every isMap

theorem canonical_array {items : List Doc} :
    (Doc.array items).canonical = true ↔ ∀ d ∈ items, d.canonical = true := by
  simp [canonical, isMap]

theorem canonical_object {entries : List (String × Doc)} :
    (Doc.object entries).canonical = true ↔
      Sorted entries ∧ ∀ e ∈ entries, e.2.canonical = true := by
  simp [canonical, isMap]

mutual
/-- Read every object as a map: key order, the last member of a name wins. -/
def canon : Doc → Doc
  | .array items => .array (canonItems items)
  | .object entries => .object (SortedMap.ofList (canonEntries entries))
  | d => d
def canonItems : List Doc → List Doc
  | [] => []
  | d :: rest => d.canon :: canonItems rest
def canonEntries : List (String × Doc) → List (String × Doc)
  | [] => []
  | (k, d) :: rest => (k, d.canon) :: canonEntries rest
end

theorem canonItems_eq_map (items : List Doc) : canonItems items = items.map canon := by
  induction items with
  | nil => rfl
  | cons d rest ih => simp [canonItems, ih]

theorem canonEntries_eq_map (entries : List (String × Doc)) :
    canonEntries entries = entries.map (fun e => (e.1, e.2.canon)) := by
  induction entries with
  | nil => rfl
  | cons e rest ih => simp [canonEntries, ih]

theorem canonical_canon (d : Doc) : d.canon.canonical = true := by
  induction d using induct with
  | null | bool | number | string => rfl
  | array items ih =>
    rw [canon, canonical_array, canonItems_eq_map]
    intro d hd
    obtain ⟨x, hx, rfl⟩ := List.mem_map.mp hd
    exact ih x hx
  | object entries ih =>
    rw [canon, canonical_object]
    refine ⟨SortedMap.sorted_ofList _, ?_⟩
    intro e he
    have hm := SortedMap.mem_ofList he
    rw [canonEntries_eq_map] at hm
    obtain ⟨x, hx, rfl⟩ := List.mem_map.mp hm
    exact ih x hx

theorem canon_of_canonical {d : Doc} (h : d.canonical = true) : d.canon = d := by
  induction d using induct with
  | null | bool | number | string => rfl
  | array items ih =>
    rw [canonical_array] at h
    rw [canon, canonItems_eq_map, List.map_congr_left (fun d hd => ih d hd (h d hd)), List.map_id']
  | object entries ih =>
    rw [canonical_object] at h
    have hid : canonEntries entries = entries := by
      rw [canonEntries_eq_map]
      conv_rhs => rw [← List.map_id entries]
      exact List.map_congr_left (fun e he => Prod.ext rfl (ih e he (h.2 e he)))
    rw [canon, hid, SortedMap.ofList_of_sorted h.1]

/-- A property of leaves is kept when objects become maps. -/
theorem every_canon {p : Doc → Bool} (harray : ∀ items, p (.array items) = true)
    (hobject : ∀ entries, p (.object entries) = true) {d : Doc} (h : d.every p = true) :
    d.canon.every p = true := by
  induction d using induct with
  | null | bool | number | string => exact h
  | array items ih =>
    rw [every_array] at h
    rw [canon, every_array, canonItems_eq_map]
    refine ⟨harray _, ?_⟩
    intro d hd
    obtain ⟨x, hx, rfl⟩ := List.mem_map.mp hd
    exact ih x hx (h.2 x hx)
  | object entries ih =>
    rw [every_object] at h
    rw [canon, every_object]
    refine ⟨hobject _, ?_⟩
    intro e he
    have hm := SortedMap.mem_ofList he
    rw [canonEntries_eq_map] at hm
    obtain ⟨x, hx, rfl⟩ := List.mem_map.mp hm
    exact ih x hx (h.2 x hx)

theorem floatFree_canon {d : Doc} (h : d.floatFree = true) : d.canon.floatFree = true :=
  every_canon (fun _ => rfl) (fun _ => rfl) h

theorem nesting_canon_le (d : Doc) : d.canon.nesting ≤ d.nesting := by
  induction d using induct with
  | null | bool | number | string => exact Nat.le_refl _
  | array items ih =>
    rw [canon, nesting, nesting, Nat.add_le_add_iff_right, canonItems_eq_map, nestingItems_le]
    intro d hd
    obtain ⟨x, hx, rfl⟩ := List.mem_map.mp hd
    exact (ih x hx).trans (nestingItems_le.mp (Nat.le_refl _) x hx)
  | object entries ih =>
    rw [canon, nesting, nesting, Nat.add_le_add_iff_right, nestingEntries_le]
    intro e he
    have hm := SortedMap.mem_ofList he
    rw [canonEntries_eq_map] at hm
    obtain ⟨x, hx, rfl⟩ := List.mem_map.mp hm
    exact (ih x hx).trans (nestingEntries_le.mp (Nat.le_refl _) x hx)

/-! ## Distinct names -/

def hasDistinct : Doc → Bool
  | .object entries => decide (entries.map Prod.fst).Nodup
  | _ => true

/-- No object lists a name twice. -/
def distinct (d : Doc) : Bool := d.every hasDistinct

theorem distinct_array {items : List Doc} :
    (Doc.array items).distinct = true ↔ ∀ d ∈ items, d.distinct = true := by
  simp [distinct, hasDistinct]

theorem distinct_object {entries : List (String × Doc)} :
    (Doc.object entries).distinct = true ↔
      (entries.map Prod.fst).Nodup ∧ ∀ e ∈ entries, e.2.distinct = true := by
  simp [distinct, hasDistinct]

/-- With distinct names an object keeps its members, in some order, when it is read. -/
theorem canonEntries_perm {entries : List (String × Doc)} (h : (entries.map Prod.fst).Nodup) :
    (SortedMap.ofList (canonEntries entries)).Perm (entries.map (fun e => (e.1, e.2.canon))) := by
  rw [canonEntries_eq_map]
  refine SortedMap.ofList_perm ?_
  rwa [List.map_map]

theorem height_canon {d : Doc} (h : d.distinct = true) : d.canon.height = d.height := by
  induction d using induct with
  | null | bool | number | string => rfl
  | array items ih =>
    rw [distinct_array] at h
    rw [canon, height, height, canonItems_eq_map]
    refine Nat.le_antisymm ?_ ?_
    · rw [heightItems_le]
      intro e he
      obtain ⟨d, hd, rfl⟩ := List.mem_map.mp he
      rw [ih d hd (h d hd)]
      exact heightItems_le.mp (Nat.le_refl _) d hd
    · rw [heightItems_le]
      intro d hd
      have hle := heightItems_le.mp (Nat.le_refl _) d.canon (List.mem_map_of_mem hd)
      rwa [ih d hd (h d hd)] at hle
  | object entries ih =>
    obtain ⟨hnodup, h⟩ := distinct_object.mp h
    have hperm := canonEntries_perm hnodup
    rw [canon, height, height]
    refine Nat.le_antisymm ?_ ?_
    · rw [heightEntries_le]
      intro e he
      obtain ⟨m, hm, rfl⟩ := List.mem_map.mp (hperm.mem_iff.mp he)
      rw [ih m hm (h m hm)]
      exact heightEntries_le.mp (Nat.le_refl _) m hm
    · rw [heightEntries_le]
      intro m hm
      have hmem := hperm.mem_iff.mpr (List.mem_map_of_mem hm)
      have hle := heightEntries_le.mp (Nat.le_refl _) _ hmem
      rwa [ih m hm (h m hm)] at hle

/-! ## Reading -/

/-- The member `key` of an object, and null where there is none. -/
def index (d : Doc) (key : String) : Doc :=
  match d with
  | .object entries => (SortedMap.lookup key entries).getD .null
  | _ => .null

def asStr : Doc → Option String
  | .string s => some s
  | _ => none

def asU64 : Doc → Option Nat
  | .number (.int i) => if 0 ≤ i.val then some i.val.toNat else none
  | _ => none

def isBoolean : Doc → Bool
  | .bool _ => true
  | _ => false

end Doc

/-- The integer `n`, wrapped to an unsigned 64-bit word. -/
def Integer.wrap (n : Nat) : Integer := ⟨((n % 2 ^ 64 : Nat) : Int), by omega⟩

def Doc.u64 (n : Nat) : Doc := .number (.int (Integer.wrap n))

theorem Doc.asU64_u64 {n : Nat} (h : n < 2 ^ 64) : (Doc.u64 n).asU64 = some n := by
  simp only [Doc.u64, Doc.asU64, Integer.wrap, Nat.mod_eq_of_lt h]
  rw [if_pos (Int.natCast_nonneg n), Int.toNat_natCast]

/-! ## Values -/

structure Value where
  doc : Doc
  canonical : doc.canonical = true
  deriving DecidableEq

namespace Value

theorem ext_doc {v w : Value} (h : v.doc = w.doc) : v = w := by
  cases v; cases w; cases h; rfl

def ofDoc (d : Doc) : Value := ⟨d.canon, d.canonical_canon⟩

@[simp] theorem ofDoc_doc (v : Value) : ofDoc v.doc = v :=
  ext_doc (Doc.canon_of_canonical v.canonical)

def null : Value := ⟨.null, rfl⟩
def bool (b : Bool) : Value := ⟨.bool b, rfl⟩
def u64 (n : Nat) : Value := ⟨.u64 n, rfl⟩
def string (s : String) : Value := ⟨.string s, rfl⟩

def array (items : List Value) : Value :=
  ⟨.array (items.map doc), by
    rw [Doc.canonical_array]
    intro d hd
    obtain ⟨v, _, rfl⟩ := List.mem_map.mp hd
    exact v.canonical⟩

/-- The object with these members, inserted in the order given. -/
def object (entries : List (String × Value)) : Value :=
  ⟨.object (SortedMap.ofList (entries.map (fun e => (e.1, e.2.doc)))), by
    rw [Doc.canonical_object]
    refine ⟨SortedMap.sorted_ofList _, ?_⟩
    intro e he
    obtain ⟨x, _, rfl⟩ := List.mem_map.mp (SortedMap.mem_ofList he)
    exact x.2.canonical⟩

theorem nesting_object {entries : List (String × Value)} {n : Nat}
    (h : ∀ e ∈ entries, e.2.doc.nesting ≤ n) : (object entries).doc.nesting ≤ n + 1 := by
  rw [object, Doc.nesting, Nat.add_le_add_iff_right, Doc.nestingEntries_le]
  intro e he
  obtain ⟨x, hx, rfl⟩ := List.mem_map.mp (SortedMap.mem_ofList he)
  exact h x hx

theorem floatFree_object {entries : List (String × Value)}
    (h : ∀ e ∈ entries, e.2.doc.floatFree = true) : (object entries).doc.floatFree = true := by
  rw [object, Doc.floatFree_object]
  intro e he
  obtain ⟨x, hx, rfl⟩ := List.mem_map.mp (SortedMap.mem_ofList he)
  exact h x hx

def index (v : Value) (key : String) : Doc := v.doc.index key

@[simp] theorem doc_null : null.doc = .null := rfl
@[simp] theorem doc_bool (b : Bool) : (bool b).doc = .bool b := rfl
@[simp] theorem doc_u64 (n : Nat) : (u64 n).doc = .u64 n := rfl
@[simp] theorem doc_string (s : String) : (string s).doc = .string s := rfl

/-- A member of a built object: the last one of the name, null where there is none. -/
@[simp] theorem index_object (entries : List (String × Value)) (key : String) :
    (object entries).index key =
      (SortedMap.lookup key (entries.reverse.map (fun e => (e.1, e.2.doc)))).getD .null := by
  rw [index, object, Doc.index, SortedMap.lookup_ofList, ← List.map_reverse]

end Value

end RubyEngine.Json
