import RubyEngine.Json.Document

/-!
# Documents with other numbers

A reader may change the numbers of a document and keep everything else: the last
bits of a float, or an integer that does not fit. The shape, the names and the
strings do not depend on them.
-/
namespace RubyEngine.Json

open SortedMap (Sorted lookup)

namespace Doc

mutual
def mapNumbers (f : Number → Number) : Doc → Doc
  | .number n => .number (f n)
  | .array items => .array (mapItems f items)
  | .object entries => .object (mapEntries f entries)
  | d => d
def mapItems (f : Number → Number) : List Doc → List Doc
  | [] => []
  | d :: rest => d.mapNumbers f :: mapItems f rest
def mapEntries (f : Number → Number) : List (String × Doc) → List (String × Doc)
  | [] => []
  | (k, d) :: rest => (k, d.mapNumbers f) :: mapEntries f rest
end

variable (f : Number → Number)

theorem mapItems_eq_map (items : List Doc) : mapItems f items = items.map (mapNumbers f) := by
  induction items with
  | nil => rfl
  | cons d rest ih => rw [mapItems, ih, List.map_cons]

theorem mapEntries_eq_map (entries : List (String × Doc)) :
    mapEntries f entries = entries.map (fun e => (e.1, e.2.mapNumbers f)) := by
  induction entries with
  | nil => rfl
  | cons e rest ih => rw [mapEntries, ih, List.map_cons]

theorem nesting_mapNumbers (d : Doc) : (d.mapNumbers f).nesting = d.nesting := by
  induction d using induct with
  | null | bool | number | string => rfl
  | array items ih =>
    rw [mapNumbers, nesting, nesting, mapItems_eq_map]
    congr 1
    induction items with
    | nil => rfl
    | cons d rest htail =>
      rw [List.map_cons, nestingItems, nestingItems, ih d (List.mem_cons_self ..),
        htail (fun x hx => ih x (List.mem_cons_of_mem _ hx))]
  | object entries ih =>
    rw [mapNumbers, nesting, nesting, mapEntries_eq_map]
    congr 1
    induction entries with
    | nil => rfl
    | cons e rest htail =>
      rw [List.map_cons, nestingEntries, nestingEntries, ih e (List.mem_cons_self ..),
        htail (fun x hx => ih x (List.mem_cons_of_mem _ hx))]

/-- A property that does not look at numbers is kept at every node. -/
theorem every_mapNumbers {p : Doc → Bool} (hp : ∀ d, p (d.mapNumbers f) = p d) (d : Doc) :
    (d.mapNumbers f).every p = d.every p := by
  rw [Bool.eq_iff_iff]
  induction d using induct with
  | null | bool | string => rfl
  | number n =>
    have hnumber := hp (.number n)
    rw [mapNumbers] at hnumber
    simp only [mapNumbers, every, hnumber]
  | array items ih =>
    have harray := hp (.array items)
    rw [mapNumbers] at harray ⊢
    rw [every_array, every_array, harray, mapItems_eq_map, List.forall_mem_map]
    exact and_congr_right (fun _ => forall₂_congr ih)
  | object entries ih =>
    have hobject := hp (.object entries)
    rw [mapNumbers] at hobject ⊢
    rw [every_object, every_object, hobject, mapEntries_eq_map, List.forall_mem_map]
    exact and_congr_right (fun _ => forall₂_congr ih)

theorem sorted_mapEntries (entries : List (String × Doc)) :
    Sorted (mapEntries f entries) ↔ Sorted entries := by
  rw [mapEntries_eq_map, SortedMap.Sorted, SortedMap.Sorted, List.pairwise_map]

theorem canonical_mapNumbers (d : Doc) : (d.mapNumbers f).canonical = d.canonical := by
  refine every_mapNumbers f (fun d => ?_) d
  cases d with
  | object entries =>
    rw [mapNumbers, isMap, isMap]
    exact decide_eq_decide.mpr (sorted_mapEntries f entries)
  | null | bool | number | string | array => rfl

theorem lookup_mapEntries (key : String) (entries : List (String × Doc)) :
    lookup key (mapEntries f entries) = (lookup key entries).map (mapNumbers f) := by
  induction entries with
  | nil => rfl
  | cons e rest ih =>
    rw [mapEntries, lookup, lookup, ih]
    split <;> rfl

theorem index_mapNumbers (d : Doc) (key : String) :
    (d.mapNumbers f).index key = (d.index key).mapNumbers f := by
  cases d with
  | object entries =>
    rw [mapNumbers, index, index, lookup_mapEntries]
    cases lookup key entries <;> rfl
  | null | bool | number | string | array => rfl

@[simp] theorem asStr_mapNumbers (d : Doc) : (d.mapNumbers f).asStr = d.asStr := by
  cases d <;> rfl

/-- The number at the root is left as it is. -/
def keeps : Doc → Bool
  | .number n => decide (f n = n)
  | _ => true

theorem mapNumbers_of_keeps {d : Doc} (h : d.every (keeps f) = true) : d.mapNumbers f = d := by
  induction d using induct with
  | null | bool | string => rfl
  | number n => rw [mapNumbers, of_decide_eq_true h]
  | array items ih =>
    rw [every_array] at h
    rw [mapNumbers, mapItems_eq_map, List.map_congr_left (fun d hd => ih d hd (h.2 d hd)),
      List.map_id']
  | object entries ih =>
    rw [every_object] at h
    have hid : entries.map (fun e => (e.1, e.2.mapNumbers f)) = entries.map id :=
      List.map_congr_left (fun e he => Prod.ext rfl (ih e he (h.2 e he)))
    rw [mapNumbers, mapEntries_eq_map, hid, List.map_id]

end Doc

def Value.mapNumbers (f : Number → Number) (v : Value) : Value :=
  ⟨v.doc.mapNumbers f, (Doc.canonical_mapNumbers f v.doc).trans v.canonical⟩

@[simp] theorem Value.doc_mapNumbers (f : Number → Number) (v : Value) :
    (v.mapNumbers f).doc = v.doc.mapNumbers f := rfl

theorem Value.index_mapNumbers (f : Number → Number) (v : Value) (key : String) :
    (v.mapNumbers f).index key = (v.index key).mapNumbers f := Doc.index_mapNumbers f v.doc key

theorem Value.mapNumbers_object (f : Number → Number) (entries : List (String × Value)) :
    (Value.object entries).mapNumbers f =
      Value.object (entries.map (fun e => (e.1, e.2.mapNumbers f))) := by
  refine Value.ext_doc ?_
  show Doc.mapNumbers f (.object (SortedMap.ofList _)) = .object (SortedMap.ofList _)
  rw [Doc.mapNumbers, Doc.mapEntries_eq_map, ← SortedMap.ofList_map, List.map_map, List.map_map]
  rfl

/-! ## Floats only -/

/-- What a reader makes of a number, when it keeps the integers. -/
def Number.reread (f : UInt64 → Number) : Number → Number
  | .int i => .int i
  | .float bits => f bits

theorem Doc.mapNumbers_reread {f : UInt64 → Number} {d : Doc} (h : d.floatFree = true) :
    d.mapNumbers (Number.reread f) = d := by
  refine mapNumbers_of_keeps _ ?_
  induction d using induct with
  | null | bool | string => rfl
  | number n =>
    cases n with
    | int i => exact decide_eq_true rfl
    | float bits => cases h
  | array items ih =>
    rw [floatFree_array] at h
    rw [every_array]
    exact ⟨rfl, fun d hd => ih d hd (h d hd)⟩
  | object entries ih =>
    rw [floatFree_object] at h
    rw [every_object]
    exact ⟨rfl, fun e he => ih e he (h e he)⟩

end RubyEngine.Json
