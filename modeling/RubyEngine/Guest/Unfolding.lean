import Mathlib.Data.List.Nodup
import RubyEngine.Guest.Heap

/-!
# When a value unfolds to a document

A value whose unfolding is bounded and free of faults has a document, and only one.
-/
namespace RubyEngine.Guest

open Json (Doc)

variable {heap : Heap}

/-! ## Values that have a document -/

/-- Every value under `v` is above the depth `room` and can be encoded. -/
def Encodable (heap : Heap) (room : Nat) (v : MrbValue) : Prop :=
  ∀ n w, Occurs heap v n w → n < room ∧ ¬ Fault heap w

theorem not_encodable_zero (v : MrbValue) : ¬ Encodable heap 0 v := by
  intro h
  exact absurd (h 0 v (.root v)).1 (Nat.lt_irrefl 0)

theorem encodable_succ {room : Nat} {v : MrbValue} :
    Encodable heap (room + 1) v ↔
      ¬ Fault heap v ∧ ∀ x, Child heap v x → Encodable heap room x := by
  constructor
  · intro h
    refine ⟨(h 0 v (.root v)).2, ?_⟩
    intro x hchild n w hocc
    have hbelow := h (n + 1) w (.deeper hchild hocc)
    exact ⟨by omega, hbelow.2⟩
  · intro ⟨hfault, hchildren⟩ n w hocc
    cases hocc with
    | root _ => exact ⟨by omega, hfault⟩
    | deeper hchild hrest =>
      have hbelow := hchildren _ hchild _ w hrest
      exact ⟨by omega, hbelow.2⟩

theorem exists_unfoldsItems {room : Nat} {items : List MrbValue}
    (h : ∀ v ∈ items, ∃ d, Unfolds heap d v ∧ d.height < room) :
    ∃ ds, UnfoldsItems heap ds items ∧ ∀ d ∈ ds, d.height < room := by
  induction items with
  | nil => exact ⟨[], rfl, by simp⟩
  | cons v rest ih =>
    obtain ⟨d, hd, hheight⟩ := h v (by simp)
    obtain ⟨ds, hds, hheights⟩ := ih (fun x hx => h x (List.mem_cons_of_mem _ hx))
    refine ⟨d :: ds, ⟨v, rest, rfl, hd, hds⟩, ?_⟩
    simpa using ⟨hheight, hheights⟩

theorem exists_unfoldsEntries {room : Nat} {entries : Entries}
    (hkeys : ∀ e ∈ entries, ∃ k, e.1.text = some (utf8 k))
    (h : ∀ e ∈ entries, ∃ d, Unfolds heap d e.2 ∧ d.height < room) :
    ∃ ms, UnfoldsEntries heap ms entries ∧ ∀ m ∈ ms, m.2.height < room := by
  induction entries with
  | nil => exact ⟨[], rfl, by simp⟩
  | cons e rest ih =>
    obtain ⟨k, hk⟩ := hkeys e (by simp)
    obtain ⟨d, hd, hheight⟩ := h e (by simp)
    obtain ⟨ms, hms, hheights⟩ := ih (fun x hx => hkeys x (List.mem_cons_of_mem _ hx))
      (fun x hx => h x (List.mem_cons_of_mem _ hx))
    refine ⟨(k, d) :: ms, ⟨e, rest, rfl, hk, hd, hms⟩, ?_⟩
    simpa using ⟨hheight, fun a b => hheights (a, b)⟩

theorem unfoldsEntries_keys {ms : List (String × Doc)} {entries : Entries}
    (h : UnfoldsEntries heap ms entries) :
    entries.filterMap (fun e => e.1.text) = ms.map (fun m => utf8 m.1) := by
  induction ms generalizing entries with
  | nil =>
    rw [UnfoldsEntries] at h
    subst h
    rfl
  | cons m ms ih =>
    obtain ⟨e, rest, rfl, hk, _, hrest⟩ := h
    simp only [List.filterMap_cons, hk, ih hrest, List.map_cons]

theorem exists_unfolding {room : Nat} {v : MrbValue} (h : Encodable heap room v)
    (htext : Textual heap v) : ∃ d, Unfolds heap d v ∧ d.height < room := by
  induction room generalizing v with
  | zero => exact absurd h (not_encodable_zero v)
  | succ room ih =>
    obtain ⟨hfault, hchildren⟩ := encodable_succ.mp h
    cases hshape : shape heap v with
    | nil => exact ⟨.null, hshape, Nat.succ_pos room⟩
    | bool b => exact ⟨.bool b, hshape, Nat.succ_pos room⟩
    | integer i => exact ⟨.number (.int i.toInteger), ⟨i, hshape, rfl⟩, Nat.succ_pos room⟩
    | text bytes =>
      obtain ⟨s, rfl⟩ := htext.texts 0 v bytes (.root v) hshape
      exact ⟨.string s, hshape, Nat.succ_pos room⟩
    | badRecord => exact absurd (.badRecord hshape) hfault
    | other => exact absurd (.other hshape) hfault
    | array items =>
      obtain ⟨ds, hds, hheights⟩ := exists_unfoldsItems (fun x hx =>
        ih (hchildren x (.item hshape hx)) (htext.child (.item hshape hx)))
      refine ⟨.array ds, ⟨items, hshape, hds⟩, ?_⟩
      have hle : Doc.heightItems ds ≤ room := Doc.heightItems_le.mpr hheights
      rw [Doc.height]
      omega
    | hash entries =>
      have hkeys : ∀ e ∈ entries, ∃ k, e.1.text = some (utf8 k) := by
        intro e he
        cases hk : e.1.text with
        | none => exact absurd (.foreignKey hshape he hk) hfault
        | some bytes =>
          obtain ⟨k, rfl⟩ := htext.keys 0 v entries (.root v) hshape e he bytes hk
          exact ⟨k, rfl⟩
      obtain ⟨ms, hms, hheights⟩ := exists_unfoldsEntries hkeys (fun e he =>
        ih (hchildren e.2 (.member hshape he)) (htext.child (.member hshape he)))
      have hnodup : (ms.map Prod.fst).Nodup := by
        by_contra hrepeated
        refine hfault (.repeatedKey hshape ?_)
        rw [unfoldsEntries_keys hms]
        intro hutf8
        refine hrepeated (List.Nodup.of_map utf8 ?_)
        rwa [List.map_map]
      refine ⟨.object ms, ⟨entries, hshape, hms, hnodup⟩, ?_⟩
      have hle : Doc.heightEntries ms ≤ room := Doc.heightEntries_le.mpr hheights
      rw [Doc.height]
      omega

/-! ## Documents of a value -/

theorem unfolds_array {d : Doc} {v : MrbValue} {items : List MrbValue}
    (hshape : shape heap v = .array items) (h : Unfolds heap d v) :
    ∃ ds, d = .array ds ∧ UnfoldsItems heap ds items := by
  cases d with
  | array ds =>
    obtain ⟨items', hshape', hds⟩ := h
    obtain rfl := Shape.array.inj (hshape.symm.trans hshape')
    exact ⟨ds, rfl, hds⟩
  | _ => simp [Unfolds, hshape] at h

theorem unfolds_hash {d : Doc} {v : MrbValue} {entries : Entries}
    (hshape : shape heap v = .hash entries) (h : Unfolds heap d v) :
    ∃ ms, d = .object ms ∧ UnfoldsEntries heap ms entries := by
  cases d with
  | object ms =>
    obtain ⟨entries', hshape', hms, _⟩ := h
    obtain rfl := Shape.hash.inj (hshape.symm.trans hshape')
    exact ⟨ms, rfl, hms⟩
  | _ => simp [Unfolds, hshape] at h

theorem unfoldsItems_unique {ds es : List Doc} {items : List MrbValue}
    (h : ∀ d ∈ ds, ∀ e v, Unfolds heap d v → Unfolds heap e v → d = e)
    (hds : UnfoldsItems heap ds items) (hes : UnfoldsItems heap es items) : ds = es := by
  induction ds generalizing es items with
  | nil =>
    rw [UnfoldsItems] at hds
    subst hds
    cases es with
    | nil => rfl
    | cons e es => simp [UnfoldsItems] at hes
  | cons d ds ih =>
    obtain ⟨v, rest, rfl, hd, hrest⟩ := hds
    cases es with
    | nil => simp [UnfoldsItems] at hes
    | cons e es =>
      obtain ⟨v', rest', heq, he, hrest'⟩ := hes
      obtain ⟨rfl, rfl⟩ := List.cons.inj heq
      rw [h d (by simp) e v hd he,
        ih (fun x hx => h x (List.mem_cons_of_mem _ hx)) hrest hrest']

theorem unfoldsEntries_unique {ms ns : List (String × Doc)} {entries : Entries}
    (h : ∀ m ∈ ms, ∀ e v, Unfolds heap m.2 v → Unfolds heap e v → m.2 = e)
    (hms : UnfoldsEntries heap ms entries) (hns : UnfoldsEntries heap ns entries) : ms = ns := by
  induction ms generalizing ns entries with
  | nil =>
    rw [UnfoldsEntries] at hms
    subst hms
    cases ns with
    | nil => rfl
    | cons n ns => simp [UnfoldsEntries] at hns
  | cons m ms ih =>
    obtain ⟨e, rest, rfl, hkey, hd, hrest⟩ := hms
    cases ns with
    | nil => simp [UnfoldsEntries] at hns
    | cons n ns =>
      obtain ⟨e', rest', heq, hkey', hd', hrest'⟩ := hns
      obtain ⟨rfl, rfl⟩ := List.cons.inj heq
      have hname : m.1 = n.1 := utf8_injective (Option.some.inj (hkey.symm.trans hkey'))
      rw [Prod.ext hname (h m (by simp) n.2 e.2 hd hd'),
        ih (fun x hx => h x (List.mem_cons_of_mem _ hx)) hrest hrest']

/-- A value has one document at most. -/
theorem unfolds_unique {d e : Doc} {v : MrbValue} (hd : Unfolds heap d v)
    (he : Unfolds heap e v) : d = e := by
  induction d using Doc.induct generalizing e v with
  | null =>
    have hshape : shape heap v = .nil := hd
    cases e with
    | null => rfl
    | _ => simp [Unfolds, hshape] at he
  | bool b =>
    have hshape : shape heap v = .bool b := hd
    cases e with
    | bool c => rw [Shape.bool.inj (hshape.symm.trans he)]
    | _ => simp [Unfolds, hshape] at he
  | number n =>
    obtain ⟨i, hshape, rfl⟩ := hd
    cases e with
    | number m =>
      obtain ⟨j, hshape', rfl⟩ := he
      rw [Shape.integer.inj (hshape.symm.trans hshape')]
    | _ => simp [Unfolds, hshape] at he
  | string s =>
    have hshape : shape heap v = .text (utf8 s) := hd
    cases e with
    | string t => rw [utf8_injective (Shape.text.inj (hshape.symm.trans he))]
    | _ => simp [Unfolds, hshape] at he
  | array ds ih =>
    obtain ⟨items, hshape, hds⟩ := hd
    obtain ⟨es, rfl, hes⟩ := unfolds_array hshape he
    rw [unfoldsItems_unique (fun d hd e v h h' => ih d hd h h') hds hes]
  | object ms ih =>
    obtain ⟨entries, hshape, hms, _⟩ := hd
    obtain ⟨ns, rfl, hns⟩ := unfolds_hash hshape he
    rw [unfoldsEntries_unique (fun m hm e v h h' => ih m hm h h') hms hns]

theorem unfoldsItems_left {ds : List Doc} {items : List MrbValue}
    (h : UnfoldsItems heap ds items) : ∀ d ∈ ds, ∃ v ∈ items, Unfolds heap d v := by
  induction ds generalizing items with
  | nil => simp
  | cons d ds ih =>
    obtain ⟨v, rest, rfl, hd, hrest⟩ := h
    intro x hx
    rcases List.mem_cons.mp hx with rfl | hx
    · exact ⟨v, by simp, hd⟩
    · obtain ⟨w, hw, hfound⟩ := ih hrest x hx
      exact ⟨w, List.mem_cons_of_mem _ hw, hfound⟩

theorem unfoldsItems_right {ds : List Doc} {items : List MrbValue}
    (h : UnfoldsItems heap ds items) : ∀ v ∈ items, ∃ d ∈ ds, Unfolds heap d v := by
  induction ds generalizing items with
  | nil =>
    rw [UnfoldsItems] at h
    subst h
    simp
  | cons d ds ih =>
    obtain ⟨v, rest, rfl, hd, hrest⟩ := h
    intro x hx
    rcases List.mem_cons.mp hx with rfl | hx
    · exact ⟨d, by simp, hd⟩
    · obtain ⟨e, he, hfound⟩ := ih hrest x hx
      exact ⟨e, List.mem_cons_of_mem _ he, hfound⟩

theorem unfoldsEntries_left {ms : List (String × Doc)} {entries : Entries}
    (h : UnfoldsEntries heap ms entries) :
    ∀ m ∈ ms, ∃ e ∈ entries, e.1.text = some (utf8 m.1) ∧ Unfolds heap m.2 e.2 := by
  induction ms generalizing entries with
  | nil => simp
  | cons m ms ih =>
    obtain ⟨e, rest, rfl, hkey, hd, hrest⟩ := h
    intro x hx
    rcases List.mem_cons.mp hx with rfl | hx
    · exact ⟨e, by simp, hkey, hd⟩
    · obtain ⟨e', he', hfound⟩ := ih hrest x hx
      exact ⟨e', List.mem_cons_of_mem _ he', hfound⟩

theorem unfoldsEntries_right {ms : List (String × Doc)} {entries : Entries}
    (h : UnfoldsEntries heap ms entries) :
    ∀ e ∈ entries, ∃ m ∈ ms, e.1.text = some (utf8 m.1) ∧ Unfolds heap m.2 e.2 := by
  induction ms generalizing entries with
  | nil =>
    rw [UnfoldsEntries] at h
    subst h
    simp
  | cons m ms ih =>
    obtain ⟨e, rest, rfl, hkey, hd, hrest⟩ := h
    intro x hx
    rcases List.mem_cons.mp hx with rfl | hx
    · exact ⟨m, by simp, hkey, hd⟩
    · obtain ⟨n, hn, hfound⟩ := ih hrest x hx
      exact ⟨n, List.mem_cons_of_mem _ hn, hfound⟩

theorem unfoldsEntries_length {ms : List (String × Doc)} {entries : Entries}
    (h : UnfoldsEntries heap ms entries) : ms.length = entries.length := by
  induction ms generalizing entries with
  | nil =>
    rw [UnfoldsEntries] at h
    subst h
    rfl
  | cons m ms ih =>
    obtain ⟨e, rest, rfl, _, _, hrest⟩ := h
    rw [List.length_cons, List.length_cons, ih hrest]

/-- A property of signed integers, and of everything that is not a number. -/
theorem unfolds_every {p : Doc → Bool} (hother : ∀ d, (∀ n, d ≠ .number n) → p d = true)
    (hword : ∀ i : Word, p (.number (.int i.toInteger)) = true) {d : Doc} {v : MrbValue}
    (h : Unfolds heap d v) : d.every p = true := by
  induction d using Doc.induct generalizing v with
  | null | bool | string => exact hother _ (by simp)
  | number n =>
    obtain ⟨i, _, rfl⟩ := h
    exact hword i
  | array ds ih =>
    obtain ⟨items, _, hds⟩ := h
    rw [Doc.every_array]
    refine ⟨hother _ (by simp), ?_⟩
    intro d hd
    obtain ⟨x, _, hx⟩ := unfoldsItems_left hds d hd
    exact ih d hd hx
  | object ms ih =>
    obtain ⟨entries, _, hms, _⟩ := h
    rw [Doc.every_object]
    refine ⟨hother _ (by simp), ?_⟩
    intro m hm
    obtain ⟨x, _, _, hx⟩ := unfoldsEntries_left hms m hm
    exact ih m hm hx

theorem unfolds_floatFree {d : Doc} {v : MrbValue} (h : Unfolds heap d v) :
    d.floatFree = true := by
  refine unfolds_every (fun d hd => ?_) (fun _ => rfl) h
  cases d with
  | number n => exact absurd rfl (hd n)
  | null | bool | string | array | object => rfl

theorem unfolds_distinct {d : Doc} {v : MrbValue} (h : Unfolds heap d v) :
    d.distinct = true := by
  induction d using Doc.induct generalizing v with
  | null | bool | number | string => rfl
  | array ds ih =>
    obtain ⟨items, _, hds⟩ := h
    rw [Doc.distinct_array]
    intro d hd
    obtain ⟨x, _, hx⟩ := unfoldsItems_left hds d hd
    exact ih d hd hx
  | object ms ih =>
    obtain ⟨entries, _, hms, hnodup⟩ := h
    rw [Doc.distinct_object]
    refine ⟨hnodup, ?_⟩
    intro m hm
    obtain ⟨x, _, _, hx⟩ := unfoldsEntries_left hms m hm
    exact ih m hm hx

/-! ## Depth -/

/-- The values of the unfolding lie as deep as the nodes of the document. -/
theorem unfolds_occurs {d : Doc} {v : MrbValue} {n : Nat} (h : Unfolds heap d v) :
    (∃ w, Occurs heap v n w) ↔ n ≤ d.height := by
  induction n generalizing d v with
  | zero => exact iff_of_true ⟨v, .root v⟩ (Nat.zero_le _)
  | succ n ih =>
    constructor
    · intro ⟨w, hocc⟩
      obtain ⟨x, hchild, hrest⟩ := (occurs_succ heap).mp hocc
      cases hchild with
      | item hshape hx =>
        obtain ⟨ds, rfl, hds⟩ := unfolds_array hshape h
        obtain ⟨d, hd, hfound⟩ := unfoldsItems_right hds x hx
        have hdeep := (ih hfound).mp ⟨w, hrest⟩
        have hle := Doc.heightItems_le.mp (Nat.le_refl _) d hd
        rw [Doc.height]
        omega
      | member hshape he =>
        obtain ⟨ms, rfl, hms⟩ := unfolds_hash hshape h
        obtain ⟨m, hm, _, hfound⟩ := unfoldsEntries_right hms _ he
        have hdeep := (ih hfound).mp ⟨w, hrest⟩
        have hle := Doc.heightEntries_le.mp (Nat.le_refl _) m hm
        rw [Doc.height]
        omega
    · intro hn
      cases d with
      | null | bool | number | string => simp [Doc.height] at hn
      | array ds =>
        obtain ⟨items, hshape, hds⟩ := h
        by_contra hnone
        have hlow : Doc.heightItems ds ≤ n := by
          rw [Doc.heightItems_le]
          intro d hd
          obtain ⟨x, hx, hfound⟩ := unfoldsItems_left hds d hd
          by_contra hdeep
          obtain ⟨w, hocc⟩ := (ih hfound).mpr (by omega)
          exact hnone ⟨w, .deeper (.item hshape hx) hocc⟩
        rw [Doc.height] at hn
        omega
      | object ms =>
        obtain ⟨entries, hshape, hms, _⟩ := h
        by_contra hnone
        have hlow : Doc.heightEntries ms ≤ n := by
          rw [Doc.heightEntries_le]
          intro m hm
          obtain ⟨e, he, _, hfound⟩ := unfoldsEntries_left hms m hm
          by_contra hdeep
          obtain ⟨w, hocc⟩ := (ih hfound).mpr (by omega)
          exact hnone ⟨w, .deeper (.member hshape he) hocc⟩
        rw [Doc.height] at hn
        omega

end RubyEngine.Guest
