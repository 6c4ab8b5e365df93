import Mathlib.Data.List.Nodup
import RubyEngine.Guest.Tree

/-!
# The two sides of the node array agree

What `Tree::new` admits, `decode` rebuilds: both walk the value in pre-order, and
they put the same bound on its depth.
-/
namespace RubyEngine.Guest

open Json (Doc Value Number)

/-- Every integer is one of a signed 64-bit word. -/
def fitsWord (d : Doc) : Bool :=
  d.every fun
    | .number (.int i) => decide (i.val < 2 ^ 63)
    | _ => true

theorem fitsWord_array {items : List Doc} :
    fitsWord (.array items) = true ↔ ∀ d ∈ items, fitsWord d = true := by
  simp [fitsWord]

theorem fitsWord_object {entries : List (String × Doc)} :
    fitsWord (.object entries) = true ↔ ∀ e ∈ entries, fitsWord e.2 = true := by
  simp [fitsWord]

namespace Tree

/-- The node of a value that fits. -/
def leaf (d : Doc) : Node := (node d).toOption.getD {}

mutual
/-- The nodes of a value in the order of the array. -/
def preorder : Doc → List Node
  | .array items => leaf (.array items) :: preorderItems items
  | .object entries => leaf (.object entries) :: preorderEntries entries
  | d => [leaf d]
def preorderItems : List Doc → List Node
  | [] => []
  | d :: rest => preorder d ++ preorderItems rest
def preorderEntries : List (String × Doc) → List Node
  | [] => []
  | (key, d) :: rest => leaf (.string key) :: preorder d ++ preorderEntries rest
end

/-! ## Flattening -/

theorem addLeaf_ok {nodes : List Node} {d : Doc} {depth : Nat} (hdepth : depth ≤ 64)
    (hfits : fitsWord d = true) : addLeaf nodes d depth = .ok (nodes ++ [leaf d]) := by
  rw [addLeaf, if_neg (by omega)]
  cases d with
  | number n =>
    cases n with
    | int i =>
      have hi : i.val < 2 ^ 63 := by simpa [fitsWord, Doc.every] using hfits
      simp only [leaf, node, if_pos hi, Except.toOption, Option.getD_some]
    | float bits => rfl
  | null | bool | string | array | object => rfl

theorem addLeaf_bound {nodes out : List Node} {d : Doc} {depth : Nat}
    (h : addLeaf nodes d depth = .ok out) : depth ≤ 64 := by
  unfold addLeaf at h
  split at h
  · cases h
  · omega

theorem addLeaf_fits {nodes out : List Node} {n : Number} {depth : Nat}
    (h : addLeaf nodes (.number n) depth = .ok out) : fitsWord (.number n) = true := by
  cases n with
  | float bits => rfl
  | int i =>
    by_contra hfits
    have hi : ¬ i.val < 2 ^ 63 := by simpa [fitsWord, Doc.every] using hfits
    simp only [addLeaf, node, if_neg hi] at h
    split at h <;> cases h

/-- What an admitted value adds to the array. -/
def Flattens (d : Doc) : Prop :=
  ∀ nodes depth, fitsWord d = true → depth + d.height ≤ 64 →
    add nodes d depth = .ok (nodes ++ preorder d)

theorem addItems_ok {items : List Doc} (h : ∀ d ∈ items, Flattens d) :
    ∀ nodes depth, (∀ d ∈ items, fitsWord d = true) → (∀ d ∈ items, depth + d.height ≤ 64) →
      addItems nodes items depth = .ok (nodes ++ preorderItems items) := by
  induction items with
  | nil =>
    intro nodes depth _ _
    simp [addItems, preorderItems]
  | cons d rest ih =>
    intro nodes depth hfits hdepth
    have hd := h d (by simp) nodes depth (hfits d (by simp)) (hdepth d (by simp))
    have hrest := ih (fun x hx => h x (List.mem_cons_of_mem _ hx)) (nodes ++ preorder d) depth
      (fun x hx => hfits x (List.mem_cons_of_mem _ hx))
      (fun x hx => hdepth x (List.mem_cons_of_mem _ hx))
    rw [addItems, hd]
    simp only [hrest, preorderItems, List.append_assoc]

theorem addEntries_ok {entries : List (String × Doc)} (h : ∀ e ∈ entries, Flattens e.2) :
    ∀ nodes depth, (∀ e ∈ entries, fitsWord e.2 = true) →
      (∀ e ∈ entries, depth + e.2.height ≤ 64) →
      addEntries nodes entries depth = .ok (nodes ++ preorderEntries entries) := by
  induction entries with
  | nil =>
    intro nodes depth _ _
    simp [addEntries, preorderEntries]
  | cons e rest ih =>
    intro nodes depth hfits hdepth
    obtain ⟨key, d⟩ := e
    have hbound := hdepth (key, d) (by simp)
    have hkey : addLeaf nodes (.string key) depth = .ok (nodes ++ [leaf (.string key)]) :=
      addLeaf_ok (by omega) rfl
    have hd := h (key, d) (by simp) (nodes ++ [leaf (.string key)]) depth
      (hfits (key, d) (by simp)) hbound
    have hrest := ih (fun x hx => h x (List.mem_cons_of_mem _ hx))
      ((nodes ++ [leaf (.string key)]) ++ preorder d) depth
      (fun x hx => hfits x (List.mem_cons_of_mem _ hx))
      (fun x hx => hdepth x (List.mem_cons_of_mem _ hx))
    rw [addEntries, hkey]
    simp only [hd, hrest, preorderEntries]
    simp only [List.append_assoc, List.cons_append, List.nil_append]

theorem flattens (d : Doc) : Flattens d := by
  induction d using Doc.induct with
  | null | bool | number | string =>
    intro nodes depth hfits hdepth
    exact addLeaf_ok (by simp only [Doc.height] at hdepth; omega) hfits
  | array items ih =>
    intro nodes depth hfits hdepth
    have hitems := addItems_ok ih (nodes ++ [leaf (.array items)]) (depth + 1)
      (fitsWord_array.mp hfits) (fun d hd => by
        have hle := Doc.heightItems_le.mp (Nat.le_refl _) d hd
        rw [Doc.height] at hdepth
        omega)
    rw [add, addLeaf_ok (by omega) hfits]
    simp only [hitems, preorder, List.append_assoc, List.singleton_append]
  | object entries ih =>
    intro nodes depth hfits hdepth
    have hentries := addEntries_ok ih (nodes ++ [leaf (.object entries)]) (depth + 1)
      (fitsWord_object.mp hfits) (fun e he => by
        have hle := Doc.heightEntries_le.mp (Nat.le_refl _) e he
        rw [Doc.height] at hdepth
        omega)
    rw [add, addLeaf_ok (by omega) hfits]
    simp only [hentries, preorder, List.append_assoc, List.singleton_append]

/-- Only a value within the two bounds is admitted. -/
def Bounded (d : Doc) : Prop :=
  ∀ nodes depth out, add nodes d depth = .ok out → fitsWord d = true ∧ depth + d.height ≤ 64

theorem addItems_bound {items : List Doc} (h : ∀ d ∈ items, Bounded d) :
    ∀ nodes depth out, addItems nodes items depth = .ok out →
      ∀ d ∈ items, fitsWord d = true ∧ depth + d.height ≤ 64 := by
  induction items with
  | nil => simp
  | cons d rest ih =>
    intro nodes depth out hadd x hx
    rw [addItems] at hadd
    split at hadd
    · cases hadd
    · next mid hmid =>
      rcases List.mem_cons.mp hx with rfl | hx
      · exact h x (by simp) nodes depth mid hmid
      · exact ih (fun y hy => h y (List.mem_cons_of_mem _ hy)) mid depth out hadd x hx

theorem addEntries_bound {entries : List (String × Doc)} (h : ∀ e ∈ entries, Bounded e.2) :
    ∀ nodes depth out, addEntries nodes entries depth = .ok out →
      ∀ e ∈ entries, fitsWord e.2 = true ∧ depth + e.2.height ≤ 64 := by
  induction entries with
  | nil => simp
  | cons e rest ih =>
    intro nodes depth out hadd x hx
    obtain ⟨key, d⟩ := e
    rw [addEntries] at hadd
    split at hadd
    · cases hadd
    · split at hadd
      · cases hadd
      · next mid hmid =>
        rcases List.mem_cons.mp hx with rfl | hx
        · exact h (key, d) (by simp) _ depth mid hmid
        · exact ih (fun y hy => h y (List.mem_cons_of_mem _ hy)) mid depth out hadd x hx

theorem bounded (d : Doc) : Bounded d := by
  induction d using Doc.induct with
  | null | bool | string =>
    intro nodes depth out hadd
    simp only [add] at hadd
    exact ⟨rfl, addLeaf_bound hadd⟩
  | number n =>
    intro nodes depth out hadd
    simp only [add] at hadd
    exact ⟨addLeaf_fits hadd, addLeaf_bound hadd⟩
  | array items ih =>
    intro nodes depth out hadd
    rw [add] at hadd
    split at hadd
    · cases hadd
    · next mid hmid =>
      have hall := addItems_bound ih mid (depth + 1) out hadd
      have hdepth := addLeaf_bound hmid
      refine ⟨fitsWord_array.mpr (fun d hd => (hall d hd).1), ?_⟩
      have hheight : Doc.heightItems items ≤ 64 - depth := by
        rw [Doc.heightItems_le]
        intro d hd
        have hd' := (hall d hd).2
        omega
      rw [Doc.height]
      omega
  | object entries ih =>
    intro nodes depth out hadd
    rw [add] at hadd
    split at hadd
    · cases hadd
    · next mid hmid =>
      have hall := addEntries_bound ih mid (depth + 1) out hadd
      have hdepth := addLeaf_bound hmid
      refine ⟨fitsWord_object.mpr (fun e he => (hall e he).1), ?_⟩
      have hheight : Doc.heightEntries entries ≤ 64 - depth := by
        rw [Doc.heightEntries_le]
        intro e he
        have he' := (hall e he).2
        omega
      rw [Doc.height]
      omega

/-- `Tree::new` admits a value exactly when it is within both bounds. -/
theorem new_iff (d : Doc) :
    (∃ nodes, new d = .ok nodes) ↔ d.height ≤ 64 ∧ fitsWord d = true := by
  constructor
  · rintro ⟨nodes, h⟩
    obtain ⟨hfits, hdepth⟩ := bounded d [] 0 nodes h
    exact ⟨by omega, hfits⟩
  · rintro ⟨hdepth, hfits⟩
    exact ⟨_, flattens d [] 0 hfits (by omega)⟩

theorem new_eq {d : Doc} {nodes : List Node} (h : new d = .ok nodes) : nodes = preorder d := by
  obtain ⟨hfits, hdepth⟩ := bounded d [] 0 nodes h
  have hflat := flattens d [] 0 hfits hdepth
  rw [new, hflat] at h
  exact (Except.ok.inj h).symm

end Tree

/-! ## Rebuilding -/

namespace Ruby

mutual
/-- The Ruby value of a document: an object is a hash, inside a record if `records` is set. -/
def ofDoc (records : Bool) : Doc → Ruby
  | .null => .nil
  | .bool b => .bool b
  | .number (.int i) => .integer i.val
  | .number (.float bits) => .float bits
  | .string s => .string (utf8 s)
  | .array items => .array (ofItems records items)
  | .object entries =>
      if records then .record (ofEntries records entries) else .hash (ofEntries records entries)
def ofItems (records : Bool) : List Doc → List Ruby
  | [] => []
  | d :: rest => ofDoc records d :: ofItems records rest
def ofEntries (records : Bool) : List (String × Doc) → List (Bytes × Ruby)
  | [] => []
  | (key, d) :: rest => (utf8 key, ofDoc records d) :: ofEntries records rest
end

end Ruby

theorem hashSet_of_new {key : Bytes} {item : Ruby} {entries : List (Bytes × Ruby)}
    (h : key ∉ entries.map Prod.fst) : hashSet key item entries = entries ++ [(key, item)] := by
  induction entries with
  | nil => rfl
  | cons e rest ih =>
    obtain ⟨k, v⟩ := e
    rw [List.map_cons, List.mem_cons, not_or] at h
    rw [hashSet, if_neg (Ne.symm h.1), ih h.2, List.cons_append]

/-- The nodes of a value, wherever they stand in the array, rebuild it, and the
cursor ends behind them. -/
def Rebuilds (d : Doc) : Prop :=
  ∀ before after room records, fitsWord d = true → d.canonical = true → d.height < room →
    decodeRoom (before ++ Tree.preorder d ++ after) room before.length records =
      .ok (Ruby.ofDoc records d, (before ++ Tree.preorder d).length)

theorem getElem_middle (before after : List Node) (node : Node) :
    (before ++ node :: after)[before.length]? = some node := by simp

/-- The node of a key needs a level, and nothing else of the rest of the array. -/
theorem decodeRoom_key {before after : List Node} {key : String} {room : Nat} (h : 0 < room)
    (records : Bool) :
    decodeRoom (before ++ Tree.leaf (.string key) :: after) room before.length records =
      .ok (.string (utf8 key), before.length + 1) := by
  obtain ⟨room, rfl⟩ := Nat.exists_eq_add_of_lt h
  rw [Nat.zero_add, decodeRoom, getElem_middle]
  simp [Tree.leaf, Tree.node, Except.toOption]

theorem decodeItems_ok {items : List Doc} (h : ∀ d ∈ items, Rebuilds d) :
    ∀ before after room records, (∀ d ∈ items, fitsWord d = true) →
      (∀ d ∈ items, d.canonical = true) → (∀ d ∈ items, d.height < room) →
      decodeItems (fun c => decodeRoom (before ++ Tree.preorderItems items ++ after) room c records)
        items.length before.length =
      .ok (Ruby.ofItems records items, (before ++ Tree.preorderItems items).length) := by
  induction items with
  | nil =>
    intro before after room records _ _ _
    simp [decodeItems, Ruby.ofItems, Tree.preorderItems]
  | cons d rest ih =>
    intro before after room records hfits hcanon hroom
    have hd := h d (by simp) before (Tree.preorderItems rest ++ after) room records
      (hfits d (by simp)) (hcanon d (by simp)) (hroom d (by simp))
    have hrest := ih (fun x hx => h x (List.mem_cons_of_mem _ hx)) (before ++ Tree.preorder d) after
      room records (fun x hx => hfits x (List.mem_cons_of_mem _ hx))
      (fun x hx => hcanon x (List.mem_cons_of_mem _ hx))
      (fun x hx => hroom x (List.mem_cons_of_mem _ hx))
    simp only [List.append_assoc] at hd hrest
    simp only [Tree.preorderItems, List.append_assoc, List.length_cons, decodeItems, hd, hrest,
      Ruby.ofItems]

theorem decodePairs_ok {entries : List (String × Doc)} (h : ∀ e ∈ entries, Rebuilds e.2) :
    ∀ before after room records acc, (∀ e ∈ entries, fitsWord e.2 = true) →
      (∀ e ∈ entries, e.2.canonical = true) → (∀ e ∈ entries, e.2.height < room) →
      (acc.map Prod.fst ++ entries.map (fun e => utf8 e.1)).Nodup →
      decodePairs
        (fun c => decodeRoom (before ++ Tree.preorderEntries entries ++ after) room c false)
        (fun c => decodeRoom (before ++ Tree.preorderEntries entries ++ after) room c records)
        entries.length acc before.length =
      .ok (acc ++ Ruby.ofEntries records entries,
        (before ++ Tree.preorderEntries entries).length) := by
  induction entries with
  | nil =>
    intro before after room records acc _ _ _ _
    simp [decodePairs, Ruby.ofEntries, Tree.preorderEntries]
  | cons e rest ih =>
    intro before after room records acc hfits hcanon hroom hnodup
    obtain ⟨key, d⟩ := e
    have hlevel := hroom (key, d) (by simp)
    have hkey : decodeRoom (before ++ Tree.leaf (.string key) ::
        (Tree.preorder d ++ (Tree.preorderEntries rest ++ after))) room before.length false =
        .ok (.string (utf8 key), before.length + 1) := decodeRoom_key (by omega) false
    have hd := h (key, d) (by simp) (before ++ [Tree.leaf (.string key)])
      (Tree.preorderEntries rest ++ after) room records (hfits (key, d) (by simp))
      (hcanon (key, d) (by simp)) hlevel
    have hnew : utf8 key ∉ acc.map Prod.fst := by
      intro hmem
      exact (List.nodup_append.mp hnodup).2.2 _ hmem _ (by simp) rfl
    have hrest := ih (fun x hx => h x (List.mem_cons_of_mem _ hx))
      (before ++ [Tree.leaf (.string key)] ++ Tree.preorder d) after room records
      (acc ++ [(utf8 key, Ruby.ofDoc records d)])
      (fun x hx => hfits x (List.mem_cons_of_mem _ hx))
      (fun x hx => hcanon x (List.mem_cons_of_mem _ hx))
      (fun x hx => hroom x (List.mem_cons_of_mem _ hx))
      (by simpa using hnodup)
    simp only [List.append_assoc, List.cons_append, List.nil_append, List.length_append,
      List.length_cons, List.length_nil, Nat.zero_add] at hd hrest
    simp only [Tree.preorderEntries, List.append_assoc, List.cons_append, List.length_cons,
      decodePairs, hkey, hd, hashSet_of_new hnew, hrest, Ruby.ofEntries, List.length_append]

theorem nodup_keys {entries : List (String × Doc)} (h : SortedMap.Sorted entries) :
    (entries.map (fun e => utf8 e.1)).Nodup := by
  have hkeys := List.Nodup.map utf8_injective h.nodup
  rwa [List.map_map] at hkeys

/-- The first node of a value is its own. -/
theorem preorder_eq_cons (d : Doc) : ∃ rest, Tree.preorder d = Tree.leaf d :: rest := by
  cases d <;> exact ⟨_, rfl⟩

theorem getElem_preorder (before after : List Node) (d : Doc) :
    (before ++ Tree.preorder d ++ after)[before.length]? = some (Tree.leaf d) := by
  obtain ⟨rest, heq⟩ := preorder_eq_cons d
  rw [heq, List.append_assoc, List.cons_append, getElem_middle]

theorem rebuilds (d : Doc) : Rebuilds d := by
  induction d using Doc.induct with
  | null | string =>
    intro before after room records _ _ hroom
    cases room with
    | zero => simp at hroom
    | succ room =>
      rw [decodeRoom, getElem_preorder]
      simp [Tree.leaf, Tree.node, Tree.preorder, Except.toOption, Ruby.ofDoc]
  | bool b =>
    intro before after room records _ _ hroom
    cases room with
    | zero => simp at hroom
    | succ room =>
      rw [decodeRoom, getElem_preorder]
      cases b <;> simp [Tree.leaf, Tree.node, Tree.preorder, Except.toOption, Ruby.ofDoc]
  | number n =>
    intro before after room records hfits _ hroom
    cases room with
    | zero => simp at hroom
    | succ room =>
      rw [decodeRoom, getElem_preorder]
      cases n with
      | float bits => simp [Tree.leaf, Tree.node, Tree.preorder, Except.toOption, Ruby.ofDoc]
      | int i =>
        have hi : i.val < 2 ^ 63 := by simpa [fitsWord, Doc.every] using hfits
        simp only [Tree.leaf, Tree.node, if_pos hi, Tree.preorder, Except.toOption, Ruby.ofDoc,
          Option.getD_some, List.length_append, List.length_singleton]
  | array items ih =>
    intro before after room records hfits hcanon hroom
    cases room with
    | zero => simp at hroom
    | succ room =>
      have hnodes : before ++ [Tree.leaf (.array items)] ++ Tree.preorderItems items =
          before ++ Tree.preorder (.array items) := by simp [Tree.preorder]
      have hitems := decodeItems_ok ih (before ++ [Tree.leaf (.array items)]) after room records
        (fitsWord_array.mp hfits) (Doc.canonical_array.mp hcanon) (fun d hd => by
          have hle := Doc.heightItems_le.mp (Nat.le_refl _) d hd
          rw [Doc.height] at hroom
          omega)
      rw [hnodes, List.length_append, List.length_singleton] at hitems
      rw [decodeRoom, getElem_preorder]
      simp only [Tree.leaf, Tree.node, Except.toOption, Option.getD_some]
      rw [hitems, Ruby.ofDoc]
  | object entries ih =>
    intro before after room records hfits hcanon hroom
    cases room with
    | zero => simp at hroom
    | succ room =>
      have hnodes : before ++ [Tree.leaf (.object entries)] ++ Tree.preorderEntries entries =
          before ++ Tree.preorder (.object entries) := by simp [Tree.preorder]
      obtain ⟨hsorted, hmembers⟩ := Doc.canonical_object.mp hcanon
      have hentries := decodePairs_ok ih (before ++ [Tree.leaf (.object entries)]) after room
        records [] (fitsWord_object.mp hfits) hmembers (fun e he => by
          have hle := Doc.heightEntries_le.mp (Nat.le_refl _) e he
          rw [Doc.height] at hroom
          omega) (nodup_keys hsorted)
      rw [hnodes, List.length_append, List.length_singleton] at hentries
      rw [decodeRoom, getElem_preorder]
      simp only [Tree.leaf, Tree.node, Except.toOption, Option.getD_some]
      rw [hentries, List.nil_append, Ruby.ofDoc]

/-- The nodes of an admitted value, decoded from the first one on. -/
theorem decode_new {v : Value} {nodes : List Node} (h : Tree.new v.doc = .ok nodes)
    (records : Bool) : decode nodes 0 0 records = .ok (Ruby.ofDoc records v.doc, nodes.length) := by
  obtain ⟨hdepth, hfits⟩ := (Tree.new_iff v.doc).mp ⟨nodes, h⟩
  have hrebuilt := rebuilds v.doc [] [] 65 records hfits v.canonical (by omega)
  rw [List.nil_append, List.append_nil, ← Tree.new_eq h] at hrebuilt
  exact hrebuilt

/-- The flattening and the rebuilding agree on every value. A value is admitted
exactly when no node lies deeper than 64 and every integer is a signed word, and
the nodes of an admitted value decode without a trap, to its Ruby value, with the
cursor behind the last of them. -/
theorem decode_tree (v : Value) :
    ((∃ nodes, Tree.new v.doc = .ok nodes) ↔ v.doc.height ≤ 64 ∧ fitsWord v.doc = true) ∧
    ∀ nodes records, Tree.new v.doc = .ok nodes →
      decode nodes 0 0 records = .ok (Ruby.ofDoc records v.doc, nodes.length) := by
  exact ⟨Tree.new_iff v.doc, fun nodes records hnew => decode_new hnew records⟩

end RubyEngine.Guest
