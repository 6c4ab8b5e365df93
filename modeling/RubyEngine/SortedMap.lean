import Mathlib.Algebra.Order.Ring.Int
import Mathlib.Data.String.Basic
import Mathlib.Data.List.Perm.Basic

/-!
# Association lists in key order

The content of an ordered map as a list of entries with strictly increasing
keys. Insertion keeps the order and replaces the value of a key that is there.
Nothing here depends on what the keys or the values are.
-/
namespace RubyEngine.SortedMap

variable {κ α β : Type*} [LinearOrder κ]

def Sorted (entries : List (κ × α)) : Prop := entries.Pairwise (fun a b => a.1 < b.1)

instance (entries : List (κ × α)) : Decidable (Sorted entries) :=
  inferInstanceAs (Decidable (entries.Pairwise (fun a b => a.1 < b.1)))

def insert (k : κ) (v : α) : List (κ × α) → List (κ × α)
  | [] => [(k, v)]
  | (k', v') :: rest =>
      if k < k' then (k, v) :: (k', v') :: rest
      else if k = k' then (k, v) :: rest
      else (k', v') :: insert k v rest

def lookup (k : κ) : List (κ × α) → Option α
  | [] => none
  | (k', v') :: rest => if k = k' then some v' else lookup k rest

/-- Insert every entry from left to right, so that the last value of a key wins. -/
def ofList (entries : List (κ × α)) : List (κ × α) :=
  entries.foldl (fun map e => insert e.1 e.2 map) []

theorem mem_insert {k : κ} {v : α} {entries : List (κ × α)} {e : κ × α}
    (h : e ∈ insert k v entries) : e = (k, v) ∨ e ∈ entries := by
  induction entries with
  | nil => simpa [insert] using h
  | cons hd rest ih =>
    obtain ⟨k', v'⟩ := hd
    simp only [insert] at h
    split at h
    · simpa using h
    · split at h
      · rcases List.mem_cons.mp h with rfl | hr
        · exact Or.inl rfl
        · exact Or.inr (List.mem_cons_of_mem _ hr)
      · rcases List.mem_cons.mp h with rfl | hr
        · exact Or.inr (by simp)
        · rcases ih hr with he | hm
          · exact Or.inl he
          · exact Or.inr (List.mem_cons_of_mem _ hm)

theorem sorted_insert (k : κ) (v : α) {entries : List (κ × α)} (h : Sorted entries) :
    Sorted (insert k v entries) := by
  induction entries with
  | nil => simp [insert, Sorted]
  | cons hd rest ih =>
    obtain ⟨k', v'⟩ := hd
    obtain ⟨hhd, hrest⟩ := List.pairwise_cons.mp h
    simp only [insert]
    split
    · next hlt =>
      refine List.pairwise_cons.mpr ⟨?_, h⟩
      intro e he
      rcases List.mem_cons.mp he with rfl | hr
      · exact hlt
      · exact hlt.trans (hhd e hr)
    · next hge =>
      split
      · next heq => subst heq; exact List.pairwise_cons.mpr ⟨hhd, hrest⟩
      · next hne =>
        refine List.pairwise_cons.mpr ⟨?_, ih hrest⟩
        intro e he
        rcases mem_insert he with rfl | hm
        · exact lt_of_le_of_ne (not_lt.mp hge) (Ne.symm hne)
        · exact hhd e hm

@[simp] theorem lookup_insert (k k' : κ) (v : α) (entries : List (κ × α)) :
    lookup k' (insert k v entries) = if k' = k then some v else lookup k' entries := by
  induction entries with
  | nil => simp [insert, lookup]
  | cons hd rest ih =>
    obtain ⟨j, w⟩ := hd
    simp only [insert]
    split
    · simp [lookup]
    · split
      · next heq => subst heq; by_cases hk : k' = k <;> simp [lookup, hk]
      · next hne =>
        by_cases hj : k' = j
        · subst hj; simp [lookup, Ne.symm hne]
        · simp [lookup, hj, ih]

theorem lookup_append (k : κ) (a b : List (κ × α)) :
    lookup k (a ++ b) = (lookup k a).or (lookup k b) := by
  induction a with
  | nil => simp [lookup]
  | cons e a ih =>
    simp only [List.cons_append, lookup]
    split
    · rfl
    · exact ih

private theorem lookup_foldl (k : κ) (entries map : List (κ × α)) :
    lookup k (entries.foldl (fun map e => insert e.1 e.2 map) map) =
      (lookup k entries.reverse).or (lookup k map) := by
  induction entries generalizing map with
  | nil => rfl
  | cons e rest ih =>
    rw [List.foldl_cons, ih, lookup_insert, List.reverse_cons, lookup_append]
    cases lookup k rest.reverse with
    | some v => rfl
    | none => by_cases hk : k = e.1 <;> simp [lookup, hk]

/-- The last value of a key is found. -/
theorem lookup_ofList (k : κ) (entries : List (κ × α)) :
    lookup k (ofList entries) = lookup k entries.reverse := by
  rw [ofList, lookup_foldl]
  simp [lookup]

theorem mem_of_lookup {k : κ} {v : α} {entries : List (κ × α)} (h : lookup k entries = some v) :
    (k, v) ∈ entries := by
  induction entries with
  | nil => cases h
  | cons e rest ih =>
    simp only [lookup] at h
    split at h
    · next heq =>
      cases h
      subst heq
      exact List.mem_cons_self
    · exact List.mem_cons_of_mem _ (ih h)

theorem lookup_eq_none {k : κ} {entries : List (κ × α)} (h : k ∉ entries.map Prod.fst) :
    lookup k entries = none := by
  induction entries with
  | nil => rfl
  | cons e rest ih =>
    rw [List.map_cons, List.mem_cons, not_or] at h
    rw [lookup, if_neg h.1]
    exact ih h.2

private theorem sum_ite {keys : List κ} (hkeys : keys.Nodup) {k : κ} (hk : k ∈ keys) (n : Nat)
    {f : κ → Nat} (hf : f k = 0) :
    (keys.map (fun j => if j = k then n else f j)).sum = n + (keys.map f).sum := by
  induction keys with
  | nil => cases hk
  | cons j rest ih =>
    obtain ⟨hj, hrest⟩ := List.nodup_cons.mp hkeys
    rw [List.map_cons, List.sum_cons, List.map_cons, List.sum_cons]
    rcases List.mem_cons.mp hk with rfl | hmem
    · have hsame : rest.map (fun i => if i = k then n else f i) = rest.map f :=
        List.map_congr_left (fun i hi => if_neg (fun heq : i = k => hj (heq ▸ hi)))
      rw [if_pos rfl, hsame, hf, Nat.zero_add]
    · rw [if_neg (fun heq : j = k => hj (heq ▸ hmem)), ih hrest hmem]
      omega

/-- A sum over the entries, taken key by key. -/
theorem sum_lookup {keys : List κ} (hkeys : keys.Nodup) {entries : List (κ × α)}
    (hentries : (entries.map Prod.fst).Nodup) (hsub : ∀ e ∈ entries, e.1 ∈ keys)
    (f : κ × α → Nat) :
    (keys.map (fun k => (lookup k entries).elim 0 (fun v => f (k, v)))).sum =
      (entries.map f).sum := by
  induction entries with
  | nil =>
    simp [lookup]
  | cons e rest ih =>
    obtain ⟨k, v⟩ := e
    obtain ⟨hk, hrest⟩ := List.nodup_cons.mp hentries
    have hone : ∀ j, (lookup j ((k, v) :: rest)).elim 0 (fun w => f (j, w)) =
        if j = k then f (k, v) else (lookup j rest).elim 0 (fun w => f (j, w)) := by
      intro j
      rw [lookup]
      split
      · next heq => rw [heq]; rfl
      · rfl
    have hmem : k ∈ keys := hsub (k, v) (by simp)
    have hzero : (lookup k rest).elim 0 (fun w => f (k, w)) = 0 := by
      rw [lookup_eq_none hk]
      rfl
    have hrec := ih hrest (fun e he => hsub e (List.mem_cons_of_mem _ he))
    simp only [hone, List.map_cons, List.sum_cons]
    rw [sum_ite hkeys hmem (f (k, v)) hzero, hrec]

theorem insert_of_lt {k : κ} {v : α} {entries : List (κ × α)} (h : ∀ e ∈ entries, e.1 < k) :
    insert k v entries = entries ++ [(k, v)] := by
  induction entries with
  | nil => rfl
  | cons hd rest ih =>
    obtain ⟨k', v'⟩ := hd
    have hlt : k' < k := h (k', v') (by simp)
    rw [insert, if_neg hlt.asymm, if_neg hlt.ne', ih (fun e he => h e (List.mem_cons_of_mem _ he)),
      List.cons_append]

private theorem sorted_foldl (entries acc : List (κ × α)) (h : Sorted acc) :
    Sorted (entries.foldl (fun map e => insert e.1 e.2 map) acc) := by
  induction entries generalizing acc with
  | nil => exact h
  | cons e rest ih => exact ih _ (sorted_insert e.1 e.2 h)

theorem sorted_ofList (entries : List (κ × α)) : Sorted (ofList entries) :=
  sorted_foldl entries [] List.Pairwise.nil

private theorem foldl_of_sorted (entries acc : List (κ × α)) (h : Sorted (acc ++ entries)) :
    entries.foldl (fun map e => insert e.1 e.2 map) acc = acc ++ entries := by
  induction entries generalizing acc with
  | nil => simp
  | cons e rest ih =>
    have hlt : ∀ a ∈ acc, a.1 < e.1 := fun a ha =>
      (List.pairwise_append.mp h).2.2 a ha e (by simp)
    rw [List.foldl_cons, insert_of_lt hlt, ih _ (by simpa using h)]
    simp

/-- A list that is in order already is the map it lists. -/
theorem ofList_of_sorted {entries : List (κ × α)} (h : Sorted entries) :
    ofList entries = entries :=
  foldl_of_sorted entries [] h

private theorem mem_foldl {entries acc : List (κ × α)} {e : κ × α}
    (h : e ∈ entries.foldl (fun map e => insert e.1 e.2 map) acc) : e ∈ entries ∨ e ∈ acc := by
  induction entries generalizing acc with
  | nil => exact Or.inr h
  | cons a rest ih =>
    rcases ih h with hr | hi
    · exact Or.inl (List.mem_cons_of_mem _ hr)
    · rcases mem_insert hi with rfl | hacc
      · exact Or.inl (by simp)
      · exact Or.inr hacc

theorem mem_ofList {entries : List (κ × α)} {e : κ × α} (h : e ∈ ofList entries) : e ∈ entries := by
  rcases mem_foldl h with hm | hn
  · exact hm
  · cases hn

theorem sum_insert_le (f : κ × α → Nat) (k : κ) (v : α) (entries : List (κ × α)) :
    ((insert k v entries).map f).sum ≤ (entries.map f).sum + f (k, v) := by
  induction entries with
  | nil => simp [insert]
  | cons hd rest ih =>
    obtain ⟨k', v'⟩ := hd
    simp only [insert]
    split
    · simp only [List.map_cons, List.sum_cons]
      omega
    · split
      · simp only [List.map_cons, List.sum_cons]
        omega
      · simp only [List.map_cons, List.sum_cons]
        omega

private theorem sum_foldl_le (f : κ × α → Nat) (entries acc : List (κ × α)) :
    ((entries.foldl (fun map e => insert e.1 e.2 map) acc).map f).sum ≤
      (acc.map f).sum + (entries.map f).sum := by
  induction entries generalizing acc with
  | nil => simp
  | cons e rest ih =>
    have hnext := ih (insert e.1 e.2 acc)
    have hone : ((insert e.1 e.2 acc).map f).sum ≤ (acc.map f).sum + f e :=
      sum_insert_le f e.1 e.2 acc
    simp only [List.foldl_cons, List.map_cons, List.sum_cons]
    omega

/-- The map holds no more than what has been inserted. -/
theorem sum_ofList_le (f : κ × α → Nat) (entries : List (κ × α)) :
    ((ofList entries).map f).sum ≤ (entries.map f).sum := by
  have h := sum_foldl_le f entries []
  simpa [ofList] using h

/-- Inserting a new key adds one entry and keeps the others. -/
theorem insert_perm {k : κ} {v : α} {entries : List (κ × α)} (h : ∀ e ∈ entries, e.1 ≠ k) :
    (insert k v entries).Perm ((k, v) :: entries) := by
  induction entries with
  | nil => exact List.Perm.refl _
  | cons hd rest ih =>
    obtain ⟨k', v'⟩ := hd
    have hne : k ≠ k' := Ne.symm (h (k', v') (by simp))
    simp only [insert]
    split
    · exact List.Perm.refl _
    · exact ((ih (fun e he => h e (List.mem_cons_of_mem _ he))).cons _).trans (List.Perm.swap ..)

private theorem foldl_perm (entries acc : List (κ × α))
    (h : ((acc ++ entries).map Prod.fst).Nodup) :
    (entries.foldl (fun map e => insert e.1 e.2 map) acc).Perm (acc ++ entries) := by
  induction entries generalizing acc with
  | nil => simp
  | cons e rest ih =>
    have hmid : ((acc ++ e :: rest).map Prod.fst).Perm
        (((e :: acc) ++ rest).map Prod.fst) := (List.perm_middle).map _
    have hcons := hmid.nodup_iff.mp h
    have hne : ∀ a ∈ acc, a.1 ≠ e.1 := by
      intro a ha heq
      have hnot := (List.nodup_cons.mp hcons).1
      exact hnot (List.mem_map.mpr ⟨a, List.mem_append_left _ ha, heq⟩)
    have hins := insert_perm (v := e.2) hne
    have hnext : ((insert e.1 e.2 acc ++ rest).map Prod.fst).Nodup :=
      ((hins.append_right rest).map Prod.fst).nodup_iff.mpr hcons
    exact ((ih _ hnext).trans (hins.append_right rest)).trans List.perm_middle.symm

/-- With distinct keys the map holds the listed entries, in its own order. -/
theorem ofList_perm {entries : List (κ × α)} (h : (entries.map Prod.fst).Nodup) :
    (ofList entries).Perm entries :=
  foldl_perm entries [] h

theorem Sorted.nodup {entries : List (κ × α)} (h : Sorted entries) :
    (entries.map Prod.fst).Nodup :=
  List.pairwise_map.mpr (List.Pairwise.imp (fun hlt => hlt.ne) h)

theorem insert_map (f : α → β) (k : κ) (v : α) (entries : List (κ × α)) :
    insert k (f v) (entries.map (fun e => (e.1, f e.2))) =
      (insert k v entries).map (fun e => (e.1, f e.2)) := by
  induction entries with
  | nil => rfl
  | cons hd rest ih =>
    obtain ⟨k', v'⟩ := hd
    simp only [List.map_cons, insert]
    split
    · rfl
    · split
      · rfl
      · rw [ih, List.map_cons]

/-- A map of the values goes past the insertion of the entries. -/
theorem ofList_map (f : α → β) (entries : List (κ × α)) :
    ofList (entries.map (fun e => (e.1, f e.2))) =
      (ofList entries).map (fun e => (e.1, f e.2)) := by
  have hfold : ∀ acc : List (κ × α),
      (entries.map (fun e => (e.1, f e.2))).foldl (fun map e => insert e.1 e.2 map)
          (acc.map (fun e => (e.1, f e.2))) =
        (entries.foldl (fun map e => insert e.1 e.2 map) acc).map (fun e => (e.1, f e.2)) := by
    induction entries with
    | nil => intro _; rfl
    | cons e rest ih =>
      intro acc
      have hinsert := insert_map f e.1 e.2 acc
      rw [List.map_cons, List.foldl_cons, List.foldl_cons, ← ih, ← hinsert]
  exact hfold []

end RubyEngine.SortedMap
