import Mathlib.Data.String.Basic
import RubyEngine.EditDistance
import RubyEngine.Guest.HostCall
import RubyEngine.Serde.Reference

/-!
# Suggestions for an unknown capability

The distance to a catalog entry is computed in one row, which each byte of the path
overwrites from the left while its old entries are still being read. The row is
followed entry by entry; what it ends with is the textbook distance, and the paths
that are offered are the nearest.
-/
namespace RubyEngine.Guest

open EditDistance (levenshtein line mismatch)
open Json (Value)

/-! ## The row, overwritten in place -/

/-- The body of the inner loop: the row and the diagonal after it. `none` is an index out
of range. -/
def relax (left right : UInt8) (j : Nat) (row : List Nat) (diagonal : Nat) :
    Option (List Nat × Nat) := do
  let old ← row[j + 1]?
  let before ← row[j]?
  let entry := min (min (before + 1) (old + 1)) (diagonal + if left = right then 0 else 1)
  pure (row.set (j + 1) entry, old)

/-- The inner loop, from the column `j`. -/
def sweep (left : UInt8) : Nat → Bytes → List Nat → Nat → Option (List Nat × Nat)
  | _, [], row, diagonal => some (row, diagonal)
  | j, right :: b, row, diagonal => do
      let (row, diagonal) ← relax left right j row diagonal
      sweep left (j + 1) b row diagonal

/-- The outer loop, from the line `i`. -/
def sweeps (b : Bytes) : Nat → Bytes → List Nat → Option (List Nat)
  | _, [], row => some row
  | i, left :: a, row => do
      let diagonal ← row[0]?
      let (row, _) ← sweep left 0 b (row.set 0 (i + 1)) diagonal
      sweeps b (i + 1) a row

/-- `edit_distance`, with its one row. -/
def editDistanceInPlace (a b : Bytes) : Option Nat := do
  let row ← sweeps b 0 a (List.range (b.length + 1))
  row[b.length]?

/-- A row of which the entries up to `j` are those of one line and the others still those of
the line before it. -/
structure Between (above below : Nat → Nat) (n j : Nat) (row : List Nat) : Prop where
  length : row.length = n + 1
  fresh : ∀ k ≤ j, row[k]? = some (below k)
  stale : ∀ k, j < k → k ≤ n → row[k]? = some (above k)

/-- The next entry is written where the last stale one was read. -/
theorem relax_between {above below : Nat → Nat} {n j : Nat} {row : List Nat} {left right : UInt8}
    (hrow : Between above below n j row) (hj : j < n)
    (hnext : below (j + 1) =
      min (min (below j + 1) (above (j + 1) + 1)) (above j + mismatch left right)) :
    ∃ next, relax left right j row (above j) = some (next, above (j + 1)) ∧
      Between above below n (j + 1) next := by
  have hold := hrow.stale (j + 1) (Nat.lt_succ_self j) hj
  have hbefore := hrow.fresh j (Nat.le_refl j)
  refine ⟨row.set (j + 1) (below (j + 1)), ?_, ?_, ?_, ?_⟩
  · rw [relax, hold, hbefore, hnext]
    rfl
  · rw [List.length_set]
    exact hrow.length
  · intro k hk
    by_cases heq : k = j + 1
    · subst heq
      rw [List.getElem?_set_self (by have := hrow.length; omega)]
    · rw [List.getElem?_set_ne (Ne.symm heq)]
      exact hrow.fresh k (by omega)
  · intro k hk hn
    rw [List.getElem?_set_ne (by omega)]
    exact hrow.stale k (by omega) hn

/-- The inner loop turns one line into the next. -/
theorem sweep_between {above below : Nat → Nat} {n : Nat} {left : UInt8} (b : Bytes) {j : Nat}
    {row : List Nat} (hrow : Between above below n j row) (hlength : j + b.length = n)
    (hnext : ∀ k right, b[k]? = some right → below (j + k + 1) =
      min (min (below (j + k) + 1) (above (j + k + 1) + 1))
        (above (j + k) + mismatch left right)) :
    ∃ next, sweep left j b row (above j) = some (next, above n) ∧
      Between above below n n next := by
  induction b generalizing j row with
  | nil =>
    obtain rfl : j = n := hlength
    exact ⟨row, rfl, hrow⟩
  | cons right b ih =>
    rw [List.length_cons] at hlength
    obtain ⟨middle, hstep, hmiddle⟩ := relax_between hrow (by omega) (hnext 0 right rfl)
    have hrest : ∀ k byte, b[k]? = some byte → below (j + 1 + k + 1) =
        min (min (below (j + 1 + k) + 1) (above (j + 1 + k + 1) + 1))
          (above (j + 1 + k) + mismatch left byte) := by
      intro k byte hk
      have hshift := hnext (k + 1) byte hk
      rwa [← Nat.add_assoc, Nat.add_right_comm j k 1] at hshift
    obtain ⟨next, hsweep, hdone⟩ := ih hmiddle (by omega) hrest
    refine ⟨next, ?_, hdone⟩
    rw [sweep, hstep]
    exact hsweep

/-- After every line the row holds the distances from what has been read of the path. -/
theorem sweeps_line (b a read : Bytes) {row : List Nat}
    (hrow : Between (line read b) (line read b) b.length b.length row) :
    ∃ last, sweeps b read.length a row = some last ∧
      Between (line (read ++ a) b) (line (read ++ a) b) b.length b.length last := by
  induction a generalizing read row with
  | nil => exact ⟨row, rfl, by rwa [List.append_nil]⟩
  | cons left a ih =>
    have hstart : Between (line read b) (line (read ++ [left]) b) b.length 0
        (row.set 0 (read.length + 1)) := by
      refine ⟨by rw [List.length_set]; exact hrow.length, ?_, ?_⟩
      · intro k hk
        obtain rfl := Nat.le_zero.mp hk
        rw [List.getElem?_set_self (by have := hrow.length; omega), EditDistance.line_zero,
          List.length_append, List.length_singleton]
      · intro k hk hn
        rw [List.getElem?_set_ne (by omega)]
        exact hrow.fresh k hn
    obtain ⟨next, hsweep, hnext⟩ := sweep_between b hstart (Nat.zero_add _) fun k right hk => by
      rw [Nat.zero_add]
      exact EditDistance.line_succ read left hk
    have hline : Between (line (read ++ [left]) b) (line (read ++ [left]) b) b.length b.length
        next := ⟨hnext.length, hnext.fresh, fun k hk hn => absurd hk (Nat.not_lt.mpr hn)⟩
    obtain ⟨last, hlast, hend⟩ := ih (read ++ [left]) hline
    refine ⟨last, ?_, by rwa [List.append_assoc] at hend⟩
    rw [sweeps, hrow.fresh 0 (Nat.zero_le _)]
    rw [List.length_append] at hlast
    simp only [Option.bind_eq_bind, Option.bind_some, hsweep]
    exact hlast

/-- No index is out of range, and the last entry is the distance. -/
theorem editDistanceInPlace_eq (a b : Bytes) :
    editDistanceInPlace a b = some (levenshtein a b) := by
  have hstart : Between (line [] b) (line [] b) b.length b.length (List.range (b.length + 1)) := by
    refine ⟨List.length_range, ?_, fun k hk hn => absurd hk (Nat.not_lt.mpr hn)⟩
    intro k hk
    rw [EditDistance.line_nil b hk, List.getElem?_range (by omega)]
  obtain ⟨last, hlast, hend⟩ := sweeps_line b a [] hstart
  rw [List.length_nil] at hlast
  rw [editDistanceInPlace, hlast, ← EditDistance.line_length a b]
  exact hend.fresh b.length (Nat.le_refl _)

/-! ## The row as a list -/

/-- The entries of a line behind a column. -/
def behind (entries : Nat → Nat) (j n : Nat) : List Nat := (List.range' (j + 1) n).map entries

theorem behind_succ (entries : Nat → Nat) (j n : Nat) :
    behind entries j (n + 1) = entries (j + 1) :: behind entries (j + 1) n := by
  rw [behind, List.range'_succ, List.map_cons]
  rfl

theorem nextRow_behind {above below : Nat → Nat} (left : UInt8) (b : Bytes) (j : Nat)
    (hnext : ∀ k right, b[k]? = some right → below (j + k + 1) =
      min (min (below (j + k) + 1) (above (j + k + 1) + 1))
        (above (j + k) + mismatch left right)) :
    nextRow left (below j) (above j) (behind above j b.length) b = behind below j b.length := by
  induction b generalizing j with
  | nil => rfl
  | cons right b ih =>
    have hrest : ∀ k byte, b[k]? = some byte → below (j + 1 + k + 1) =
        min (min (below (j + 1 + k) + 1) (above (j + 1 + k + 1) + 1))
          (above (j + 1 + k) + mismatch left byte) := by
      intro k byte hk
      have hshift := hnext (k + 1) byte hk
      rwa [← Nat.add_assoc, Nat.add_right_comm j k 1] at hshift
    have hentry : min (min (below j + 1) (above (j + 1) + 1))
        (above j + if left = right then 0 else 1) = below (j + 1) := (hnext 0 right rfl).symm
    rw [List.length_cons, behind_succ, behind_succ, nextRow]
    simp only [hentry]
    rw [ih (j + 1) hrest]

theorem editRows_line (b a read : Bytes) :
    editRows b read.length (line read b 0 :: behind (line read b) 0 b.length) a =
      line (read ++ a) b 0 :: behind (line (read ++ a) b) 0 b.length := by
  induction a generalizing read with
  | nil => rw [editRows, List.append_nil]
  | cons left a ih =>
    have hrow := nextRow_behind left b 0 fun k right hk => by
      rw [Nat.zero_add]
      exact EditDistance.line_succ read left hk
    have hfirst : read.length + 1 = line (read ++ [left]) b 0 := by
      rw [EditDistance.line_zero, List.length_append, List.length_singleton]
    have hread := ih (read ++ [left])
    rw [List.append_assoc, List.length_append, List.length_singleton] at hread
    rw [editRows, List.headD_cons, List.tail_cons, hfirst, hrow, ← hfirst]
    rw [← hfirst] at hread
    exact hread

theorem editDistance_eq (a b : Bytes) : editDistance a b = levenshtein a b := by
  have hfirst : List.range (b.length + 1) = line [] b 0 :: behind (line [] b) 0 b.length := by
    have hentries : behind (line [] b) 0 b.length = List.range' 1 b.length := by
      rw [behind, List.map_congr_left (g := id), List.map_id]
      intro k hk
      rw [List.mem_range'_1] at hk
      exact EditDistance.line_nil b (by omega)
    rw [hentries, List.range_eq_range', List.range'_succ, EditDistance.line_zero]
    rfl
  rw [editDistance, hfirst]
  rw [show editRows b 0 _ a = _ from editRows_line b a [], List.nil_append,
    ← EditDistance.line_length a b]
  cases hb : b.length with
  | zero => rfl
  | succ n =>
    rw [behind, List.range'_concat, List.map_append, List.map_singleton, ← List.cons_append,
      List.getLastD_concat]
    congr 1
    omega

/-! ## The order of the offers -/

/-- By the distance to the path, and then by name. -/
def Nearer (path a b : String) : Prop :=
  levenshtein (utf8 path) (utf8 a) < levenshtein (utf8 path) (utf8 b) ∨
    levenshtein (utf8 path) (utf8 a) = levenshtein (utf8 path) (utf8 b) ∧ a ≤ b

theorem closer_iff (a b : Nat × String) : closer a b = true ↔ a.1 < b.1 ∨ a.1 = b.1 ∧ a.2 ≤ b.2 := by
  simp only [closer, Bool.or_eq_true, Bool.and_eq_true, decide_eq_true_eq]

theorem closer_trans (a b c : Nat × String) (hab : closer a b = true) (hbc : closer b c = true) :
    closer a c = true := by
  rw [closer_iff] at hab hbc ⊢
  rcases hab with hab | ⟨hab, hname⟩
  · rcases hbc with hbc | ⟨hbc, -⟩
    · exact .inl (hab.trans hbc)
    · exact .inl (hbc ▸ hab)
  · rcases hbc with hbc | ⟨hbc, hnext⟩
    · exact .inl (hab ▸ hbc)
    · exact .inr ⟨hab.trans hbc, le_trans hname hnext⟩

theorem closer_total (a b : Nat × String) : (closer a b || closer b a) = true := by
  rw [Bool.or_eq_true, closer_iff, closer_iff]
  rcases Nat.lt_trichotomy a.1 b.1 with h | h | h
  · exact .inl (.inl h)
  · rcases le_total a.2 b.2 with hname | hname
    · exact .inl (.inr ⟨h, hname⟩)
    · exact .inr (.inr ⟨h.symm, hname⟩)
  · exact .inr (.inl h)

/-- A candidate with its distance, as it is ranked. -/
def weighed (path candidate : String) : Nat × String :=
  (editDistance (utf8 path) (utf8 candidate), candidate)

theorem closer_weighed (path a b : String) :
    closer (weighed path a) (weighed path b) = true ↔ Nearer path a b := by
  rw [closer_iff, weighed, weighed, editDistance_eq, editDistance_eq]
  rfl

/-- The candidates from the nearest to the farthest. -/
def ranking (path : String) (candidates : List String) : List String :=
  ((candidates.map (weighed path)).mergeSort closer).map Prod.snd

theorem ranking_perm (path : String) (candidates : List String) :
    (ranking path candidates).Perm candidates := by
  have hnames : (candidates.map (weighed path)).map Prod.snd = candidates := by
    rw [List.map_map]
    exact List.map_id candidates
  have hsort := (List.mergeSort_perm (candidates.map (weighed path)) closer).map Prod.snd
  rwa [hnames] at hsort

theorem ranking_nearest (path : String) (candidates : List String) :
    (ranking path candidates).Pairwise (Nearer path) := by
  have hsorted := List.pairwise_mergeSort closer_trans closer_total (candidates.map (weighed path))
  rw [ranking, List.pairwise_map]
  refine hsorted.imp_of_mem ?_
  intro a b ha hb hcloser
  obtain ⟨a, -, rfl⟩ := List.mem_map.mp (List.mem_mergeSort.mp ha)
  obtain ⟨b, -, rfl⟩ := List.mem_map.mp (List.mem_mergeSort.mp hb)
  exact (closer_weighed path a b).mp hcloser

/-- The catalog entries that start with the namespace of a path. -/
def Host.entries (host : Host) (path : String) : List String :=
  host.catalog.filter (fun candidate => (namespaceOf path).toList.isPrefixOf candidate.toList)

theorem Host.suggestions_eq (host : Host) (path : String) : host.suggestions path =
    String.intercalate ", " (((ranking path ((host.entries path).take 4096)).take 3).map
      ("app." ++ ·)) := by
  rw [ranking, ← List.map_take, List.map_map]
  rfl

/-- A turn of this kind answers at once, or fails on its arguments. -/
theorem Host.turn_unknown (serde : SerdeJson) (host : Host) (path : String) (bytes : Bytes) :
    (host.turn serde .unknown (utf8 path) bytes).2 =
      match serde.fromSlice bytes with
      | .ok _ => .answer (unknownFunction host path)
      | .error _ => .failed := by
  rw [Host.turn, decodeUtf8_eq_some.mpr rfl]
  cases serde.fromSlice bytes with
  | ok value => rfl
  | error e => rfl

/-- What the reply says to a path that the catalog does not have. -/
def unknownMessage (path : String) (offered : List String) : String :=
  "Unknown capability app." ++ path ++
    ". No external call was made. Discover with code_read_doc. Closest paths: " ++
      String.intercalate ", " (offered.map ("app." ++ ·))

/-- The first entries of the ranking against the ones behind them. -/
theorem ranking_take (path : String) (candidates : List String) (n : Nat) :
    ((ranking path candidates).take n ++ (ranking path candidates).drop n).Perm candidates ∧
      ((ranking path candidates).take n).length = min n candidates.length ∧
      ((ranking path candidates).take n).Pairwise (Nearer path) ∧
      ∀ offer ∈ (ranking path candidates).take n, ∀ other ∈ (ranking path candidates).drop n,
        Nearer path offer other := by
  have hperm := ranking_perm path candidates
  have hsorted := ranking_nearest path candidates
  rw [← List.take_append_drop n (ranking path candidates), List.pairwise_append] at hsorted
  obtain ⟨hoffered, -, hbefore⟩ := hsorted
  refine ⟨?_, ?_, hoffered, hbefore⟩
  · rwa [List.take_append_drop]
  · rw [List.length_take, hperm.length_eq]

/-- The one row computes the textbook distance, and the paths in the reply are the nearest
entries of the catalog under the path's namespace. -/
theorem suggestions_nearest :
    (∀ a b : Bytes, editDistanceInPlace a b = some (levenshtein a b) ∧
      editDistance a b = levenshtein a b) ∧
    ∀ (serde : SerdeJson) (host : Host) (path : String) (bytes : Bytes) (response : Value),
      (host.turn serde .unknown (utf8 path) bytes).2 = .answer response →
      (host.entries path).length ≤ 4096 →
      ∃ offered rest : List String,
        response.index "message" = .string (unknownMessage path offered) ∧
        (offered ++ rest).Perm (host.entries path) ∧
        offered.length = min 3 (host.entries path).length ∧
        (∀ offer ∈ offered, offer ∈ host.catalog) ∧
        offered.Pairwise (Nearer path) ∧
        ∀ offer ∈ offered, ∀ other ∈ rest, Nearer path offer other := by
  refine ⟨fun a b => ⟨editDistanceInPlace_eq a b, editDistance_eq a b⟩, ?_⟩
  intro serde host path bytes response hturn hcount
  have hresponse : response = unknownFunction host path := by
    rw [Host.turn_unknown] at hturn
    cases hvalue : serde.fromSlice bytes with
    | ok value =>
      rw [hvalue] at hturn
      exact (Turn.answer.inj hturn).symm
    | error e =>
      rw [hvalue] at hturn
      cases hturn
  obtain ⟨hperm, hlength, hoffered, hbefore⟩ := ranking_take path (host.entries path) 3
  refine ⟨_, _, ?_, hperm, hlength, ?_, hoffered, hbefore⟩
  · rw [hresponse, unknownFunction, Host.suggestions_eq, List.take_of_length_le hcount,
      Value.index_object]
    rfl
  · intro offer hoffer
    have hentry := hperm.subset (List.mem_append_left _ hoffer)
    exact (List.mem_filter.mp hentry).1

/-- A guest with a small catalog. -/
def Host.sample : Host where
  execution := "0"
  callLimit := 1
  logLimit := 0
  catalog := ["mail.send", "mail.find", "clock.now", "mail.list", "mail.sent"]

theorem suggestions_nearest_sample : ∃ offered rest : List String,
    (unknownFunction Host.sample "mail.sed").index "message" =
      .string (unknownMessage "mail.sed" offered) ∧
    (offered ++ rest).Perm (Host.sample.entries "mail.sed") ∧
    offered.length = min 3 (Host.sample.entries "mail.sed").length ∧
    (∀ offer ∈ offered, offer ∈ Host.sample.catalog) ∧
    offered.Pairwise (Nearer "mail.sed") ∧
    ∀ offer ∈ offered, ∀ other ∈ rest, Nearer "mail.sed" offer other :=
  suggestions_nearest.2 SerdeJson.reference Host.sample "mail.sed" (utf8 "0") _
    (by rw [Host.turn_unknown]; rfl) (by decide)

end RubyEngine.Guest
