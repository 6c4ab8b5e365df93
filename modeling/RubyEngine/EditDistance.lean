import Mathlib.Data.List.Basic

/-!
# Levenshtein distance

The distance is defined by recursion on the heads of two lists. One item more on
either side changes it by at most one, so that matching equal heads is never worse
than an edit, and it has the same recursion at the ends of the lists: the one that
a table of prefixes is filled by.
-/
namespace RubyEngine.EditDistance

variable {α : Type*} [DecidableEq α]

/-- The insertions, deletions and substitutions that lead from one list to the other. -/
def levenshtein : List α → List α → Nat
  | [], ys => ys.length
  | x :: xs, [] => (x :: xs).length
  | x :: xs, y :: ys =>
      if x = y then levenshtein xs ys
      else 1 + min (min (levenshtein xs (y :: ys)) (levenshtein (x :: xs) ys)) (levenshtein xs ys)

/-- What it costs to put one item in the place of another. -/
def mismatch (x y : α) : Nat := if x = y then 0 else 1

@[simp] theorem levenshtein_nil_left (ys : List α) : levenshtein [] ys = ys.length := by
  rw [levenshtein]

@[simp] theorem levenshtein_nil_right (xs : List α) : levenshtein xs [] = xs.length := by
  cases xs <;> rw [levenshtein]

theorem levenshtein_comm (xs ys : List α) : levenshtein xs ys = levenshtein ys xs := by
  induction xs generalizing ys with
  | nil => simp
  | cons x xs ih =>
    induction ys with
    | nil => simp
    | cons y ys ihy =>
      rw [levenshtein, levenshtein, ih ys, ih (y :: ys), ihy]
      by_cases h : x = y
      · rw [if_pos h, if_pos h.symm]
      · rw [if_neg h, if_neg (Ne.symm h), Nat.min_comm (levenshtein (y :: ys) xs)]

/-! ## One item more -/

/-- An item that is dropped on the right, or added on the left, is worth one edit. -/
theorem levenshtein_unit (xs : List α) :
    (∀ (y : α) (ys : List α), levenshtein xs ys ≤ levenshtein xs (y :: ys) + 1) ∧
      ∀ (x : α) (ys : List α), levenshtein (x :: xs) ys ≤ levenshtein xs ys + 1 := by
  -- adding on the left rests on dropping on the right, and that on the shorter list
  have hadd : ∀ xs : List α,
      (∀ (y : α) (ys : List α), levenshtein xs ys ≤ levenshtein xs (y :: ys) + 1) →
      ∀ (x : α) (ys : List α), levenshtein (x :: xs) ys ≤ levenshtein xs ys + 1 := by
    intro xs hdrop x ys
    cases ys with
    | nil => simp
    | cons y ys =>
      rw [levenshtein]
      split
      · exact hdrop y ys
      · omega
  induction xs with
  | nil =>
    have hdrop : ∀ (y : α) (ys : List α),
        levenshtein ([] : List α) ys ≤ levenshtein [] (y :: ys) + 1 := by
      intro y ys
      simp only [levenshtein_nil_left, List.length_cons]
      omega
    exact ⟨hdrop, hadd [] hdrop⟩
  | cons x xs ih =>
    obtain ⟨hdrop, hup⟩ := ih
    have hnext : ∀ (y : α) (ys : List α),
        levenshtein (x :: xs) ys ≤ levenshtein (x :: xs) (y :: ys) + 1 := by
      intro y ys
      have hone := hup x ys
      have htwo := hdrop y ys
      rw [levenshtein.eq_3]
      split <;> omega
    exact ⟨hnext, hadd (x :: xs) hnext⟩

theorem levenshtein_le_cons_right (xs : List α) (y : α) (ys : List α) :
    levenshtein xs ys ≤ levenshtein xs (y :: ys) + 1 := (levenshtein_unit xs).1 y ys

theorem levenshtein_le_cons_left (x : α) (xs ys : List α) :
    levenshtein xs ys ≤ levenshtein (x :: xs) ys + 1 := by
  rw [levenshtein_comm xs, levenshtein_comm (x :: xs)]
  exact levenshtein_le_cons_right ys x xs

/-! ## The recursion at either end -/

/-- The recursion without a case for equal heads. -/
theorem levenshtein_cons_cons (x : α) (xs : List α) (y : α) (ys : List α) :
    levenshtein (x :: xs) (y :: ys) =
      min (min (levenshtein xs (y :: ys) + 1) (levenshtein (x :: xs) ys + 1))
        (levenshtein xs ys + mismatch x y) := by
  have hright := levenshtein_le_cons_right xs y ys
  have hleft := levenshtein_le_cons_left x xs ys
  rw [levenshtein, mismatch]
  split <;> omega

/-- Two steps of the recursion, taken in either order. -/
theorem min_exchange (p₁ p₂ p₃ q₁ q₂ q₃ r₁ r₂ r₃ m n : Nat) :
    min (min (min (min (p₁ + 1) (p₂ + 1)) (p₃ + m) + 1)
        (min (min (q₁ + 1) (q₂ + 1)) (q₃ + m) + 1)) (min (min (r₁ + 1) (r₂ + 1)) (r₃ + m) + n) =
      min (min (min (min (p₁ + 1) (q₁ + 1)) (r₁ + n) + 1)
        (min (min (p₂ + 1) (q₂ + 1)) (r₂ + n) + 1)) (min (min (p₃ + 1) (q₃ + 1)) (r₃ + n) + m) := by
  simp only [← Nat.add_min_add_right, Nat.add_right_comm _ n m, Nat.add_right_comm _ n 1,
    Nat.add_right_comm _ m 1]
  ac_rfl

/-- The same recursion at the ends. -/
theorem levenshtein_append_singleton (xs : List α) (x : α) (ys : List α) (y : α) :
    levenshtein (xs ++ [x]) (ys ++ [y]) =
      min (min (levenshtein xs (ys ++ [y]) + 1) (levenshtein (xs ++ [x]) ys + 1))
        (levenshtein xs ys + mismatch x y) := by
  induction xs generalizing ys with
  | nil =>
    induction ys with
    | nil => simp [levenshtein_cons_cons]
    | cons b ys ih =>
      simp only [List.nil_append, List.cons_append, levenshtein_cons_cons, levenshtein_nil_left,
        List.length_cons, List.length_append, List.length_nil] at ih ⊢
      omega
  | cons a xs ih =>
    induction ys with
    | nil =>
      have hnil := ih []
      simp only [List.nil_append, List.cons_append, levenshtein_cons_cons, levenshtein_nil_right,
        List.length_cons, List.length_append, List.length_nil] at hnil ⊢
      omega
    | cons b ys ihy =>
      have hdelete := ih (b :: ys)
      have hreplace := ih ys
      rw [List.cons_append] at hdelete ihy
      rw [List.cons_append, List.cons_append, levenshtein_cons_cons, hdelete, ihy, hreplace,
        levenshtein_cons_cons a xs b ys, levenshtein_cons_cons a xs b (ys ++ [y]),
        levenshtein_cons_cons a (xs ++ [x]) b ys]
      apply min_exchange

/-! ## One line of the table -/

/-- The entries of one line: the distances to the first items of a list. -/
def line (xs ys : List α) (k : Nat) : Nat := levenshtein xs (ys.take k)

@[simp] theorem line_zero (xs ys : List α) : line xs ys 0 = xs.length := by simp [line]

theorem line_nil (ys : List α) {k : Nat} (h : k ≤ ys.length) : line [] ys k = k := by
  rw [line, levenshtein_nil_left, List.length_take]
  omega

@[simp] theorem line_length (xs ys : List α) : line xs ys ys.length = levenshtein xs ys := by
  rw [line, List.take_length]

/-- An entry from the one before it and the two above it. -/
theorem line_succ (xs : List α) (x : α) {ys : List α} {k : Nat} {y : α} (hy : ys[k]? = some y) :
    line (xs ++ [x]) ys (k + 1) =
      min (min (line (xs ++ [x]) ys k + 1) (line xs ys (k + 1) + 1))
        (line xs ys k + mismatch x y) := by
  have htake : ys.take (k + 1) = ys.take k ++ [y] := by
    rw [List.take_add_one, hy, Option.toList_some]
  rw [line, htake, levenshtein_append_singleton, ← htake, Nat.min_comm (_ + 1) (_ + 1)]
  rfl

end RubyEngine.EditDistance
