import Mathlib.Order.RelClasses
import RubyEngine.Transition

/-!
# Runs that end

A run against answers that are fixed in advance is a sequence of positions. What an
environment is trusted to do sooner or later is a property of the answers that
recurs. A run ends if a rank never rises and, wherever the run stands, something
that recurs makes it fall.
-/
namespace RubyEngine.Transition.Machine

variable {σ α ε ρ : Type*} {m : Machine σ α ε ρ} {s : σ} {history : List ε} {answers : Nat → α}

/-- The run from a state and its history. -/
def trace (m : Machine σ α ε ρ) (s : σ) (history : List ε) (answers : Nat → α) :
    Nat → Position σ ε ρ
  | 0 => .running s history
  | n + 1 => m.advance (m.trace s history answers n) (answers n)

/-- From every moment on, the run has ended or meets the condition once more. -/
def Recurs (m : Machine σ α ε ρ) (s : σ) (history : List ε) (answers : Nat → α)
    (p : σ → α → Prop) : Prop :=
  ∀ n, ∃ k, n ≤ k ∧ ((∃ result last, m.trace s history answers k = .ended result last) ∨
    ∃ t past, m.trace s history answers k = .running t past ∧ p t (answers k))

theorem trace_next {n : Nat} {t u : σ} {past effects : List ε}
    (h : m.trace s history answers n = .running t past)
    (hstep : m.step t (answers n) = some (.next u effects)) :
    m.trace s history answers (n + 1) = .running u (past ++ effects) := by
  rw [trace, h, advance, hstep]

theorem trace_exit {n : Nat} {t : σ} {past effects : List ε} {result : ρ}
    (h : m.trace s history answers n = .running t past)
    (hstep : m.step t (answers n) = some (.exit result effects)) :
    m.trace s history answers (n + 1) = .ended result (past ++ effects) := by
  rw [trace, h, advance, hstep]

/-- What came before a position of the run. -/
theorem trace_running {n : Nat} {u : σ} {last : List ε}
    (h : m.trace s history answers (n + 1) = .running u last) :
    ∃ t past, m.trace s history answers n = .running t past ∧
      ((m.step t (answers n) = none ∧ u = t ∧ last = past) ∨
        ∃ effects, m.step t (answers n) = some (.next u effects) ∧ last = past ++ effects) := by
  rw [trace] at h
  cases hp : m.trace s history answers n with
  | ended result past =>
    rw [hp] at h
    cases h
  | running t past =>
    rw [hp, advance] at h
    refine ⟨t, past, rfl, ?_⟩
    split at h
    · next hnone =>
      cases h
      exact Or.inl ⟨hnone, rfl, rfl⟩
    · next v effects hnext =>
      cases h
      exact Or.inr ⟨effects, hnext, rfl⟩
    · cases h

/-- A run that has ended has ended with a step. -/
theorem trace_ended {n : Nat} {result : ρ} {last : List ε}
    (h : m.trace s history answers n = .ended result last) :
    ∃ k < n, ∃ t past effects, m.trace s history answers k = .running t past ∧
      m.step t (answers k) = some (.exit result effects) ∧ last = past ++ effects := by
  induction n with
  | zero => cases h
  | succ n ih =>
    rw [trace] at h
    cases hp : m.trace s history answers n with
    | ended result' past =>
      rw [hp] at h
      cases h
      obtain ⟨k, hk, hrest⟩ := ih hp
      exact ⟨k, Nat.lt_succ_of_lt hk, hrest⟩
    | running t past =>
      rw [hp, advance] at h
      split at h
      · cases h
      · cases h
      · next result' effects hexit =>
        cases h
        exact ⟨n, Nat.lt_succ_self n, t, past, effects, hp, hexit, rfl⟩

theorem trace_stays {n k : Nat} {result : ρ} {last : List ε}
    (h : m.trace s history answers n = .ended result last) (hk : n ≤ k) :
    m.trace s history answers k = .ended result last := by
  induction hk with
  | refl => exact h
  | step _ ih => rw [trace, ih, advance]

/-- A run ends in one way. -/
theorem trace_ended_unique {n k : Nat} {result other : ρ} {last last' : List ε}
    (h : m.trace s history answers n = .ended result last)
    (h' : m.trace s history answers k = .ended other last') : result = other ∧ last = last' := by
  have hn := trace_stays h (Nat.le_max_left n k)
  have hk := trace_stays h' (Nat.le_max_right n k)
  rw [hn] at hk
  cases hk
  exact ⟨rfl, rfl⟩

/-- What has ended by a given time recurs. -/
theorem recurs_of_ended {n : Nat} {result : ρ} {last : List ε}
    (h : m.trace s history answers n = .ended result last) (p : σ → α → Prop) :
    m.Recurs s history answers p := by
  intro k
  exact ⟨max n k, Nat.le_max_right n k,
    Or.inl ⟨result, last, trace_stays h (Nat.le_max_left n k)⟩⟩

/-- Play answers until the run ends, as long as every step passes a check. -/
def rehearse (m : Machine σ α ε ρ) (check : Nat → σ → List ε → α → Bool) :
    Nat → σ → List ε → List α → Option (ρ × List ε)
  | _, _, _, [] => none
  | n, s, history, answer :: rest =>
      if check n s history answer then
        match m.step s answer with
        | none => none
        | some (.next t effects) => m.rehearse check (n + 1) t (history ++ effects) rest
        | some (.exit result effects) => some (result, history ++ effects)
      else none

/-- A run that begins as rehearsed ends like that, and each of its steps passes. -/
theorem trace_rehearse {check : Nat → σ → List ε → α → Bool} {script : List α} {n : Nat} {t : σ}
    {past last : List ε} {result : ρ}
    (hscript : ∀ i (hi : i < script.length), answers (n + i) = script[i])
    (ht : m.trace s history answers n = .running t past)
    (h : m.rehearse check n t past script = some (result, last)) :
    (∃ k, m.trace s history answers k = .ended result last) ∧
      ∀ k u before, n ≤ k → m.trace s history answers k = .running u before →
        check k u before (answers k) = true := by
  induction script generalizing n t past with
  | nil => cases h
  | cons answer rest ih =>
    have hanswer : answers n = answer := hscript 0 (Nat.zero_lt_succ _)
    rw [rehearse] at h
    split at h
    · next hcheck =>
      have hnow : ∀ u before, m.trace s history answers n = .running u before →
          check n u before (answers n) = true := by
        intro u before hu
        rw [ht] at hu
        cases hu
        rwa [hanswer]
      split at h
      · cases h
      · next v effects hstep =>
        have hrest : ∀ i (hi : i < rest.length), answers (n + 1 + i) = rest[i] := by
          intro i hi
          rw [Nat.add_assoc, Nat.add_comm 1 i]
          exact hscript (i + 1) (Nat.succ_lt_succ hi)
        have hlater := ih hrest (trace_next ht (hanswer ▸ hstep)) h
        refine ⟨hlater.1, ?_⟩
        intro k u before hk hu
        rcases Nat.lt_or_eq_of_le hk with hlt | rfl
        · exact hlater.2 k u before hlt hu
        · exact hnow u before hu
      · next result' effects hstep =>
        cases h
        have hend := trace_exit ht (hanswer ▸ hstep)
        refine ⟨⟨n + 1, hend⟩, ?_⟩
        intro k u before hk hu
        rcases Nat.lt_or_eq_of_le hk with hlt | rfl
        · rw [trace_stays hend hlt] at hu
          cases hu
        · exact hnow u before hu
    · cases h

section Rank

variable {β : Type*} [PartialOrder β] (rank : σ → List ε → β)

/-- No step of the run raises the rank. -/
def Falling (m : Machine σ α ε ρ) (s : σ) (history : List ε) (answers : Nat → α)
    (rank : σ → List ε → β) : Prop :=
  ∀ n t past u effects, m.trace s history answers n = .running t past →
    m.step t (answers n) = some (.next u effects) → rank u (past ++ effects) ≤ rank t past

variable {rank}

theorem Falling.le (hfall : m.Falling s history answers rank) {n k : Nat} (hk : n ≤ k) {t u : σ}
    {past last : List ε} (ht : m.trace s history answers n = .running t past)
    (hu : m.trace s history answers k = .running u last) : rank u last ≤ rank t past := by
  induction hk generalizing u last with
  | refl =>
    rw [ht] at hu
    cases hu
    exact le_rfl
  | step _ ih =>
    obtain ⟨v, before, hv, ⟨_, rfl, rfl⟩ | ⟨effects, hstep, rfl⟩⟩ := trace_running hu
    · exact ih hv
    · exact (hfall _ v before u effects hv hstep).trans (ih hv)

/-- A run ends if at every moment something recurs that ends it or lowers its rank. -/
theorem ends_of_rank [WellFoundedLT β] (hfall : m.Falling s history answers rank)
    (hturn : ∀ n t past, m.trace s history answers n = .running t past →
      ∃ p : σ → α → Prop, m.Recurs s history answers p ∧
        ∀ k u last, m.trace s history answers k = .running u last → rank u last = rank t past →
          p u (answers k) → ∃ out, m.step u (answers k) = some out ∧
            ∀ v effects, out = .next v effects → rank v (last ++ effects) < rank u last) :
    ∃ n result last, m.trace s history answers n = .ended result last := by
  by_contra hnever
  have hruns : ∀ n, ∃ t past, m.trace s history answers n = .running t past := by
    intro n
    cases hp : m.trace s history answers n with
    | running t past => exact ⟨t, past, rfl⟩
    | ended result last => exact (hnever ⟨n, result, last, hp⟩).elim
  have hfalse : ∀ b, ∀ n t past, m.trace s history answers n = .running t past →
      rank t past = b → False := by
    intro b
    induction b using WellFoundedLT.induction with
    | ind b ih =>
      rintro n t past ht rfl
      obtain ⟨p, hrecurs, hlower⟩ := hturn n t past ht
      obtain ⟨k, hk, ⟨result, last, hend⟩ | ⟨u, last, hu, hp⟩⟩ := hrecurs n
      · exact hnever ⟨k, result, last, hend⟩
      · rcases (hfall.le hk ht hu).lt_or_eq with hlt | heq
        · exact ih _ hlt k u last hu rfl
        · obtain ⟨out, hstep, hnext⟩ := hlower k u last hu heq hp
          cases out with
          | exit result effects => exact hnever ⟨k + 1, _, _, trace_exit hu hstep⟩
          | next v effects =>
            have hlt : rank v (last ++ effects) < rank t past := heq ▸ hnext v effects rfl
            exact ih _ hlt (k + 1) v _ (trace_next hu hstep) rfl
  obtain ⟨t, past, ht⟩ := hruns 0
  exact hfalse _ 0 t past ht rfl

end Rank

end RubyEngine.Transition.Machine
