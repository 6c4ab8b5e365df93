import RubyEngine.Transition

/-!
# Machines side by side

A system has a position for each of its machines, and a step of it is an answer to one of
them: the machine goes on, ends, or stays where it is.
-/
namespace RubyEngine.Transition.Machine

variable {σ α ε ρ : Type*} {m : Machine σ α ε ρ} {p : Position σ ε ρ}

/-- The positions that the runs of a machine come to. -/
inductive At (m : Machine σ α ε ρ) : Position σ ε ρ → Prop where
  | running {s : σ} {history : List ε} : m.Reaches s history → At m (.running s history)
  | ended {result : ρ} {history : List ε} : m.Ends result history → At m (.ended result history)

theorem At.reaches {s : σ} {history : List ε} (h : m.At (.running s history)) :
    m.Reaches s history := by
  cases h with
  | running h => exact h

theorem At.observes (h : m.At p) : m.Observes p.history := by
  cases h with
  | running h => exact Or.inl ⟨_, h⟩
  | ended h => exact Or.inr ⟨_, h⟩

/-- What an answer does to a position. -/
inductive Advances (m : Machine σ α ε ρ) (answer : α) (p : Position σ ε ρ) :
    Position σ ε ρ → Prop where
  | stays : Advances m answer p p
  | next {s t : σ} {history effects : List ε} : p = .running s history →
      m.step s answer = some (.next t effects) →
      Advances m answer p (.running t (history ++ effects))
  | exit {s : σ} {result : ρ} {history effects : List ε} : p = .running s history →
      m.step s answer = some (.exit result effects) →
      Advances m answer p (.ended result (history ++ effects))

theorem advances (m : Machine σ α ε ρ) (answer : α) (p : Position σ ε ρ) :
    m.Advances answer p (m.advance p answer) := by
  cases p with
  | ended result history => exact .stays
  | running s history =>
    unfold advance
    dsimp only
    split
    · exact .stays
    · next t effects hstep => exact .next rfl hstep
    · next result effects hstep => exact .exit rfl hstep

end RubyEngine.Transition.Machine
