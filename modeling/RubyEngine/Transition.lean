import Mathlib.Logic.Basic

/-!
# Machines with observable effects

A machine moves when its environment answers. A move leads to a next state or
ends the run with a result, and in both cases it has effects. The history of a
state is the list of the effects so far, and an invariant relates the two.
-/
namespace RubyEngine.Transition

inductive Outcome (σ ε ρ : Type*) where
  | next (s : σ) (effects : List ε)
  | exit (result : ρ) (effects : List ε)

def Outcome.effects {σ ε ρ : Type*} : Outcome σ ε ρ → List ε
  | .next _ effects | .exit _ effects => effects

def Outcome.result {σ ε ρ : Type*} : Outcome σ ε ρ → Option ρ
  | .next _ _ => none
  | .exit result _ => some result

structure Machine (σ α ε ρ : Type*) where
  start : σ → List ε → Prop
  /-- None where the answer is not one to the question the state asks. -/
  step : σ → α → Option (Outcome σ ε ρ)

/-- One move of a run: where it started, what the environment answered, and where it led. -/
structure Move (σ α ε ρ : Type*) where
  source : σ
  answer : α
  outcome : Outcome σ ε ρ

namespace Machine

variable {σ α ε ρ : Type*} {m : Machine σ α ε ρ}

inductive Reaches (m : Machine σ α ε ρ) : σ → List ε → Prop where
  | start {s : σ} {history : List ε} : m.start s history → Reaches m s history
  | next {s t : σ} {answer : α} {history effects : List ε} : Reaches m s history →
      m.step s answer = some (.next t effects) → Reaches m t (history ++ effects)

inductive Ends (m : Machine σ α ε ρ) : ρ → List ε → Prop where
  | exit {s : σ} {answer : α} {result : ρ} {history effects : List ε} : Reaches m s history →
      m.step s answer = some (.exit result effects) → Ends m result (history ++ effects)

/-- The histories of all runs, finished or not. -/
def Observes (m : Machine σ α ε ρ) (history : List ε) : Prop :=
  (∃ s, Reaches m s history) ∨ ∃ result, Ends m result history

/-- The runs whose every step meets a condition on the state and the answer. -/
def restrict (m : Machine σ α ε ρ) (allowed : σ → α → Bool) : Machine σ α ε ρ where
  start := m.start
  step s answer := if allowed s answer then m.step s answer else none

theorem step_of_restrict {allowed : σ → α → Bool} {s : σ} {answer : α} {out : Outcome σ ε ρ}
    (h : (m.restrict allowed).step s answer = some out) :
    allowed s answer = true ∧ m.step s answer = some out := by
  simp only [restrict] at h
  split at h
  · next ha => exact ⟨ha, h⟩
  · cases h

theorem Reaches.of_restrict {allowed : σ → α → Bool} {s : σ} {history : List ε}
    (h : (m.restrict allowed).Reaches s history) : m.Reaches s history := by
  induction h with
  | start h => exact .start h
  | next _ hstep ih => exact .next ih (step_of_restrict hstep).2

/-- The history that a list of answers gives. The run may end with the last of them. -/
def play (m : Machine σ α ε ρ) (s : σ) (history : List ε) : List α → Option (List ε)
  | [] => some history
  | answer :: rest =>
      match m.step s answer with
      | none => none
      | some (.next t effects) => m.play t (history ++ effects) rest
      | some (.exit _ effects) => if rest.isEmpty then some (history ++ effects) else none

theorem Reaches.observes_of_play {s : σ} {history history' : List ε} {answers : List α}
    (hs : m.Reaches s history) (h : m.play s history answers = some history') :
    m.Observes history' := by
  induction answers generalizing s history with
  | nil =>
    obtain rfl := Option.some.inj h
    exact Or.inl ⟨s, hs⟩
  | cons answer rest ih =>
    rw [play] at h
    split at h
    · cases h
    · next t effects hstep => exact ih (.next hs hstep) h
    · next result effects hstep =>
      split at h
      · obtain rfl := Option.some.inj h
        exact Or.inr ⟨result, .exit hs hstep⟩
      · cases h

/-- Where a list of answers leads, if the run goes on after all of them. -/
def follow (m : Machine σ α ε ρ) (s : σ) (history : List ε) : List α → Option (σ × List ε)
  | [] => some (s, history)
  | answer :: rest =>
      match m.step s answer with
      | some (.next t effects) => m.follow t (history ++ effects) rest
      | _ => none

theorem Reaches.follow {s t : σ} {history history' : List ε} {answers : List α}
    (hs : m.Reaches s history) (h : m.follow s history answers = some (t, history')) :
    m.Reaches t history' := by
  induction answers generalizing s history with
  | nil =>
    cases h
    exact hs
  | cons answer rest ih =>
    rw [Machine.follow] at h
    split at h
    · next u effects hstep => exact ih (.next hs hstep) h
    · cases h

/-- What the start establishes and every step preserves holds of every state. -/
theorem Reaches.invariant {I : σ → List ε → Prop}
    (hstart : ∀ s history, m.start s history → I s history)
    (hnext : ∀ s answer t history effects, I s history →
      m.step s answer = some (.next t effects) → I t (history ++ effects))
    {s : σ} {history : List ε} (h : Reaches m s history) : I s history := by
  induction h with
  | start h => exact hstart _ _ h
  | next _ hstep ih => exact hnext _ _ _ _ _ ih hstep

/-- A property of histories that an invariant gives, at every state and at every end. -/
theorem Observes.of_invariant {I : σ → List ε → Prop} {P : List ε → Prop}
    (hreach : ∀ s history, Reaches m s history → I s history)
    (hstate : ∀ s history, I s history → P history)
    (hexit : ∀ s answer result history effects, I s history →
      m.step s answer = some (.exit result effects) → P (history ++ effects))
    {history : List ε} (h : Observes m history) : P history := by
  rcases h with ⟨s, hs⟩ | ⟨result, hend⟩
  · exact hstate s _ (hreach s _ hs)
  · cases hend with
    | exit hs hstep => exact hexit _ _ _ _ _ (hreach _ _ hs) hstep

/-! ## Runs against an environment -/

/-- Where a run stands. -/
inductive Position (σ ε ρ : Type*) where
  | running (s : σ) (history : List ε)
  | ended (result : ρ) (history : List ε)

def Position.history {σ ε ρ : Type*} : Position σ ε ρ → List ε
  | .running _ history | .ended _ history => history

def Position.result {σ ε ρ : Type*} : Position σ ε ρ → Option ρ
  | .running _ _ => none
  | .ended result _ => some result

/-- What is seen from outside. -/
def Position.observed {σ ε ρ : Type*} (p : Position σ ε ρ) : List ε × Option ρ :=
  (p.history, p.result)

/-- An answer to another question than the one that is asked changes nothing. -/
def advance (m : Machine σ α ε ρ) (p : Position σ ε ρ) (answer : α) : Position σ ε ρ :=
  match p with
  | .ended result history => .ended result history
  | .running s history =>
      match m.step s answer with
      | none => .running s history
      | some (.next t effects) => .running t (history ++ effects)
      | some (.exit result effects) => .ended result (history ++ effects)

/-- The run against an environment that answers by the time and by what it has seen. -/
def position (m : Machine σ α ε ρ) (s : σ) (env : Nat → List ε → α) : Nat → Position σ ε ρ
  | 0 => .running s []
  | n + 1 =>
      let p := m.position s env n
      m.advance p (env n p.history)

/-- Two environments have the same run up to the first time that their answers lead apart. -/
theorem position_congr {s : σ} {env other : Nat → List ε → α} {n : Nat}
    (h : ∀ k < n, ∀ t history, m.position s env k = .running t history →
      m.step t (other k history) = m.step t (env k history)) :
    m.position s other n = m.position s env n := by
  induction n with
  | zero => rfl
  | succ n ih =>
    have hn := ih (fun k hk => h k (Nat.lt_succ_of_lt hk))
    simp only [position, hn]
    cases hp : m.position s env n with
    | ended result history => rfl
    | running t history =>
      simp only [advance, Position.history]
      rw [h n (Nat.lt_succ_self n) t history hp]

/-! ## Runs move by move -/

/-- A place in a list that has grown by one item: the new item, or a place in the old list. -/
theorem split_concat {items before after : List α} {last item : α}
    (h : items ++ [last] = before ++ item :: after) :
    (after = [] ∧ item = last ∧ before = items) ∨
      ∃ less, after = less ++ [last] ∧ items = before ++ item :: less := by
  rcases List.eq_nil_or_concat after with rfl | ⟨less, other, rfl⟩
  · obtain ⟨hitems, hitem⟩ := List.append_inj' h rfl
    exact Or.inl ⟨rfl, (List.singleton_inj.mp hitem).symm, hitems.symm⟩
  · have hconcat : items ++ [last] = (before ++ item :: less) ++ [other] := by simpa using h
    obtain ⟨hitems, hother⟩ := List.append_inj' hconcat rfl
    obtain rfl := List.singleton_inj.mp hother
    exact Or.inr ⟨less, by simp, hitems⟩

/-- The same machine, whose history is the list of its moves. -/
def recorded (m : Machine σ α ε ρ) : Machine σ α (Move σ α ε ρ) ρ where
  start s history := (∃ effects, m.start s effects) ∧ history = []
  step s answer := (m.step s answer).map (fun out =>
    match out with
    | .next t _ => .next t [⟨s, answer, out⟩]
    | .exit result _ => .exit result [⟨s, answer, out⟩])

/-- A move of the machine out of a state that it reaches. -/
def Moves (m : Machine σ α ε ρ) (move : Move σ α ε ρ) : Prop :=
  (∃ effects, Reaches m move.source effects) ∧ m.step move.source move.answer = some move.outcome

theorem step_recorded {s : σ} {answer : α} {out : Outcome σ (Move σ α ε ρ) ρ}
    (h : m.recorded.step s answer = some out) :
    ∃ real, m.step s answer = some real ∧
      ((∃ t effects, real = .next t effects ∧ out = .next t [⟨s, answer, real⟩]) ∨
        ∃ result effects, real = .exit result effects ∧ out = .exit result [⟨s, answer, real⟩]) := by
  obtain ⟨real, hreal, hout⟩ := Option.map_eq_some_iff.mp h
  cases real with
  | next t effects => exact ⟨_, hreal, Or.inl ⟨t, effects, rfl, hout.symm⟩⟩
  | exit result effects => exact ⟨_, hreal, Or.inr ⟨result, effects, rfl, hout.symm⟩⟩

theorem reaches_recorded {s : σ} {history : List (Move σ α ε ρ)} (h : m.recorded.Reaches s history) :
    (∃ effects, m.Reaches s effects) ∧ ∀ move ∈ history, m.Moves move := by
  refine h.invariant (I := fun s history => (∃ effects, m.Reaches s effects) ∧
    ∀ move ∈ history, m.Moves move) ?_ ?_
  · rintro s history ⟨⟨effects, hstart⟩, rfl⟩
    exact ⟨⟨effects, .start hstart⟩, by simp⟩
  · rintro s answer t history moves ⟨⟨effects, hreach⟩, hall⟩ hstep
    obtain ⟨real, hreal, hcase⟩ := step_recorded hstep
    rcases hcase with ⟨t', effects', rfl, hout⟩ | ⟨_, _, _, hout⟩
    · cases hout
      refine ⟨⟨effects ++ effects', .next hreach hreal⟩, ?_⟩
      intro move hmove
      rcases List.mem_append.mp hmove with hold | hnew
      · exact hall move hold
      · rw [List.mem_singleton.mp hnew]
        exact ⟨⟨effects, hreach⟩, hreal⟩
    · cases hout

/-- The effects of some moves, in order. -/
def effects (moves : List (Move σ α ε ρ)) : List ε := moves.flatMap (fun move => move.outcome.effects)

/-- A run with its moves is a run with their effects, where nothing precedes the first move. -/
theorem Reaches.of_recorded (hempty : ∀ s history, m.start s history → history = []) {s : σ}
    {moves : List (Move σ α ε ρ)} (h : m.recorded.Reaches s moves) :
    m.Reaches s (effects moves) := by
  refine h.invariant (I := fun s moves => m.Reaches s (effects moves)) ?_ ?_
  · rintro s moves ⟨⟨first, hstart⟩, rfl⟩
    obtain rfl := hempty s first hstart
    exact .start hstart
  · intro s answer t moves more hreach hstep
    obtain ⟨real, hreal, ⟨u, effs, rfl, hout⟩ | ⟨_, _, _, hout⟩⟩ := step_recorded hstep
    · cases hout
      rw [effects, List.flatMap_append]
      have hone : [(⟨s, answer, .next t effs⟩ : Move σ α ε ρ)].flatMap
          (fun move => move.outcome.effects) = effs := List.append_nil effs
      rw [hone]
      exact .next hreach hreal
    · cases hout

/-- Every move of a run, finished or not, is one of the machine. -/
theorem Observes.moves {history : List (Move σ α ε ρ)} (h : m.recorded.Observes history) :
    ∀ move ∈ history, m.Moves move := by
  rcases h with ⟨s, hreach⟩ | ⟨result, hend⟩
  · exact (reaches_recorded hreach).2
  · cases hend with
    | exit hreach hstep =>
      obtain ⟨⟨effects, hstate⟩, hall⟩ := reaches_recorded hreach
      obtain ⟨real, hreal, hcase⟩ := step_recorded hstep
      rcases hcase with ⟨_, _, _, hout⟩ | ⟨_, _, _, hout⟩
      · cases hout
      · cases hout
        intro move hmove
        rcases List.mem_append.mp hmove with hold | hnew
        · exact hall move hold
        · rw [List.mem_singleton.mp hnew]
          exact ⟨⟨effects, hstate⟩, hreal⟩

end Machine

end RubyEngine.Transition
