import RubyEngine.Client.Execute

/-!
# What a turn of the client can do

Every step of `Client::execute` is one of a few turns: a frame is written or read a
piece further, an event is taken up, a closure is invoked or answered, or an
exception ends the call.
-/
namespace RubyEngine.Client.Execute

open Json (Doc)
open Transition (Outcome)

variable {php : Php} {inv : Invocation}

/-- What the closure did, if the answer says so. -/
def Answer.settles : Answer → Option (Except Thrown Provided)
  | .returned value => some (.ok value)
  | .threw e => some (.error e)
  | _ => none

/-- The answer to a write that ends the call. -/
def Answer.broken : Answer → Prop
  | .wrote check written closed => (∃ e, checkpoint check = .error e) ∨ written = none ∨ closed = true
  | _ => False

def Answer.writes : Answer → Bool
  | .wrote _ _ _ => true
  | _ => false

def Answer.reads : Answer → Bool
  | .read _ _ _ => true
  | _ => false

def Place.reads : Place → Bool
  | .header _ | .payload _ _ => true
  | _ => false

/-- Places that neither write nor invoke. -/
def Place.listens : Place → Bool
  | .writing _ | .calling _ _ => false
  | _ => true

inductive Turn (php : Php) (inv : Invocation) :
    State → Answer → Outcome State Effect Execution → Prop where
  /-- The request is encoded. -/
  | opened {vars : Vars} {bytes : Bytes} : outgoing php (request inv) = .ok bytes →
      Turn php inv ⟨.opening, vars⟩ (.opened true) (.next ⟨.writing bytes, vars⟩ [])
  | wrote {vars : Vars} {rest : Bytes} {check : Check} {n : Nat} : checkpoint check = .ok () →
      rest.length ≤ n →
      Turn php inv ⟨.writing rest, vars⟩ (.wrote check (some n) false)
        (.next ⟨.header [], vars⟩ [.wrote rest])
  | writes {vars : Vars} {rest : Bytes} {check : Check} {n : Nat} : checkpoint check = .ok () →
      n < rest.length →
      Turn php inv ⟨.writing rest, vars⟩ (.wrote check (some n) false)
        (.next ⟨.writing (rest.drop n), vars⟩ [.wrote (rest.take n)])
  | breaks {vars : Vars} {rest : Bytes} {check : Check} {written : Option Nat} {closed : Bool}
      {e : Thrown} {effects : List Effect} : (Answer.wrote check written closed).broken →
      effects = [] ∨ (∃ n, effects = [.wrote (rest.take n)]) →
      Turn php inv ⟨.writing rest, vars⟩ (.wrote check written closed)
        (.exit (execution inv vars e) effects)
  | header {vars : Vars} {got bytes : Bytes} {check : Check} {ended : Bool} :
      checkpoint check = .ok () → (got ++ bytes).length < 4 →
      Turn php inv ⟨.header got, vars⟩ (.read check (some bytes) ended)
        (.next ⟨.header (got ++ bytes), vars⟩ [.read bytes])
  | announced {vars : Vars} {got bytes : Bytes} {check : Check} {ended : Bool} :
      checkpoint check = .ok () → bytes.length ≤ 4 - got.length → 4 ≤ (got ++ bytes).length →
      1 ≤ fromBe32 (got ++ bytes) →
      Turn php inv ⟨.header got, vars⟩ (.read check (some bytes) ended)
        (.next ⟨.payload (fromBe32 (got ++ bytes)) [], vars⟩ [.read bytes])
  | payload {vars : Vars} {length : Nat} {got bytes : Bytes} {check : Check} {ended : Bool} :
      checkpoint check = .ok () → (got ++ bytes).length < length →
      Turn php inv ⟨.payload length got, vars⟩ (.read check (some bytes) ended)
        (.next ⟨.payload length (got ++ bytes), vars⟩ [.read bytes])
  /-- An event that asks for nothing. -/
  | listens {vars vars' : Vars} {length : Nat} {got bytes : Bytes} {check : Check} {ended : Bool}
      {event : Doc} : checkpoint check = .ok () → bytes.length ≤ length - got.length →
      length ≤ (got ++ bytes).length → incoming php (got ++ bytes) = .ok event →
      onEvent php inv vars event = .ok (.listen vars') →
      Turn php inv ⟨.payload length got, vars⟩ (.read check (some bytes) ended)
        (.next ⟨.header [], vars'⟩ [.read bytes])
  /-- An event that asks for a closure. -/
  | asks {vars vars' : Vars} {length : Nat} {got bytes : Bytes} {check : Check} {ended : Bool}
      {event : Doc} {path : String} {args : List Doc} : checkpoint check = .ok () →
      bytes.length ≤ length - got.length → length ≤ (got ++ bytes).length →
      incoming php (got ++ bytes) = .ok event →
      onEvent php inv vars event = .ok (.call vars' path args) →
      Turn php inv ⟨.payload length got, vars⟩ (.read check (some bytes) ended)
        (.next ⟨.checking path args, vars'⟩ [.read bytes])
  | finishes {vars : Vars} {length : Nat} {got bytes : Bytes} {check : Check} {ended : Bool}
      {event : Doc} {result : Execution} : onEvent php inv vars event = .ok (.finish result) →
      Turn php inv ⟨.payload length got, vars⟩ (.read check (some bytes) ended)
        (.exit result [.read bytes])
  | invokes {vars : Vars} {path : String} {args : List Doc} {check : Check} :
      checkpoint check = .ok () →
      Turn php inv ⟨.checking path args, vars⟩ (.checked check)
        (.next ⟨.calling path args, vars⟩ [.invoked path args])
  | replies {vars : Vars} {path : String} {args : List Doc} {answer : Answer}
      {outcome : Except Thrown Provided} {bytes : Bytes} : answer.settles = some outcome →
      outgoing php (reply inv vars.sequence (replyFields outcome)) = .ok bytes →
      Turn php inv ⟨.calling path args, vars⟩ answer (.next ⟨.writing bytes, vars⟩ [])
  | mute {vars : Vars} {path : String} {args : List Doc} {answer : Answer}
      {outcome : Except Thrown Provided} {e : Thrown} : answer.settles = some outcome →
      outgoing php (reply inv vars.sequence (replyFields outcome)) = .error e →
      Turn php inv ⟨.calling path args, vars⟩ answer (.exit (execution inv vars e) [])
  | throws {s : State} {answer : Answer} {e : Thrown} {effects : List Effect} :
      s.place.listens = true → answer.reads = s.place.reads →
      effects = [] ∨ (∃ bytes, effects = [.read bytes]) →
      Turn php inv s answer (.exit (execution inv s.vars e) effects)

theorem onRead_cases {length : Nat} {got : Bytes} {check : Check} {chunk : Option Bytes}
    {ended : Bool} {result : Except Thrown Bytes}
    (h : onRead length got check chunk ended = some result) :
    (∃ e, result = .error e) ∨ ∃ bytes, chunk = some bytes ∧ checkpoint check = .ok () ∧
      bytes.length ≤ length - got.length ∧ result = .ok (got ++ bytes) := by
  unfold onRead at h
  cases hcheck : checkpoint check with
  | error e =>
    rw [hcheck] at h
    exact Or.inl ⟨e, (Option.some.inj h).symm⟩
  | ok =>
    rw [hcheck] at h
    cases chunk with
    | none => exact Or.inl ⟨noResult, (Option.some.inj h).symm⟩
    | some bytes =>
      simp only at h
      split at h
      · cases h
      · next hsize =>
        split at h
        · exact Or.inl ⟨noResult, (Option.some.inj h).symm⟩
        · exact Or.inr ⟨bytes, rfl, rfl, Nat.not_lt.mp hsize, (Option.some.inj h).symm⟩

theorem onWrite_turn {vars : Vars} {rest : Bytes} {check : Check} {written : Option Nat}
    {closed : Bool} {out : Outcome State Effect Execution}
    (h : onWrite inv vars rest check written closed = some out) :
    Turn php inv ⟨.writing rest, vars⟩ (.wrote check written closed) out := by
  unfold onWrite at h
  cases hcheck : checkpoint check with
  | error e =>
    rw [hcheck] at h
    cases h
    exact .breaks (Or.inl ⟨e, hcheck⟩) (Or.inl rfl)
  | ok =>
    rw [hcheck] at h
    cases written with
    | none =>
      cases h
      exact .breaks (Or.inr (Or.inl rfl)) (Or.inl rfl)
    | some n =>
      simp only at h
      split at h
      · cases h
      · cases closed with
        | true =>
          cases h
          exact .breaks (Or.inr (Or.inr rfl)) (Or.inr ⟨n, rfl⟩)
        | false =>
          rw [if_neg Bool.false_ne_true] at h
          split at h
          · next hlast =>
            cases h
            exact .wrote hcheck hlast
          · next hmore =>
            cases h
            exact .writes hcheck (Nat.not_le.mp hmore)

theorem onHeader_turn {vars : Vars} {got bytes : Bytes} {check : Check} {ended : Bool}
    (hcheck : checkpoint check = .ok ()) (hsize : bytes.length ≤ 4 - got.length) :
    Turn php inv ⟨.header got, vars⟩ (.read check (some bytes) ended)
      (resume inv vars [.read bytes] (onHeader (got ++ bytes))) := by
  rw [onHeader]
  by_cases hshort : (got ++ bytes).length < 4
  · rw [if_pos hshort]
    exact .header hcheck hshort
  · rw [if_neg hshort]
    split
    · exact .throws rfl rfl (Or.inr ⟨_, rfl⟩)
    · next hlength =>
      exact .announced hcheck hsize (Nat.not_lt.mp hshort) (by omega)

theorem onPayload_turn {vars : Vars} {length : Nat} {got bytes : Bytes} {check : Check}
    {ended : Bool} (hcheck : checkpoint check = .ok ()) (hsize : bytes.length ≤ length - got.length)
    (hlength : length ≤ (got ++ bytes).length) :
    Turn php inv ⟨.payload length got, vars⟩ (.read check (some bytes) ended)
      (onPayload php inv vars (got ++ bytes) [.read bytes]) := by
  unfold onPayload
  cases hincoming : incoming php (got ++ bytes) with
  | error e => exact .throws rfl rfl (Or.inr ⟨_, rfl⟩)
  | ok event =>
    simp only [bind, Except.bind]
    cases hevent : onEvent php inv vars event with
    | error e => exact .throws rfl rfl (Or.inr ⟨_, rfl⟩)
    | ok after =>
      cases after with
      | listen vars' => exact .listens hcheck hsize hlength hincoming hevent
      | call vars' path args => exact .asks hcheck hsize hlength hincoming hevent
      | finish result => exact .finishes hevent

theorem onOutcome_turn {vars : Vars} {path : String} {args : List Doc} {answer : Answer}
    {outcome : Except Thrown Provided} (h : answer.settles = some outcome) :
    Turn php inv ⟨.calling path args, vars⟩ answer (onOutcome php inv vars outcome) := by
  rw [onOutcome]
  cases hbytes : outgoing php (reply inv vars.sequence (replyFields outcome)) with
  | ok bytes => exact .replies h hbytes
  | error e => exact .mute h hbytes

theorem turn_of_step {s : State} {answer : Answer} {out : Outcome State Effect Execution}
    (h : step php inv s answer = some out) : Turn php inv s answer out := by
  obtain ⟨place, vars⟩ := s
  cases place with
  | opening =>
    cases answer with
    | opened ok =>
      cases h
      cases ok with
      | false => exact .throws rfl rfl (Or.inl rfl)
      | true =>
        rw [if_pos rfl]
        cases hbytes : outgoing php (request inv) with
        | ok bytes => exact .opened hbytes
        | error e => exact .throws rfl rfl (Or.inl rfl)
    | wrote | read | checked | returned | threw => cases h
  | writing rest =>
    cases answer with
    | wrote check written closed => exact onWrite_turn h
    | opened | read | checked | returned | threw => cases h
  | header got =>
    cases answer with
    | read check chunk ended =>
      obtain ⟨result, hread, rfl⟩ := Option.map_eq_some_iff.mp h
      rcases onRead_cases hread with ⟨e, rfl⟩ | ⟨bytes, rfl, hcheck, hsize, rfl⟩
      · exact .throws rfl rfl (Or.inl rfl)
      · exact onHeader_turn hcheck hsize
    | opened | wrote | checked | returned | threw => cases h
  | payload length got =>
    cases answer with
    | read check chunk ended =>
      obtain ⟨result, hread, rfl⟩ := Option.map_eq_some_iff.mp h
      rcases onRead_cases hread with ⟨e, rfl⟩ | ⟨bytes, rfl, hcheck, hsize, rfl⟩
      · exact .throws rfl rfl (Or.inl rfl)
      · dsimp only
        split
        · next hshort => exact .payload hcheck hshort
        · next hlong => exact onPayload_turn hcheck hsize (Nat.not_lt.mp hlong)
    | opened | wrote | checked | returned | threw => cases h
  | checking path args =>
    cases answer with
    | checked check =>
      cases h
      cases hcheck : checkpoint check with
      | error e => exact .throws rfl rfl (Or.inl rfl)
      | ok => exact .invokes hcheck
    | opened | wrote | read | returned | threw => cases h
  | calling path args =>
    cases answer with
    | returned value =>
      cases h
      exact onOutcome_turn rfl
    | threw e =>
      cases h
      exact onOutcome_turn rfl
    | opened | wrote | read | checked => cases h

end RubyEngine.Client.Execute
