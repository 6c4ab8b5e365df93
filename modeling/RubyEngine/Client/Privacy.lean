import RubyEngine.Client.Execute

/-!
# The texts of provider exceptions

Two runs that differ in nothing but the texts of exceptions. A text that a closure
throws is dropped, and so is one of `json_encode` itself. A text that comes out of
`jsonSerialize` is thrown outside the guarded call and ends up in the `Execution`.
-/
namespace RubyEngine.Client.Execute

open Json (Doc)
open Transition (Outcome Machine)

variable {php : Php} {inv : Invocation}

/-! ## Values with other exceptions -/

def Answer.retext (f : Thrown → Thrown) : Answer → Answer
  | .returned value => .returned (value.retext f)
  | .threw e => .threw (f e)
  | answer => answer

/-- The same answer without the texts of exceptions. -/
def Answer.blank (answer : Answer) : Answer := answer.retext Thrown.blank

/-- What the world does at a time, with what it has seen of the client. -/
abbrev Environment := Nat → List Effect → Answer

/-- The two differ at most in the texts of exceptions that are not capability failures. -/
def Alike (env other : Environment) : Prop := ∀ n history, (other n history).blank = (env n history).blank

def run (php : Php) (inv : Invocation) (env : Environment) : Nat → Machine.Position State Effect Execution :=
  (machine php inv).position initial env

/-- The frames so far and the `Execution`, if there is one. -/
def observed (php : Php) (inv : Invocation) (env : Environment) (n : Nat) :
    List Effect × Option Execution :=
  (run php inv env n).observed

/-- Serializing a value runs into an exception of the provider, before any other error. -/
def leaks (value : Provided) : Bool :=
  match encode 1 value with
  | .error (.other _) => true
  | _ => false

/-- A closure returns such a value at a time of the run. -/
def Leaks (php : Php) (inv : Invocation) (env : Environment) (n : Nat) : Prop :=
  ∃ path args vars history value, run php inv env n = .running ⟨.calling path args, vars⟩ history ∧
    env n history = .returned value ∧ leaks value = true

/-! ## Replies -/

/-- The frame of a reply around a value that has been encoded. -/
def replyFrame (php : Php) (inv : Invocation) (sequence : Nat) (d : Doc) : Except Thrown Bytes :=
  let json := php.frameStyle.render (.object [("protocol", .string PROTOCOL),
    ("execution_id", .string inv.executionId), ("kind", .string "reply"),
    ("sequence", .u64 sequence), ("ok", .bool true), ("value", d)])
  if MAX_FRAME < json.length then .error (.runtime "Engine frame exceeds the byte limit.")
  else .ok (Framing.frame json)

theorem outgoing_value (sequence : Nat) (value : Provided) :
    outgoing php (reply inv sequence (replyFields (.ok value))) =
      encode 1 value >>= replyFrame php inv sequence := by
  simp only [outgoing, reply, replyFields, member, text, List.cons_append, List.nil_append, encode,
    encodeEntries, encodeString_utf8]
  cases encode 1 value with
  | ok d => rfl
  | error e => rfl

theorem report_congr {e e' : Thrown} (h : e.blank = e'.blank) (hother : ∀ text, e ≠ .other text) :
    report e = report e' := by
  cases e with
  | other text => exact absurd rfl (hother text)
  | json | capability =>
    cases e' <;> cases h
    rfl

theorem execution_congr {vars : Vars} {e e' : Thrown} (h : e.blank = e'.blank)
    (hother : ∀ text, e ≠ .other text) : execution inv vars e = execution inv vars e' := by
  rw [execution, report_congr h hother]
  rfl

theorem replyFields_congr {e e' : Thrown} (h : e.blank = e'.blank) :
    replyFields (.error e) = replyFields (.error e') := by
  cases e <;> cases e' <;> cases h <;> rfl

/-- Values that are alike encode alike. -/
theorem encode_congr {value value' : Provided}
    (h : value.retext Thrown.blank = value'.retext Thrown.blank) (depth : Nat) :
    (encode depth value).mapError Thrown.blank = (encode depth value').mapError Thrown.blank := by
  have hblank : ∀ v : Provided, (encode depth (v.retext Thrown.blank)).mapError Thrown.blank =
      (encode depth v).mapError Thrown.blank := by
    intro v
    exact encode_retext (fun e => by cases e <;> rfl) (fun _ => rfl) depth v
  rw [← hblank value, ← hblank value', h]

/-! ## One step -/

theorem onOutcome_value_congr {vars : Vars} {value value' : Provided}
    (h : value.retext Thrown.blank = value'.retext Thrown.blank) (hsafe : leaks value = false) :
    onOutcome php inv vars (.ok value) = onOutcome php inv vars (.ok value') := by
  have hencode := encode_congr h 1
  simp only [onOutcome, outgoing_value]
  rw [leaks] at hsafe
  cases hv : encode 1 value with
  | ok d =>
    cases hv' : encode 1 value' with
    | ok d' =>
      rw [hv, hv'] at hencode
      rw [Except.ok.inj hencode]
    | error e' =>
      rw [hv, hv'] at hencode
      cases hencode
  | error e =>
    cases hv' : encode 1 value' with
    | ok d' =>
      rw [hv, hv'] at hencode
      cases hencode
    | error e' =>
      rw [hv, hv'] at hencode
      have he : e.blank = e'.blank := Except.error.inj hencode
      have hother : ∀ text, e ≠ .other text := by
        rintro text rfl
        rw [hv] at hsafe
        cases hsafe
      show Outcome.exit (execution inv vars e) [] = Outcome.exit (execution inv vars e') []
      rw [execution_congr he hother]

/-- Alike answers lead to the same place, unless a text leaks. -/
theorem step_congr {s : State} {answer answer' : Answer} (h : answer'.blank = answer.blank)
    (hsafe : ∀ path args value, s.place = .calling path args → answer = .returned value →
      leaks value = false) :
    step php inv s answer' = step php inv s answer := by
  cases answer with
  | returned value =>
    cases answer' <;> try cases h
    next value' =>
    have hvalue : value'.retext Thrown.blank = value.retext Thrown.blank := Answer.returned.inj h
    obtain ⟨place, vars⟩ := s
    cases place with
    | calling path args =>
      simp only [step]
      rw [onOutcome_value_congr hvalue.symm (hsafe path args value rfl rfl)]
    | opening | writing | header | payload | checking => rfl
  | threw e =>
    cases answer' <;> try cases h
    next e' =>
    have he : e'.blank = e.blank := Answer.threw.inj h
    obtain ⟨place, vars⟩ := s
    cases place with
    | calling path args => simp only [step, onOutcome, replyFields_congr he]
    | opening | writing | header | payload | checking => rfl
  | opened | wrote | read | checked =>
    cases answer' <;> cases h
    rfl

/-! ## Runs -/

variable {env other : Environment}

/-- Up to the first leak, two runs that are alike are the same. -/
theorem run_congr (halike : Alike env other) {n : Nat} (hsafe : ∀ k < n, ¬ Leaks php inv env k) :
    run php inv other n = run php inv env n := by
  refine Machine.position_congr (fun k hk t history hrun => ?_)
  refine step_congr (halike k history) (fun path args value hplace hanswer => ?_)
  rw [Bool.eq_false_iff]
  intro hleak
  obtain ⟨place, vars⟩ := t
  obtain rfl : place = .calling path args := hplace
  exact hsafe k hk ⟨path, args, vars, history, value, hrun, hanswer, hleak⟩

/-- Another text for every exception that is neither a capability failure nor of
`json_encode`. -/
def mark : Thrown → Thrown
  | .other message => .other (0 :: message)
  | e => e

theorem blank_mark (e : Thrown) : (mark e).blank = e.blank := by
  cases e <;> rfl

def marked (env : Environment) : Environment := fun n history => (env n history).retext mark

theorem alike_marked (env : Environment) : Alike env (marked env) := by
  intro n history
  have hblank : Thrown.blank ∘ mark = Thrown.blank := funext blank_mark
  cases h : env n history with
  | returned value =>
    simp only [marked, h, Answer.retext, Answer.blank, Provided.retext_retext, hblank]
  | threw e => simp only [marked, h, Answer.retext, Answer.blank, blank_mark]
  | opened | wrote | read | checked => simp only [marked, h, Answer.retext, Answer.blank]

/-- A leak ends the run with the text of the exception. -/
theorem run_leak {n : Nat} {path : String} {args : List Doc} {vars : Vars} {history : List Effect}
    {value : Provided} {message : Bytes} {world : Environment}
    (hrun : run php inv world n = .running ⟨.calling path args, vars⟩ history)
    (hanswer : world n history = .returned value) (hvalue : encode 1 value = .error (.other message)) :
    run php inv world (n + 1) = .ended (execution inv vars (.other message)) history := by
  have hstep : (machine php inv).step ⟨.calling path args, vars⟩ (.returned value) =
      some (.exit (execution inv vars (.other message)) []) := by
    show some (onOutcome php inv vars (.ok value)) = _
    rw [onOutcome, outgoing_value, hvalue]
    rfl
  simp only [run] at hrun ⊢
  simp only [Machine.position, hrun, Machine.Position.history, hanswer, Machine.advance, hstep,
    List.append_nil]

/-- Two runs that differ only in the texts of provider exceptions look the same, whatever
the texts, exactly if no closure of the run returns an object that throws a text of its own
while it is serialized. -/
theorem provider_texts_private (php : Php) (inv : Invocation) (env : Environment) :
    (∀ other, Alike env other → ∀ n, observed php inv other n = observed php inv env n) ↔
      ∀ n, ¬ Leaks php inv env n := by
  constructor
  · intro h n hleak
    -- up to the first leak the marked run is the same
    induction n using Nat.strong_induction_on with
    | _ n ih =>
      have hsame := run_congr (alike_marked env) ih
      obtain ⟨path, args, vars, history, value, hrun, hanswer, hvalue⟩ := hleak
      obtain ⟨message, hmessage⟩ : ∃ message, encode 1 value = .error (.other message) := by
        rw [leaks] at hvalue
        split at hvalue
        · next message hm => exact ⟨message, hm⟩
        · cases hvalue
      have hmarked : encode 1 (value.retext mark) = .error (.other (0 :: message)) := by
        have hid := encode_retext (f := mark) (h := id) (k := mark) (fun _ => rfl) (fun _ => rfl) 1
          value
        rw [hmessage] at hid
        cases hv : encode 1 (value.retext mark) with
        | ok d =>
          rw [hv] at hid
          cases hid
        | error e =>
          rw [hv] at hid
          exact hid
      have hother : marked env n history = .returned (value.retext mark) := by
        rw [marked, hanswer]
        rfl
      have hend := run_leak hrun hanswer hmessage
      have hend' := run_leak (hsame.trans hrun) hother hmarked
      have heq := h (marked env) (alike_marked env) (n + 1)
      rw [observed, observed, hend, hend'] at heq
      simp [Machine.Position.observed, Machine.Position.result, Machine.Position.history,
        execution, report] at heq
  · intro hsafe other halike n
    rw [observed, observed, run_congr halike (fun k _ => hsafe k)]

/-! ## An object that throws while it is serialized -/

def sample : Invocation where
  executionId := "e"
  source := utf8 "app.a"
  capabilities := [utf8 "a"]

/-- The engine's call of the one capability. -/
def sampleCall : Bytes :=
  encoder.render (.object [("protocol", .string PROTOCOL), ("execution_id", .string "e"),
    ("kind", .string "call"), ("sequence", .u64 1), ("path", .string "a"), ("args", .array [])])

/-- The run in which the closure returns a value to the first call. -/
def sampleWorld (value : Provided) : Environment := fun n _ =>
  match n with
  | 0 => .opened true
  | 1 => .wrote {} ((outgoing .reference (request sample)).toOption.map List.length) false
  | 2 => .read {} (some (be32 sampleCall.length)) false
  | 3 => .read {} (some sampleCall) false
  | 4 => .checked {}
  | _ => .returned value

def secret : Provided := .throws (.runtime "secret")

/-- The text comes out as the message of the error. -/
theorem serialization_text_leaks :
    Alike (sampleWorld secret) (marked (sampleWorld secret)) ∧
      ((observed .reference sample (sampleWorld secret) 6).2.bind Execution.error) =
        some (.transport (utf8 "secret")) ∧
      observed .reference sample (marked (sampleWorld secret)) 6 ≠
        observed .reference sample (sampleWorld secret) 6 :=
  ⟨alike_marked _, by decide +kernel, by decide +kernel⟩

end RubyEngine.Client.Execute
