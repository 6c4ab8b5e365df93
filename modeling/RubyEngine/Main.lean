import RubyEngine.Supervisor

/-!
# The executable in supervisor mode

`main` reads the initial request without blocking, owns one run of the
supervisor and writes a diagnostic for everything that fails. Standard output is
the descriptor that the supervisor sends the host's frames to.
-/
namespace RubyEngine.Main

open Json (Value)
open Transition (Outcome Machine)
open Supervisor (Loop Effect)

inductive State where
  /-- Both descriptors are still to be made nonblocking. -/
  | opening
  /-- Inside `initial_request`, at the head of its loop. -/
  | admission (reader : Reader)
  | spawning (request : Request)
  | running (request : Request) (loop : Loop)
  /-- Something failed, and `execution` is what `main` knows of the request. -/
  | diagnostic (execution message : String)

inductive Answer where
  | opened (result : Except IoError Unit)
  /-- One iteration of `initial_request`: the clock, a read and a poll. -/
  | admitted (expired : Bool) (outcome : ReadOutcome) (polled : Except IoError Unit)
  /-- The guest process and its pipes are there, or why not. -/
  | spawned (result : Except String Unit)
  | supervised (answer : Supervisor.Answer)
  /-- Standard output takes so many bytes of the diagnostic, and the rest is dropped. -/
  | accepted (n : Nat)

abbrev Next := Outcome State Effect Nat

/-- The request in the initial frame. -/
def fromFrame (serde : SerdeJson) (value : Value) : State :=
  match Request.ofValue value with
  | none => .diagnostic "" (serde.rejection value)
  | some request =>
      match request.validate with
      | .error message => .diagnostic request.executionId message
      | .ok () => .spawning request

def initialRequest (serde : SerdeJson) (reader : Reader) (expired : Bool) (outcome : ReadOutcome)
    (polled : Except IoError Unit) : Next :=
  if expired then .next (.diagnostic "" "Initial request deadline exceeded") []
  else
    let received := reader.receive serde outcome
    let took := [Effect.took .host received.consumed]
    match received.result with
    | .error e => .next (.diagnostic "" e.message) took
    | .ok (some value) => .next (fromFrame serde value) took
    | .ok none =>
        match polled with
        | .ok () => .next (.admission received.reader) took
        | .error e =>
            if e.kind = .interrupted then .next (.admission received.reader) took
            else .next (.diagnostic "" e.message) took

def spawn (serde : SerdeJson) (request : Request) : Next :=
  match Supervisor.enter serde request with
  | .error message => .next (.diagnostic request.executionId message) []
  | .ok s => .next (.running request s) [.enqueued .guest request.toValue]

/-- The result of the supervisor decides between a silent end and a diagnostic. -/
def supervised (request : Request) : Supervisor.Next → Next
  | .next s effects => .next (.running request s) effects
  | .exit (.ok ()) effects => .exit 0 effects
  | .exit (.error e) effects => .next (.diagnostic request.executionId e.message) effects

/-- The frame that `main` writes for an error, if it may be written at all. -/
def diagnosticFrame (serde : SerdeJson) (execution message : String) : Bytes :=
  match writeFrame serde (failure execution "engine_error" message) with
  | .ok bytes => bytes
  | .error _ => []

def step (serde : SerdeJson) : State → Answer → Option Next
  | .opening, .opened (.ok ()) => some (.next (.admission {}) [])
  | .opening, .opened (.error e) => some (.next (.diagnostic "" e.message) [])
  | .admission reader, .admitted expired outcome polled =>
      some (initialRequest serde reader expired outcome polled)
  | .spawning request, .spawned (.ok ()) => some (spawn serde request)
  | .spawning request, .spawned (.error message) =>
      some (.next (.diagnostic request.executionId message) [])
  | .running request s, .supervised answer =>
      (Supervisor.step serde request s answer).map (supervised request)
  | .diagnostic execution message, .accepted n =>
      some (.exit 1 [.sent .host ((diagnosticFrame serde execution message).take n)])
  | _, _ => none

def machine (serde : SerdeJson) : Machine State Answer Effect Nat where
  start s history := s = .opening ∧ history = []
  step := step serde

end RubyEngine.Main
