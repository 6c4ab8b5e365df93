import RubyEngine.Transition
import RubyEngine.Transport

/-!
# The supervisor loop

One iteration of `supervisor::run` is cut into phases that make at most one
system call each, in the order of the source. A step of the machine is one phase
with the answer of the operating system to its call; the other processes may do
anything between two steps. The effects of a step are what they can see of it,
and the values that went through the four buffers.
-/
namespace RubyEngine

open Json (Value)

/-- `failure` of the executable: the terminal event of an execution without a result. -/
def failure (execution kind message : String) : Value :=
  Value.object [("protocol", .string PROTOCOL), ("execution_id", .string execution),
    ("kind", .string "completed"), ("result", .null),
    ("error", Value.object [("type", .string kind), ("message", .string message)])]

/-- How the guest ended: its exit code or the signal that killed it. -/
inductive ExitStatus where
  | exited (code : Nat)
  | signaled (signal : Nat)
  deriving DecidableEq, Repr

def ExitStatus.code : ExitStatus → Option Nat
  | .exited code => some code
  | .signaled _ => none

def ExitStatus.signal : ExitStatus → Option Nat
  | .exited _ => none
  | .signaled signal => some signal

def SIGALRM : Nat := 14
def SIGXCPU : Nat := 24
def SIGPROF : Nat := 27

namespace Supervisor

open Transition (Outcome Machine)

inductive Phase where
  | deadline
  /-- The one attempt to deliver the diagnostic of the deadline. -/
  | lastSend
  | memory
  | host
  | toGuest
  | toHost
  | guest
  | childExit
  | poll
  deriving DecidableEq, Repr

/-- The variables of the loop, with the place in the iteration. -/
structure Loop where
  phase : Phase := .deadline
  host : Reader := {}
  guest : Reader := {}
  toGuest : Writer := {}
  toHost : Writer := {}
  completed : Bool := false
  guestClosed : Bool := false
  pendingSequence : Option Nat := none
  /-- It stays below the call limit plus two, so the word never wraps. -/
  sequence : Nat := 0
  deriving DecidableEq

inductive Peer where
  | host
  | guest
  deriving DecidableEq, Repr

inductive Effect where
  /-- The bytes that a read took from the peer. -/
  | took (peer : Peer) (bytes : Bytes)
  /-- The bytes that the descriptor of the peer accepted. -/
  | sent (peer : Peer) (bytes : Bytes)
  | received (peer : Peer) (value : Value)
  | enqueued (peer : Peer) (value : Value)
  /-- The clock has been read at or behind the deadline. -/
  | expired
  | killed
  deriving DecidableEq

/-- The answer of the operating system to the call of a phase. -/
inductive Answer where
  | clock (expired : Bool)
  | resident (bytes : Option Nat)
  | read (outcome : ReadOutcome)
  | write (outcome : WriteOutcome)
  | waited (status : Except IoError (Option ExitStatus))
  | polled (result : Except IoError Unit)

abbrev Next := Outcome Loop Effect (Except IoError Unit)

def fail (message : String) (effects : List Effect) : Next :=
  .exit (.error (IoError.other message)) effects

/-- The diagnostics that the supervisor writes itself. -/
def wallTimeout (request : Request) : Value :=
  failure request.executionId "wall_timeout"
    "Execution deadline exceeded; dispatched host effects may already have occurred"

def memoryLimit (request : Request) : Value :=
  failure request.executionId "memory_limit" "Guest process memory ceiling exceeded"

def guestExit (request : Request) (status : ExitStatus) : Value :=
  let (kind, message) :=
    if status.code = some 124 then ("instruction_limit", "Ruby instruction budget exceeded")
    else if status.code = some 125 then ("memory_limit", "Ruby allocation budget exceeded")
    else if status.signal = some SIGPROF ∨ status.signal = some SIGXCPU then
      ("cpu_limit", "Ruby CPU budget exceeded")
    else if status.signal = some SIGALRM then
      ("wall_timeout", "Ruby wall deadline exceeded; inspect dispatched effects before retrying")
    else
      ("guest_terminated",
        "Guest terminated without a result; inspect dispatched effects before retrying")
  failure request.executionId kind message

def MEMORY_CEILING : Nat := 256 * 1024 * 1024

section Phases

variable (serde : SerdeJson) (request : Request) (s : Loop)

/-- Never wait on guest exit or host I/O ahead of this watchdog. -/
def deadlinePhase (expired : Bool) : Next :=
  if expired then
    -- a partially delivered frame is left as it is
    if s.toHost.pending then .exit (.ok ()) [.expired, .killed]
    else
      match s.toHost.enqueue serde (wallTimeout request) with
      | (_, .error e) => .exit (.error e) [.expired, .killed]
      | (w, .ok ()) =>
          .next { s with phase := .lastSend, toHost := w }
            [.expired, .killed, .enqueued .host (wallTimeout request)]
  else .next { s with phase := .memory } []

def lastSendPhase (outcome : WriteOutcome) : Next :=
  let sent := s.toHost.send outcome
  .exit sent.result [.sent .host sent.accepted]

def memoryPhase (resident : Option Nat) : Next :=
  if !s.completed && resident.any (fun n => MEMORY_CEILING < n) then
    if s.toHost.pending then fail "Guest memory ceiling exceeded during output" [.killed]
    else
      match s.toHost.enqueue serde (memoryLimit request) with
      | (_, .error e) => .exit (.error e) [.killed]
      | (w, .ok ()) =>
          .next { s with phase := .host, toHost := w, completed := true }
            [.killed, .enqueued .host (memoryLimit request)]
  else .next { s with phase := .host } []

/-- A reply for the guest, or why it is refused. -/
def acceptReply (reply : Value) (effects : List Effect) : Next :=
  if (reply.index "protocol").asStr ≠ some PROTOCOL ∨
      (reply.index "execution_id").asStr ≠ some request.executionId then
    fail "Host identity mismatch" effects
  else if (reply.index "kind").asStr = some "cancel" then
    fail "Execution cancelled; inspect dispatched effects" effects
  else if (reply.index "kind").asStr ≠ some "reply" ∨ s.pendingSequence.isNone ∨
      (reply.index "sequence").asU64 ≠ s.pendingSequence then
    fail "Unexpected host reply" effects
  else
    match s.toGuest.enqueue serde reply with
    | (_, .error e) => .exit (.error e) effects
    | (w, .ok ()) =>
        .next { s with phase := .toGuest, toGuest := w, pendingSequence := none }
          (effects ++ [.enqueued .guest reply])

/-- Host input is consumed even during output backpressure. -/
def hostPhase (outcome : ReadOutcome) : Next :=
  let received := s.host.receive serde outcome
  let took := Effect.took .host received.consumed
  match received.result with
  | .error e => .exit (.error e) [took]
  | .ok none => .next { s with phase := .toGuest, host := received.reader } [took]
  | .ok (some reply) =>
      acceptReply serde request { s with host := received.reader } reply
        [took, .received .host reply]

def toGuestPhase (outcome : WriteOutcome) : Next :=
  let sent := s.toGuest.send outcome
  match sent.result with
  | .error e => .exit (.error e) [.sent .guest sent.accepted]
  | .ok () => .next { s with phase := .toHost, toGuest := sent.writer } [.sent .guest sent.accepted]

def toHostPhase (outcome : WriteOutcome) : Next :=
  let sent := s.toHost.send outcome
  match sent.result with
  | .error e => .exit (.error e) [.sent .host sent.accepted]
  | .ok () =>
      if s.completed && !sent.writer.pending then .exit (.ok ()) [.sent .host sent.accepted]
      else .next { s with phase := .guest, toHost := sent.writer } [.sent .host sent.accepted]

/-- The guest may call: not in a validation, not while a call is outstanding, in
sequence, within the limit, and on a path of the catalog. -/
def mayCall (event : Value) : Bool :=
  !(request.validateOnly
    || s.pendingSequence.isSome
    || decide ((event.index "sequence").asU64 ≠ some (s.sequence + 1))
    || decide (request.limits.calls < s.sequence + 1)
    || !((event.index "path").asStr.any (fun path => request.catalog.any (fun allowed => allowed = path))))

/-- The loop after the kind of an event has been looked at, or why it is refused. -/
def admitEvent (event : Value) : Except IoError Loop :=
  match (event.index "kind").asStr with
  | some "completed" => .ok { s with completed := true }
  | some "log" => .ok s
  | some "call" =>
      if mayCall request s event then
        .ok { s with sequence := s.sequence + 1, pendingSequence := some (s.sequence + 1) }
      else .error (IoError.other "Invalid guest capability request")
  | _ => .error (IoError.other "Unknown guest event")

def acceptEvent (event : Value) (effects : List Effect) : Next :=
  if (event.index "protocol").asStr ≠ some PROTOCOL ∨
      (event.index "execution_id").asStr ≠ some request.executionId then
    fail "Guest identity mismatch" effects
  else
    match admitEvent request s event with
    | .error e => .exit (.error e) effects
    | .ok s =>
        match s.toHost.enqueue serde event with
        | (_, .error e) => .exit (.error e) effects
        | (w, .ok ()) =>
            .next { s with phase := .childExit, toHost := w } (effects ++ [.enqueued .host event])

def guestPhase (outcome : ReadOutcome) : Next :=
  if !s.completed && !s.toHost.pending && !s.guestClosed then
    let received := s.guest.receive serde outcome
    let took := Effect.took .guest received.consumed
    match received.result with
    | .ok (some event) =>
        acceptEvent serde request { s with guest := received.reader } event
          [took, .received .guest event]
    | .ok none => .next { s with phase := .childExit, guest := received.reader } [took]
    | .error e =>
        if e.kind = .unexpectedEof then
          .next { s with phase := .childExit, guest := received.reader, guestClosed := true } [took]
        else .exit (.error e) [took]
  else .next { s with phase := .childExit } []

def childExitPhase (status : Except IoError (Option ExitStatus)) : Next :=
  if s.guestClosed && !s.completed then
    match status with
    | .error e => .exit (.error e) []
    | .ok none => .next { s with phase := .poll } []
    | .ok (some status) =>
        match s.toHost.enqueue serde (guestExit request status) with
        | (_, .error e) => .exit (.error e) []
        | (w, .ok ()) =>
            .next { s with phase := .poll, toHost := w, completed := true }
              [.enqueued .host (guestExit request status)]
  else .next { s with phase := .poll } []

def pollPhase (result : Except IoError Unit) : Next :=
  match result with
  | .ok () => .next { s with phase := .deadline } []
  | .error e =>
      if e.kind = .interrupted then .next { s with phase := .deadline } []
      else .exit (.error e) []

def step (answer : Answer) : Option Next :=
  match s.phase, answer with
  | .deadline, .clock expired => some (deadlinePhase serde request s expired)
  | .lastSend, .write outcome => some (lastSendPhase s outcome)
  | .memory, .resident bytes => some (memoryPhase serde request s bytes)
  | .host, .read outcome => some (hostPhase serde request s outcome)
  | .toGuest, .write outcome => some (toGuestPhase s outcome)
  | .toHost, .write outcome => some (toHostPhase s outcome)
  | .guest, .read outcome => some (guestPhase serde request s outcome)
  | .childExit, .waited status => some (childExitPhase serde request s status)
  | .poll, .polled result => some (pollPhase s result)
  | _, _ => none

end Phases

/-- The loop as it is entered: the request is admitted and waits for the guest. -/
def enter (serde : SerdeJson) (request : Request) : Except String Loop :=
  match request.validate with
  | .error message => .error message
  | .ok () =>
      match (({} : Writer)).enqueue serde request.toValue with
      | (_, .error e) => .error e.message
      | (w, .ok ()) => .ok { toGuest := w }

def machine (serde : SerdeJson) (request : Request) :
    Machine Loop Answer Effect (Except IoError Unit) where
  start s history :=
    enter serde request = .ok s ∧ history = [.enqueued .guest request.toValue]
  step := step serde request

end Supervisor

end RubyEngine
