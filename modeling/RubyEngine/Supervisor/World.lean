import RubyEngine.Serde.Floats
import RubyEngine.Supervisor.Capability
import RubyEngine.Supervisor.Disconnect
import RubyEngine.Supervisor.Relay
import RubyEngine.Supervisor.Replies
import RubyEngine.Transition.Liveness

/-!
# A guest that dies and a host that stays

The guest writes any bytes at any time, with no completed event among them, and ends at
some moment. The host writes the replies that it owes and keeps reading. Both are given
by what they write in all; what the loop can see of it at a step depends on how far it is.
-/
namespace RubyEngine.Supervisor

open Json (Value)
open Transition (Machine)
open Capability (Numbered callsOf)
open Disconnect (badLength completes cutShort readsGuest)

/-- The values of the whole frames of a stream. A frame without a value is passed over, and a
length that is out of range ends the stream. -/
def eventsIn (serde : SerdeJson) (stream : Bytes) : List Value :=
  (Framing.wholes MAX_FRAME stream).filterMap fun payload => (serde.fromSlice payload).toOption

/-- What the two peers write, and when and how the guest ends. -/
structure World (serde : SerdeJson) (request : Request) where
  /-- All that the guest writes. -/
  output : Bytes
  unfinished : ∀ v ∈ eventsIn serde output, (v.index "kind").asStr ≠ some "completed"
  /-- The step of the loop before which the guest ends. -/
  death : Nat
  status : ExitStatus
  replies : List Value
  input : Bytes
  answered : Stream serde replies input
  addressed : ∀ v ∈ replies, ((v.index "protocol").asStr = some PROTOCOL ∧
    (v.index "execution_id").asStr = some request.executionId) ∧
    (v.index "kind").asStr = some "reply"
  inOrder : Numbered replies

def brokenPipe : IoError := ⟨.brokenPipe, "Broken pipe"⟩

/-- The descriptor takes a byte or asks for another try. -/
def takes : WriteOutcome → Bool
  | .room n => n ≠ 0
  | .failed e => e.transient

/-- The event has the identity of the execution, and it is a log or a call that may be made. -/
def conforms (request : Request) (s : Loop) (event : Value) : Bool :=
  decide ((event.index "protocol").asStr = some PROTOCOL) &&
    decide ((event.index "execution_id").asStr = some request.executionId) &&
    (decide ((event.index "kind").asStr = some "log") ||
      decide ((event.index "kind").asStr = some "call") && mayCall request s event)

namespace World

variable {serde : SerdeJson} {request : Request} (w : World serde request)

/-- The whole events of the guest. -/
def events : List Value := eventsIn serde w.output

/-! ## What the loop meets -/

/-- A byte of a reply shows only when a call is unanswered. -/
def hostShows (past : List Effect) : ReadOutcome → Bool
  | .failed e => e.transient
  | .data waiting =>
      !waiting.isEmpty && (tookFrom .host past ++ waiting).isPrefixOf w.input &&
        decide ((receivedFrom .host past).length < (callsOf past).length)

/-- More of the output shows at any time, and its end behind all of it. -/
def guestShows (past : List Effect) : ReadOutcome → Bool
  | .failed e => e.transient
  | .data waiting =>
      if waiting.isEmpty then decide (tookFrom .guest past = w.output)
      else (tookFrom .guest past ++ waiting).isPrefixOf w.output

/-- The answers of the system in this world: the deadline and the memory ceiling are
out of reach, and a pipe to a dead guest is broken. -/
def allows (n : Nat) (s : Loop) (past : List Effect) (answer : Answer) : Bool :=
  match s.phase, answer with
  | .deadline, .clock expired => !expired
  | .memory, .resident bytes => !bytes.any (fun n => MEMORY_CEILING < n)
  | .host, .read outcome => w.hostShows past outcome
  | .toGuest, .write outcome =>
      !s.toGuest.pending || if w.death ≤ n then outcome = .failed brokenPipe else takes outcome
  | .toHost, .write outcome => !s.toHost.pending || takes outcome
  | .guest, .read outcome => !readsGuest s || w.guestShows past outcome
  | .childExit, .waited (.ok (some status)) => decide (w.death ≤ n) && decide (status = w.status)
  | .childExit, .waited (.ok none) => true
  | .poll, .polled (.ok ()) => true
  | .poll, .polled (.error e) => e.kind = .interrupted
  | _, _ => false

end World

/-! ## What goes wrong -/

/-- A reply is read whole that does not fit into a frame again, or while bytes for the guest are
still pending. -/
def blocked (serde : SerdeJson) (s : Loop) : Answer → Bool
  | .read outcome =>
      decide (s.phase = .host) && (completes s.host outcome).any (fun payload =>
        match serde.fromSlice payload with
        | .ok v => s.toGuest.pending || decide (MAX_FRAME < (serde.toVec v).length)
        | .error _ => false)
  | _ => false

/-- The guest has announced a length that is out of range, or a frame of it is read whole that
holds no JSON text, or no event that conforms, or one that does not fit into a frame again. -/
def flawed (serde : SerdeJson) (request : Request) (s : Loop) : Answer → Bool
  | .read outcome =>
      readsGuest s && (badLength s.guest || (completes s.guest outcome).any (fun payload =>
        match serde.fromSlice payload with
        | .ok v => !conforms request s v || decide (MAX_FRAME < (serde.toVec v).length)
        -- a text that ends early is taken for the end of the output
        | .error e => decide (e.category ≠ .eof)))
  | _ => false

namespace World

variable {serde : SerdeJson} {request : Request} (w : World serde request)

/-- Bytes for the guest are pending when it has ended. -/
def stranded (n : Nat) (s : Loop) : Bool :=
  decide (s.phase = .toGuest) && decide (w.death ≤ n) && s.toGuest.pending

/-- A frame of the guest is read whose text ends early, and an event is still to come. -/
def loses (s : Loop) (past : List Effect) (answer : Answer) : Bool :=
  cutShort serde s answer && decide ((receivedFrom .guest past).length < w.events.length)

/-- The step ends the loop with an error. -/
def fails (n : Nat) (s : Loop) (answer : Answer) : Bool :=
  w.stranded n s || blocked serde s answer || flawed serde request s answer

/-- The step goes wrong. -/
def strikes (n : Nat) (s : Loop) (past : List Effect) (answer : Answer) : Bool :=
  w.fails n s answer || w.loses s past answer

/-! ## Runs -/

/-- A run of the loop in a world that keeps the promises of the system: the host drains
what is sent to it, the output of a dead guest can be read, and its status collected. -/
structure Run (s : Loop) (answers : Nat → Answer) : Prop where
  allowed : ∀ n t past, (machine serde request).trace s [.enqueued .guest request.toValue]
    answers n = .running t past → w.allows n t past (answers n) = true
  drains : (machine serde request).Recurs s [.enqueued .guest request.toValue] answers
    (fun t answer => t.phase = .toHost ∧ ∃ n, 0 < n ∧ answer = .write (.room n))
  readable : (machine serde request).Recurs s [.enqueued .guest request.toValue] answers
    (fun t answer => t.phase = .guest ∧ ∃ waiting, answer = .read (.data waiting))
  reaps : (machine serde request).Recurs s [.enqueued .guest request.toValue] answers
    (fun t answer => t.phase = .childExit ∧ ∃ status, answer = .waited (.ok (some status)))

/-- The run returns well, and its terminal event is the failure that the status stands
for, behind every whole event of the guest. -/
def Classified (s : Loop) (answers : Nat → Answer) : Prop :=
  ∃ n last, (machine serde request).trace s [.enqueued .guest request.toValue] answers n =
      .ended (.ok ()) last ∧
    enqueuedTo .host last = w.events ++ [guestExit request w.status] ∧
    sentTo .host last = wire serde (w.events ++ [guestExit request w.status])

end World

end RubyEngine.Supervisor
