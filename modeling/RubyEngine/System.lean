import RubyEngine.Guest.Process.Pace
import RubyEngine.Supervisor.Replies
import RubyEngine.Transition.Composition

/-!
# The three processes

The supervisor, the guest that it has started and the program that has started both, with
the four pipes between them. They take turns in any order. What a party can read of a pipe
is what the other has written and it has not taken; a pipe ends with the process that
writes it and does not fail. The caller is honest: it answers each call that it reads
once, and writes nothing else.
-/
namespace RubyEngine

open Json (Value)
open Transition (Machine)
open Transition.Machine (Position)
open Isolation (Target Syscall)
open Supervisor (Loop decodedFrames sentTo tookFrom)
open Supervisor.Capability (isCall)
open Guest (Process.machine Process.took Process.sent)

/-! ## The caller -/

structure Caller where
  /-- What it has read of the standard output of the engine. -/
  took : Bytes := []
  /-- Its replies, each with the payload that spells it. -/
  replies : List (Bytes × Value) := []
  /-- What it has written of their frames. -/
  sent : Bytes := []

/-- The calls in the frames that it has read as a whole. -/
def Caller.calls (serde : SerdeJson) (c : Caller) : List Value :=
  (decodedFrames serde c.took).filter isCall

/-- The stream of all replies. -/
def Caller.stream (c : Caller) : Bytes := Framing.concat (c.replies.map Prod.fst)

/-- A reply to a call that the supervisor can pass on in one frame. -/
structure Replies (serde : SerdeJson) (call : Value) (payload : Bytes) (v : Value) : Prop where
  parsed : serde.fromSlice payload = .ok v
  fits : Framing.Fits MAX_FRAME payload
  forwarded : (serde.toVec v).length ≤ MAX_FRAME
  protocol : (v.index "protocol").asStr = some PROTOCOL
  identity : v.index "execution_id" = call.index "execution_id"
  sequence : v.index "sequence" = call.index "sequence"
  kind : (v.index "kind").asStr = some "reply"
  ok : (v.index "ok").isBoolean = true

/-- A turn of the caller, where so much has been written for it. -/
inductive Caller.Step (serde : SerdeJson) (offered : Bytes) (c : Caller) : Caller → Prop where
  | read (bytes : Bytes) : c.took ++ bytes <+: offered →
      Caller.Step serde offered c { c with took := c.took ++ bytes }
  | reply (call : Value) (payload : Bytes) (v : Value) :
      (c.calls serde)[c.replies.length]? = some call → Replies serde call payload v →
      Caller.Step serde offered c { c with replies := c.replies ++ [(payload, v)] }
  | write (n : Nat) : Caller.Step serde offered c
      { c with sent := c.sent ++ (c.stream.drop c.sent.length).take n }

/-! ## All of them -/

structure System where
  loop : Position Loop Supervisor.Effect (Except IoError Unit)
  guest : Position Guest.Process.State Guest.Process.Effect ExitStatus
  caller : Caller

namespace System

/-- What the supervisor can find in the pipe of the caller, which may be closed at any time. -/
def HostShows (σ : System) (bytes : Bytes) : Prop :=
  bytes = [] ∨ tookFrom .host σ.loop.history ++ bytes <+: σ.caller.sent

/-- What the supervisor can find in the pipe of the guest. -/
def GuestShows (σ : System) (bytes : Bytes) : Prop :=
  if bytes = [] then
    σ.guest.result ≠ none ∧ tookFrom .guest σ.loop.history = Process.sent σ.guest.history
  else tookFrom .guest σ.loop.history ++ bytes <+: Process.sent σ.guest.history

/-- What a read of the supervisor can find. -/
def LoopReads (σ : System) (s : Loop) : Supervisor.Answer → Prop
  | .read (.data bytes) =>
      (s.phase = .host → σ.HostShows bytes) ∧ (s.phase = .guest → σ.GuestShows bytes)
  -- no error number stands for the end of a file
  | .read (.failed e) => e.kind ≠ .unexpectedEof
  | _ => True

/-- What a read of the guest can find. -/
def GuestReads (σ : System) : Guest.Process.Answer → Prop
  | .read (.data bytes) =>
      if bytes = [] then
        σ.loop.result ≠ none ∧ Process.took σ.guest.history = sentTo .guest σ.loop.history
      else Process.took σ.guest.history ++ bytes <+: sentTo .guest σ.loop.history
  | .read (.failed e) => e.kind = .interrupted
  | _ => True

section

variable (serde : SerdeJson) (target : Target) (number : Isolation.Syscall → Int64)
  (request : Request)

inductive Step (σ : System) : System → Prop where
  | loop (answer : Supervisor.Answer) :
      (∀ s history, σ.loop = .running s history → σ.LoopReads s answer) →
      Step σ { σ with loop := (Supervisor.machine serde request).advance σ.loop answer }
  | guest (answer : Guest.Process.Answer) : σ.GuestReads answer →
      Step σ { σ with guest := (Process.machine serde target number).advance σ.guest answer }
  | caller (c : Caller) : Caller.Step serde (sentTo .host σ.loop.history) σ.caller c →
      Step σ { σ with caller := c }

/-- A request has been read, and the guest has been started for it. -/
structure Start (σ : System) : Prop where
  read : ∃ payload v, serde.fromSlice payload = .ok v ∧ Request.ofValue v = some request
  loop : ∃ s, Supervisor.enter serde request = .ok s ∧
    σ.loop = .running s [.enqueued .guest request.toValue]
  guest : σ.guest = .running {} []
  caller : σ.caller = {}

inductive Reachable : System → Prop where
  | start {σ : System} : Start serde request σ → Reachable σ
  | step {σ τ : System} : Reachable σ → Step serde target number request σ τ → Reachable τ

end

end System

end RubyEngine
