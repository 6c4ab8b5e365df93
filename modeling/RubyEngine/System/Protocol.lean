import RubyEngine.System.Quiescence

/-!
# The protocol of the three processes

What the guest, the supervisor and an honest caller agree on in every state that they can
come to: none of them blames another, each reply is heard by the call that it answers, no call
is lost, doubled or put out of order, and the terminal event counts them all.
-/
namespace RubyEngine.System

open Json (Number Value)
open Transition (Outcome Machine)
open Transition.Machine (Position At)
open Supervisor
open Supervisor.Capability (callsOf isCall)
open Guest.Process (Reports front printed sent)

variable {serde : SerdeJson} {target : Isolation.Target} {number : Isolation.Syscall → Int64}
  {request : Request} {f : UInt64 → Number} {σ : System}

/-! ## The end of the loop -/

/-- The error that the system reports with an answer. -/
def reported : Supervisor.Answer → Option IoError
  | .read (.failed e) | .write (.failed e) | .waited (.error e) | .polled (.error e) => some e
  | _ => none

/-- The loop has ended in this error at a step to which the system gave this answer. -/
def EndedBy (serde : SerdeJson) (target : Isolation.Target)
    (number : Isolation.Syscall → Int64) (request : Request) (answer : Supervisor.Answer)
    (e : IoError) (history : List Effect) : Prop :=
  ∃ (τ : System) (s : Loop) (before effects : List Effect),
    Reachable serde target number request τ ∧ τ.loop = .running s before ∧
      τ.LoopReads s answer ∧ step serde request s answer = some (.exit (.error e) effects) ∧
      history = before ++ effects

theorem EndedBy.fault {answer : Supervisor.Answer} {e : IoError} {history : List Effect}
    (hd : serde.Documented) (h : EndedBy serde target number request answer e history) :
    Fault answer e := by
  obtain ⟨τ, s, before, effects, hreach, hbefore, hreads, hexit, -⟩ := h
  obtain ⟨f, hf⟩ := hd.numeric.rereads
  obtain ⟨ha, hjoined⟩ := joined_reachable hd hreach
  exact (hjoined f hf).fault hd hf ha hbefore hreads hexit

end RubyEngine.System
