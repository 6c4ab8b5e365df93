import RubyEngine.Guest.Frames
import RubyEngine.Isolation.Enter
import RubyEngine.Supervisor

/-!
# The guest process

`main` in guest mode, from the first byte on standard input to the exit code. The process
reads and writes with blocking calls, the virtual machine decides when a native method
is called and how the program ends, and the system may end the process at any time. A
read may bring more than a frame; what is not used stays for the next one.
-/
namespace RubyEngine.Guest.Process

open Json (Value)
open Transition (Outcome Machine)
open Isolation (Target Syscall Call Response)

/-! ## Native methods -/

/-- A call of a native method that may cross into Rust. The arguments are a new array. -/
inductive Invocation where
  | dispatch (before name : Bytes) (args : Nat)
  | call (path : Bytes) (args : Nat)
  | capture (args : Nat)
  | parse (text : Bytes)

/-- What the C code makes of a call: it returns to the program or makes a callback. -/
inductive Invoked where
  | path (path : Bytes)
  | exchanged (sent : Except Exception Callback)

def argumentsAt (heap : Heap) (address : Nat) : Option (List MrbValue) :=
  match heap address with
  | .array items => some items
  | _ => none

def Invocation.invoked (request : Request) (heap : Heap) : Invocation → Option Invoked
  | .dispatch before name args => do
      match appDispatch heap request.limits.resultBytes (pathsOf request) before name
        (← argumentsAt heap args) with
      | .exchanged sent => some (.exchanged sent)
      | .path path => some (.path path)
  | .call path args => do
      return .exchanged (appCall heap request.limits.resultBytes (pathsOf request) path
        (← argumentsAt heap args))
  | .capture args => do
      return .exchanged (exchange .log []
        (encodeArray heap request.limits.resultBytes (← argumentsAt heap args)))
  | .parse text =>
      some (.exchanged (exchange .json []
        (encode heap request.limits.resultBytes [] (.string text) 0)))

/-! ## The process -/

inductive Phase where
  /-- In `read_frame` of the request. -/
  | starting
  /-- In `isolation::enter`, with the calls that are left. -/
  | entering (request : Request) (calls : List Call)
  /-- The virtual machine has control. -/
  | running (request : Request) (host : Host)
  /-- In `write_frame` of a log or of a call, with what is left of the frame. -/
  | printing (request : Request) (host : Host) (call : Bool) (rest : Bytes)
  /-- In `read_frame` of the reply. -/
  | awaiting (request : Request) (host : Host)
  /-- In `write_frame` of the terminal event, of a completed execution or of a failure. -/
  | finishing (execution : String) (completed : Bool) (rest : Bytes)

structure State where
  phase : Phase := .starting
  /-- What has been read from standard input and not been used. -/
  input : Bytes := []
  /-- A write has failed. A pipe that is broken stays so. -/
  broken : Bool := false

inductive Answer where
  /-- The process needs nothing to go on. -/
  | goes
  | read (outcome : ReadOutcome)
  | write (outcome : WriteOutcome)
  | system (response : Response)
  | invokes (heap : Heap) (invocation : Invocation)
  /-- The protected run ends, with the meters of the virtual machine and of the process. -/
  | ends (heap : Heap) (trace : Option (List MrbValue)) (peakMemory instructions : Nat)
      (ended : Ended) (cpuMs : Option UInt64)
  /-- `_exit` of a budget, or a signal. -/
  | dies (status : ExitStatus)

inductive Effect where
  | took (bytes : Bytes)
  | sent (bytes : Bytes)
  | called (call : Call) (response : Response)
  /-- A value is handed to `write_frame`. -/
  | printed (value : Value)
  /-- A value comes out of `read_frame`. -/
  | heard (value : Value)
  /-- A frame cannot be read. -/
  | unread
  /-- What a native method returns to the program. -/
  | returned (result : Except Trap Ruby)

abbrev Next := Outcome State Effect ExitStatus

/-! ## Reading -/

inductive Front where
  | more
  | failed (rest : Bytes)
  | value (v : Value) (rest : Bytes)

/-- `read_frame` on what has been read, and what it uses of it. -/
def front (serde : SerdeJson) (input : Bytes) : Front :=
  match readFrame serde input with
  | .ok (v, rest) => .value v rest
  | .error e =>
      if e = shortRead then .more
      else
        let size := fromBe32 (input.take 4)
        .failed (if size = 0 ∨ MAX_FRAME < size then input.drop 4 else input.drop (4 + size))

/-- A read for a frame that is not there yet: more of it, or the end of the wait. -/
def received (s : State) (failed : State → List Effect → Next) : ReadOutcome → Next
  | .data [] => failed { s with input := [] } [.unread]
  | .data bytes => .next { s with input := s.input ++ bytes } [.took bytes]
  | .failed e =>
      if e.kind = .interrupted then .next s [] else failed { s with input := [] } [.unread]

/-! ## Steps -/

section

variable (serde : SerdeJson) (target : Target) (number : Syscall → Int64)

/-- The checks of `run` ahead of the native call. -/
def prepare (request : Request) : Except String Unit := do
  request.validate
  let _ ← Tree.new request.globals.doc
  let _ ← Tree.new (.array (request.catalog.map Json.Doc.string))
  if '\x00' ∈ request.filename.toList then .error "Invalid source name" else .ok ()

/-- The terminal event is written as far as it can be. -/
def finish (s : State) (execution : String) (completed : Bool) (value : Value)
    (effects : List Effect) : Next :=
  match writeFrame serde value with
  | .ok bytes =>
      .next { s with phase := .finishing execution completed bytes } (effects ++ [.printed value])
  | .error _ => .next { s with phase := .finishing execution completed [] } effects

/-- `main` behind an error: its frame is the last thing, whether it fits or not. -/
def fail (s : State) (execution message : String) (effects : List Effect) : Next :=
  finish serde s execution false (failure execution "engine_error" message) effects

/-- The request is there. -/
def begin (s : State) (value : Value) (effects : List Effect) : Next :=
  match Request.ofValue value with
  | none => fail serde s "" (serde.rejection value) effects
  | some request =>
      match request.validate with
      | .error message => fail serde s request.executionId message effects
      | .ok () =>
          let calls := Isolation.policy target number request.limits.wallMs request.limits.cpuMs
          .next { s with phase := .entering request calls } effects

def starting (s : State) (answer : Answer) : Option Next :=
  match front serde s.input, answer with
  | .value v rest, .goes => some (begin serde target number { s with input := rest } v [.heard v])
  | .failed rest, .goes =>
      some (fail serde { s with input := rest } "" "Invalid initial frame" [.unread])
  | .more, .read outcome =>
      some (received s (fun s effects => fail serde s "" "Invalid initial frame" effects) outcome)
  | _, _ => none

def entering (s : State) (request : Request) : List Call → Answer → Option Next
  | [], .goes =>
      match prepare request with
      | .error message => some (fail serde s request.executionId message [])
      | .ok () => some (.next { s with phase := .running request (.new request) } [])
  | call :: rest, .system response =>
      (Isolation.respond call rest response).map (fun
        | .error e => fail serde s request.executionId e.message [.called call response]
        | .ok calls => .next { s with phase := .entering request calls } [.called call response])
  | _, _ => none

/-- The program goes on with what a native method returns. -/
def resume (s : State) (request : Request) (host : Host) (result : Except Trap Ruby)
    (effects : List Effect) : Next :=
  .next { s with phase := .running request host } (effects ++ [.returned result])

def hostProtocol : Except Trap Ruby := .error (.raised .hostProtocol)

/-- An event is to be written. -/
def print (s : State) (request : Request) (host : Host) (call : Bool) (event : Value) : Next :=
  match writeFrame serde event with
  | .error _ => resume s request host hostProtocol []
  | .ok bytes => .next { s with phase := .printing request host call bytes } [.printed event]

def callback (s : State) (request : Request) (host : Host) (callback : Callback) : Next :=
  match host.turn serde callback.kind callback.path callback.json with
  | (host, .failed) => resume s request host hostProtocol []
  | (host, .answer response) => resume s request host (conclude response) []
  | (host, .log event) => print serde s request host false event
  | (host, .call event) => print serde s request host true event

/-- `guest::run` behind the native call. -/
def conclusive (s : State) (request : Request) (host : Host) (native : NativeResult)
    (cpuMs : Option UInt64) : Next :=
  match conclusion serde request host native cpuMs with
  | .error message => fail serde s request.executionId message []
  | .ok event =>
      match writeFrame serde event with
      | .error e => fail serde s request.executionId e.message []
      | .ok bytes =>
          .next { s with phase := .finishing request.executionId true bytes } [.printed event]

/-- A validation ends ahead of the program, and everything else in it or behind it. -/
def Ended.possible (validateOnly : Bool) : Ended → Bool
  | .validated => validateOnly
  | .returned _ => !validateOnly
  | .unopened | .unparsed _ _ _ | .refused _ | .raised _ => true

def running (s : State) (request : Request) (host : Host) : Answer → Option Next
  | .invokes heap invocation =>
      if request.validateOnly then none
      else
        (invocation.invoked request heap).map (fun
          | .path _ => .next s []
          | .exchanged (.error e) => resume s request host (.error (.raised e)) []
          | .exchanged (.ok sent) => callback serde s request host sent)
  | .ends heap trace peakMemory instructions ended cpuMs =>
      if Ended.possible request.validateOnly ended then
        some (conclusive serde s request host
          (rubyExecute request heap trace peakMemory instructions ended) cpuMs)
      else none
  | _ => none

/-- A write of what is left of a frame. -/
def wrote (s : State) (rest : Bytes) (going : State → Bytes → List Effect → Next)
    (failed : State → Next) : Answer → Option Next
  | .goes => if s.broken then some (failed s) else none
  | .write (.room n) =>
      if s.broken then none
      else if n = 0 then some (failed { s with broken := true })
      else some (going s (rest.drop n) [.sent (rest.take n)])
  | .write (.failed e) =>
      if s.broken then none
      else if e.kind = .interrupted then some (.next s [])
      else some (failed { s with broken := true })
  | _ => none

def printing (s : State) (request : Request) (host : Host) (call : Bool) (rest : Bytes) :
    Answer → Option Next :=
  wrote s rest
    (fun s rest effects =>
      if rest ≠ [] then .next { s with phase := .printing request host call rest } effects
      else if call then .next { s with phase := .awaiting request host } effects
      else resume s request host (conclude logged) effects)
    (fun s => resume s request host hostProtocol [])

def awaiting (s : State) (request : Request) (host : Host) (answer : Answer) : Option Next :=
  match front serde s.input, answer with
  | .value v rest, .goes =>
      some (resume { s with input := rest } request host
        (if host.accepts v then conclude v else hostProtocol) [.heard v])
  | .failed rest, .goes =>
      some (resume { s with input := rest } request host hostProtocol [.unread])
  | .more, .read outcome =>
      some (received s (fun s effects => resume s request host hostProtocol effects) outcome)
  | _, _ => none

def exitCode (completed : Bool) : ExitStatus := .exited (if completed then 0 else 1)

def finishing (s : State) (execution : String) (completed : Bool) (rest : Bytes)
    (answer : Answer) : Option Next :=
  if rest = [] then
    match answer with
    | .goes => some (.exit (exitCode completed) [])
    | _ => none
  else
    wrote s rest
      (fun s rest effects => .next { s with phase := .finishing execution completed rest } effects)
      (fun _ => .exit (exitCode false) []) answer

def step (s : State) (answer : Answer) : Option Next :=
  match answer with
  | .dies status => some (.exit status [])
  | answer =>
      match s.phase with
      | .starting => starting serde target number s answer
      | .entering request calls => entering serde s request calls answer
      | .running request host => running serde s request host answer
      | .printing request host call rest => printing s request host call rest answer
      | .awaiting request host => awaiting serde s request host answer
      | .finishing execution completed rest => finishing s execution completed rest answer

def machine : Machine State Answer Effect ExitStatus where
  start s history := s = {} ∧ history = []
  step := step serde target number

end

end RubyEngine.Guest.Process
