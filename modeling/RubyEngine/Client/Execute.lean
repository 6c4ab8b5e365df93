import RubyEngine.Client.Values
import RubyEngine.Framing
import RubyEngine.Transition

/-!
# `Client::execute`

One step is a checkpoint with the system call behind it, or a closure of the
application. The answers of a step are what the world does there: the clock, the
cancellation check, the engine's pipes and the provider's code. The frames that go
out and the invocations are the effects, and every exception ends in an `Execution`.
Process cleanup and the measured time are left out.
-/
namespace RubyEngine.Client.Execute

open Json (Doc Integer)
open Transition (Outcome Machine)

/-! ## Arguments and result -/

/-- The arguments, and the identity that is drawn for them. -/
structure Invocation where
  executionId : String
  source : Bytes
  capabilities : List Bytes := []
  globals : List (Bytes × Provided) := []
  validateOnly : Bool := false
  limits : List (String × Integer) := []
  filename : Bytes := utf8 "opencompany-code.rb"

def defaultLimits : List (String × Integer) :=
  [("memory_bytes", ⟨32 * 1024 * 1024, by decide⟩), ("instructions", ⟨10000000, by decide⟩),
    ("wall_ms", ⟨5000, by decide⟩), ("cpu_ms", ⟨1000, by decide⟩),
    ("source_bytes", ⟨256 * 1024, by decide⟩), ("result_bytes", ⟨1024 * 1024, by decide⟩),
    ("calls", ⟨50, by decide⟩), ("log_bytes", ⟨64 * 1024, by decide⟩)]

/-- `array_replace` -/
def arrayReplace (defaults given : List (String × Integer)) : List (String × Integer) :=
  defaults.map (fun e => (e.1, (SortedMap.lookup e.1 given).getD e.2)) ++
    given.filter (fun e => e.1 ∉ defaults.map Prod.fst)

namespace Invocation

variable (inv : Invocation)

def allLimits : List (String × Integer) := arrayReplace defaultLimits inv.limits

/-- `$limits[$name]`, for a name that has a default. -/
def limit (name : String) : Int := ((SortedMap.lookup name inv.allLimits).map Subtype.val).getD 0

end Invocation

inductive Diagnostic where
  /-- The members of the diagnostic in the completed event. -/
  | engine (entries : List (String × Doc))
  /-- `host_transport_error` -/
  | transport (message : Bytes)
  deriving DecidableEq

structure Execution where
  executionId : String
  result : Doc
  error : Option Diagnostic
  logs : List (List Doc)
  usage : Doc
  validatedOnly : Bool
  deriving DecidableEq

/-! ## State -/

inductive Place where
  | opening
  /-- In `writeFrame`, with the bytes that are left. -/
  | writing (rest : Bytes)
  /-- In `readFrame`, at the length. -/
  | header (got : Bytes)
  | payload (length : Nat) (got : Bytes)
  /-- At the checkpoint before a closure. -/
  | checking (path : String) (args : List Doc)
  | calling (path : String) (args : List Doc)
  deriving DecidableEq

structure Vars where
  logs : List (List Doc) := []
  logBytes : Nat := 0
  sequence : Nat := 0
  deriving DecidableEq

structure State where
  place : Place
  vars : Vars := {}
  deriving DecidableEq

inductive Effect where
  | wrote (bytes : Bytes)
  | read (bytes : Bytes)
  | invoked (path : String) (args : List Doc)
  deriving DecidableEq

/-- What a checkpoint finds: the result of the cancellation check, if it does not throw,
and the clock. -/
structure Check where
  cancelled : Option Bool := some false
  expired : Bool := false

inductive Answer where
  | opened (ok : Bool)
  /-- `fwrite` and then `feof`. -/
  | wrote (check : Check) (written : Option Nat) (closed : Bool)
  /-- `fread` and then `feof`. -/
  | read (check : Check) (chunk : Option Bytes) (ended : Bool)
  | checked (check : Check)
  | returned (value : Provided)
  | threw (e : Thrown)

/-! ## Exceptions -/

/-- What `execute` reports of an exception. -/
def report : Thrown → Bytes
  | .json _ => utf8 "Invalid structured data at the engine boundary."
  | .capability failure => failure.message
  | .other message => message

def execution (inv : Invocation) (vars : Vars) (e : Thrown) : Execution where
  executionId := inv.executionId
  result := .null
  error := some (.transport (report e))
  logs := vars.logs
  usage := .array []
  validatedOnly := inv.validateOnly

def checkpoint (check : Check) : Except Thrown Unit :=
  match check.cancelled with
  | none => .error (.runtime
      "Host cancellation state is unavailable; execution stopped safely.")
  | some true => .error (.runtime "Ruby execution cancelled; inspect any dispatched effects.")
  | some false =>
      if check.expired then
        .error (.runtime "Ruby host deadline exceeded; inspect any dispatched effects.")
      else .ok ()

/-! ## Frames -/

def text (s : String) : Provided := .string (utf8 s)

def member (name : String) (value : Provided) : Bytes × Provided := (utf8 name, value)

def request (inv : Invocation) : Provided :=
  .table [member "protocol" (text PROTOCOL), member "profile" (text PROFILE),
    member "execution_id" (text inv.executionId), member "source" (.string inv.source),
    member "filename" (.string inv.filename), member "validate_only" (.bool inv.validateOnly),
    member "globals" (.table inv.globals),
    member "catalog" (.list (inv.capabilities.map Provided.string)),
    member "limits" (.table (inv.allLimits.map (fun e => member e.1 (.int e.2))))]

/-- The fields of a reply, from what the closure returned or threw. -/
def replyFields : Except Thrown Provided → List (Bytes × Provided)
  | .ok value => [member "ok" (.bool true), member "value" value]
  | .error (.capability failure) => [member "ok" (.bool false),
      member "code" (.string failure.errorType), member "message" (.string failure.message)]
  | .error _ => [member "ok" (.bool false),
      member "message" (text "Capability failed; inspect the host trace before retrying.")]

def reply (inv : Invocation) (sequence : Nat) (fields : List (Bytes × Provided)) : Provided :=
  .table ([member "protocol" (text PROTOCOL), member "execution_id" (text inv.executionId),
    member "kind" (text "reply"), member "sequence" (.int (Integer.wrap sequence))] ++ fields)

/-- The bytes of `writeFrame`. -/
def outgoing (php : Php) (value : Provided) : Except Thrown Bytes := do
  let d ← encode 0 value
  let json := php.frameStyle.render d
  if MAX_FRAME < json.length then .error (.runtime "Engine frame exceeds the byte limit.")
  else .ok (Framing.frame json)

/-- The value of a payload. -/
def incoming (php : Php) (payload : Bytes) : Except Thrown Doc :=
  match php.decode payload with
  | none => .error (.json (utf8 "Syntax error"))
  | some (.object entries) => .ok (.object entries)
  | some _ => .error (.runtime "Engine event must be an object.")

/-! ## Events -/

inductive After where
  | listen (vars : Vars)
  | call (vars : Vars) (path : String) (args : List Doc)
  | finish (execution : Execution)

/-- A case of a `switch`, which compares as `==` does. -/
def isCase (kind : Doc) (label : String) : Bool := kind = .string label || kind = .bool true

def onLogEvent (php : Php) (inv : Invocation) (vars : Vars) (event : Doc) : Except Thrown After :=
  match event.index "values" with
  | .array values => do
      let json ← php.encodeRead (.array values)
      let logBytes := vars.logBytes + json.length
      if inv.limit "log_bytes" < logBytes then .error (.runtime "Engine log budget exceeded.")
      else .ok (.listen { vars with logBytes, logs := vars.logs ++ [values] })
  | _ => .error (.runtime "Malformed engine log.")

def invalidCall : Thrown := .runtime "Invalid or unavailable engine capability request."

def onCallEvent (inv : Invocation) (vars : Vars) (event : Doc) : Except Thrown After :=
  let sequence := vars.sequence + 1
  if inv.validateOnly ∨ (event.index "sequence").asU64 ≠ some sequence ∨
      inv.limit "calls" < sequence then .error invalidCall
  else
    match event.index "path", event.index "args" with
    | .string path, .array args =>
        if utf8 path ∈ inv.capabilities then .ok (.call { vars with sequence } path args)
        else .error invalidCall
    | _, _ => .error invalidCall

/-- `(array) ($value ?? [])`, an object standing for an array with names. -/
def toArray : Doc → Doc
  | .null => .array []
  | .array items => .array items
  | .object entries => .object entries
  | d => .array [d]

def onCompleted (inv : Invocation) (vars : Vars) (event : Doc) : Except Thrown After :=
  let done (error : Option Diagnostic) : After := .finish
    { executionId := inv.executionId, result := event.index "result", error, logs := vars.logs,
      usage := toArray (event.index "usage"), validatedOnly := inv.validateOnly }
  match event.index "error" with
  | .null => .ok (done none)
  | .object entries => .ok (done (some (.engine entries)))
  | _ => .error (.runtime "Malformed engine diagnostic.")

/-- One event, up to the end of its case or the checkpoint in it. -/
def onEvent (php : Php) (inv : Invocation) (vars : Vars) (event : Doc) : Except Thrown After :=
  if (event.index "protocol").asStr ≠ some PROTOCOL ∨
      (event.index "execution_id").asStr ≠ some inv.executionId then
    .error (.runtime "Ruby engine identity/protocol mismatch.")
  else if isCase (event.index "kind") "log" then onLogEvent php inv vars event
  else if isCase (event.index "kind") "call" then onCallEvent inv vars event
  else if isCase (event.index "kind") "completed" then onCompleted inv vars event
  else .error (.runtime "Unknown engine protocol event.")

/-! ## Steps -/

section Step

variable (php : Php) (inv : Invocation)

abbrev Stepped := Option (Outcome State Effect Execution)

/-- Go on at a place, or end with an exception. -/
def resume (vars : Vars) (effects : List Effect) (next : Except Thrown Place) :
    Outcome State Effect Execution :=
  match next with
  | .ok place => .next ⟨place, vars⟩ effects
  | .error e => .exit (execution inv vars e) effects

def inputClosed : Thrown := .runtime "Ruby engine input closed."

/-- One turn of the loop in `writeFrame`. -/
def onWrite (vars : Vars) (rest : Bytes) (check : Check) (written : Option Nat) (closed : Bool) :
    Stepped :=
  match checkpoint check, written with
  | .error e, _ => some (resume inv vars [] (.error e))
  | .ok (), none => some (resume inv vars [] (.error inputClosed))
  | .ok (), some n =>
      if min rest.length 65536 < n then none
      else if closed then some (resume inv vars [.wrote (rest.take n)] (.error inputClosed))
      else if rest.length ≤ n then some (resume inv vars [.wrote rest] (.ok (.header [])))
      else some (resume inv vars [.wrote (rest.take n)] (.ok (.writing (rest.drop n))))

def noResult : Thrown := .runtime "Ruby engine ended without a complete result."

/-- One turn of the loop in `readBytes`: what has been read with it. -/
def onRead (length : Nat) (got : Bytes) (check : Check) (chunk : Option Bytes) (ended : Bool) :
    Option (Except Thrown Bytes) :=
  match checkpoint check, chunk with
  | .error e, _ => some (.error e)
  | .ok (), none => some (.error noResult)
  | .ok (), some bytes =>
      if length - got.length < bytes.length then none
      else if bytes = [] ∧ ended then some (.error noResult)
      else some (.ok (got ++ bytes))

/-- `readFrame` behind the length. -/
def onHeader (got : Bytes) : Except Thrown Place :=
  if got.length < 4 then .ok (.header got)
  else if fromBe32 got < 1 ∨ MAX_FRAME < fromBe32 got then
    .error (.runtime "Invalid engine frame length.")
  else .ok (.payload (fromBe32 got) [])

/-- `readFrame` at its end, and the event. -/
def onPayload (vars : Vars) (payload : Bytes) (effects : List Effect) :
    Outcome State Effect Execution :=
  match incoming php payload >>= onEvent php inv vars with
  | .error e => .exit (execution inv vars e) effects
  | .ok (.listen vars) => .next ⟨.header [], vars⟩ effects
  | .ok (.call vars path args) => .next ⟨.checking path args, vars⟩ effects
  | .ok (.finish execution) => .exit execution effects

def onOutcome (vars : Vars) (outcome : Except Thrown Provided) : Outcome State Effect Execution :=
  resume inv vars [] ((outgoing php (reply inv vars.sequence (replyFields outcome))).map
    Place.writing)

def step (state : State) (answer : Answer) : Stepped :=
  match state.place, answer with
  | .opening, .opened ok =>
      some (resume inv state.vars [] (if ok then (outgoing php (request inv)).map Place.writing
        else .error (.runtime "Unable to start the Ruby engine.")))
  | .writing rest, .wrote check written closed => onWrite inv state.vars rest check written closed
  | .header got, .read check chunk ended =>
      (onRead 4 got check chunk ended).map (fun got =>
        match got with
        | .error e => .exit (execution inv state.vars e) []
        | .ok got => resume inv state.vars [.read (chunk.getD [])] (onHeader got))
  | .payload length got, .read check chunk ended =>
      (onRead length got check chunk ended).map (fun got =>
        match got with
        | .error e => .exit (execution inv state.vars e) []
        | .ok got =>
            if got.length < length then
              .next ⟨.payload length got, state.vars⟩ [.read (chunk.getD [])]
            else onPayload php inv state.vars got [.read (chunk.getD [])])
  | .checking path args, .checked check =>
      some (match checkpoint check with
        | .error e => .exit (execution inv state.vars e) []
        | .ok () => .next ⟨.calling path args, state.vars⟩ [.invoked path args])
  | .calling _ _, .returned value => some (onOutcome php inv state.vars (.ok value))
  | .calling _ _, .threw e => some (onOutcome php inv state.vars (.error e))
  | _, _ => none

end Step

def initial : State := ⟨.opening, {}⟩

def machine (php : Php) (inv : Invocation) : Machine State Answer Effect Execution where
  start state history := state = initial ∧ history = []
  step := step php inv

end RubyEngine.Client.Execute
