import RubyEngine.Protocol
import RubyEngine.Guest.Encode

/-!
# The guest's side of a host call

A Ruby method encodes its arguments, crosses into Rust, and decodes what comes
back. Between the two the guest may write an event and wait for a reply; the
functions here are the code on either side of the pipes.
-/
namespace RubyEngine.Guest

open Json (Doc Value)

/-! ## The state in Rust -/

/-- `Host`, without the tree that keeps the last reply alive. -/
structure Host where
  execution : String
  sequence : Nat := 0
  calls : Nat := 0
  callLimit : Nat
  logs : Nat := 0
  logLimit : Nat
  catalog : List String
  deriving DecidableEq

def Host.new (request : Request) : Host where
  execution := request.executionId
  callLimit := request.limits.calls
  logLimit := request.limits.logBytes
  catalog := request.catalog

inductive Kind where
  | unknown
  | json
  | log
  | call
  deriving DecidableEq, Repr

/-! ## Suggestions -/

/-- The next row of the table behind its first entry. `before` is the entry to the
left and `diagonal` the one of the row above it. -/
def nextRow (left : UInt8) : Nat → Nat → List Nat → Bytes → List Nat
  | before, diagonal, old :: row, right :: rest =>
      let entry := min (min (before + 1) (old + 1)) (diagonal + if left = right then 0 else 1)
      entry :: nextRow left entry old row rest
  | _, _, _, _ => []

def editRows (b : Bytes) : Nat → List Nat → Bytes → List Nat
  | _, row, [] => row
  | i, row, left :: a =>
      editRows b (i + 1) ((i + 1) :: nextRow left (i + 1) (row.headD 0) row.tail b) a

def editDistance (a b : Bytes) : Nat := (editRows b 0 (List.range (b.length + 1)) a).getLastD 0

/-- What stands before the last dot of a path. -/
def namespaceOf (path : String) : String :=
  String.ofList (path.toList.reverse.dropWhile (fun c => c ≠ '.')).tail.reverse

/-- The order of pairs, distance first. -/
def closer (a b : Nat × String) : Bool := a.1 < b.1 || (a.1 = b.1 && a.2 ≤ b.2)

def Host.suggestions (host : Host) (path : String) : String :=
  let candidates := (host.catalog.filter (fun candidate =>
    (namespaceOf path).toList.isPrefixOf candidate.toList)).take 4096
  let ranked := (candidates.map (fun candidate =>
    (editDistance (utf8 path) (utf8 candidate), candidate))).mergeSort closer
  String.intercalate ", " ((ranked.take 3).map (fun e => "app." ++ e.2))

/-! ## Responses made in the guest -/

def unknownFunction (host : Host) (path : String) : Value :=
  Value.object [("ok", .bool false), ("code", .string "unknown_function"),
    ("message", .string ("Unknown capability app." ++ path ++
      ". No external call was made. Discover with code_read_doc. Closest paths: " ++
      host.suggestions path))]

/-- The answer to the kind `json`: the text in a string, parsed. -/
def jsonData (serde : SerdeJson) (value : Value) : Value :=
  match value.doc.asStr.bind (fun text => (serde.fromSlice (utf8 text)).toOption) with
  | some value => Value.object [("ok", .bool true), ("value", value)]
  | none => Value.object [("ok", .bool false), ("message", .string "Invalid JSON data")]

def refusal (message : String) : Value :=
  Value.object [("ok", .bool false), ("message", .string message)]

def logged : Value := Value.object [("ok", .bool true), ("value", .null)]

/-! ## Events -/

def logEvent (execution : String) (values : Value) : Value :=
  Value.object [("protocol", .string PROTOCOL), ("execution_id", .string execution),
    ("kind", .string "log"), ("values", values)]

def callEvent (execution : String) (sequence : Nat) (path : String) (args : Value) : Value :=
  Value.object [("protocol", .string PROTOCOL), ("execution_id", .string execution),
    ("kind", .string "call"), ("sequence", .u64 sequence), ("path", .string path), ("args", args)]

/-! ## `ruby_host_call` -/

/-- What the call does next. -/
inductive Turn where
  /-- The response is there. -/
  | answer (response : Value)
  /-- The event is to be written, and the response is `logged`. -/
  | log (event : Value)
  /-- The event is to be written, and the response is what the host replies. -/
  | call (event : Value)
  /-- An error without a response. -/
  | failed
  deriving DecidableEq

def saturatingAdd (a b : Nat) : Nat := min (a + b) (2 ^ 64 - 1)

/-- `ruby_host_call` up to its first system call. The path is the bytes of a C string. -/
def Host.turn (serde : SerdeJson) (host : Host) (kind : Kind) (path bytes : Bytes) : Host × Turn :=
  match decodeUtf8 path, serde.fromSlice bytes with
  | some path, .ok value =>
      match kind with
      | .unknown => (host, .answer (unknownFunction host path))
      | .json => (host, .answer (jsonData serde value))
      | .log =>
          let host := { host with logs := saturatingAdd host.logs bytes.length }
          if host.logLimit < host.logs then (host, .answer (refusal "Log byte budget exceeded"))
          else (host, .log (logEvent host.execution value))
      | .call =>
          if host.callLimit ≤ host.calls then
            (host, .answer (refusal "Capability call budget exceeded"))
          else
            let host := { host with calls := host.calls + 1, sequence := host.sequence + 1 }
            (host, .call (callEvent host.execution host.sequence path value))
  | _, _ => (host, .failed)

/-- Everything that a turn can do. -/
inductive Host.Turns (serde : SerdeJson) (host : Host) (bytes : Bytes) : Kind → Host × Turn → Prop where
  | failed (kind : Kind) : Turns serde host bytes kind (host, .failed)
  | unknown (path : String) :
      Turns serde host bytes .unknown (host, .answer (unknownFunction host path))
  | json (value : Value) : serde.fromSlice bytes = .ok value →
      Turns serde host bytes .json (host, .answer (jsonData serde value))
  | spent : host.logLimit < saturatingAdd host.logs bytes.length →
      Turns serde host bytes .log ({ host with logs := saturatingAdd host.logs bytes.length },
        .answer (refusal "Log byte budget exceeded"))
  | log (value : Value) : serde.fromSlice bytes = .ok value →
      saturatingAdd host.logs bytes.length ≤ host.logLimit →
      Turns serde host bytes .log ({ host with logs := saturatingAdd host.logs bytes.length },
        .log (logEvent host.execution value))
  | exhausted : host.callLimit ≤ host.calls →
      Turns serde host bytes .call (host, .answer (refusal "Capability call budget exceeded"))
  | call (path : String) (value : Value) : host.calls < host.callLimit →
      Turns serde host bytes .call
        ({ host with calls := host.calls + 1, sequence := host.sequence + 1 },
          .call (callEvent host.execution (host.sequence + 1) path value))

theorem Host.turn_cases (serde : SerdeJson) (host : Host) (kind : Kind) (path bytes : Bytes) :
    Host.Turns serde host bytes kind (host.turn serde kind path bytes) := by
  unfold Host.turn
  split
  · next path value _ hvalue =>
    cases kind with
    | unknown => exact .unknown path
    | json => exact .json value hvalue
    | log =>
      dsimp only
      split
      · next h => exact .spent h
      · next h => exact .log value hvalue (Nat.not_lt.mp h)
    | call =>
      dsimp only
      split
      · next h => exact .exhausted h
      · next h => exact .call path value (Nat.not_le.mp h)
  · exact .failed kind

/-- What stays true of the host over the turns of an execution. -/
structure Host.Counted (request : Request) (host : Host) : Prop where
  execution : host.execution = request.executionId
  callLimit : host.callLimit = request.limits.calls
  sequence : host.sequence = host.calls
  calls : host.calls ≤ request.limits.calls

theorem Host.counted_new (request : Request) : (Host.new request).Counted request :=
  ⟨rfl, rfl, rfl, Nat.zero_le _⟩

theorem Host.Counted.turn {request : Request} {host : Host} (h : host.Counted request)
    (serde : SerdeJson) (kind : Kind) (path bytes : Bytes) :
    (host.turn serde kind path bytes).1.Counted request := by
  have hcases := host.turn_cases serde kind path bytes
  generalize host.turn serde kind path bytes = result at hcases
  obtain ⟨hexecution, hlimit, hsequence, hcalls⟩ := h
  cases hcases with
  | failed | unknown | json | spent | log | exhausted =>
    exact ⟨hexecution, hlimit, hsequence, hcalls⟩
  | call path value hroom =>
    refine ⟨hexecution, hlimit, congrArg (· + 1) hsequence, ?_⟩
    rw [hlimit] at hroom
    exact hroom

/-- The checks on the reply to a call. -/
def Host.accepts (host : Host) (response : Value) : Bool :=
  (response.index "protocol").asStr = some PROTOCOL &&
    (response.index "execution_id").asStr = some host.execution &&
    (response.index "sequence").asU64 = some host.sequence &&
    (response.index "kind").asStr = some "reply" &&
    (response.index "ok").isBoolean

/-! ## `exchange` -/

def Exception.nullByte : Exception := .builtin "ArgumentError" "string contains null byte"

def Exception.hostProtocol : Exception := .builtin "RuntimeError" "Host protocol failed"

/-- The arguments of the call into Rust: the encoded values, if the path is a C string. -/
def exchangeBytes (heap : Heap) (limit : Nat) (path : Bytes) (args : MrbValue) :
    Except Exception Bytes := do
  let json ← encode heap limit [] args 0
  if 0 ∈ path then .error .nullByte else .ok json

/-- `mrb_hash_get` with a string as the key. -/
def hashGet (key : String) (entries : List (Bytes × Ruby)) : Ruby :=
  match entries.find? (fun e => e.1 = utf8 key) with
  | some e => e.2
  | none => .nil

/-- The result of a call, from its decoded envelope. -/
def openEnvelope : Ruby → Except Trap Ruby
  | .record entries =>
      match hashGet "ok" entries with
      | .bool true => .ok (hashGet "value" entries)
      | _ =>
          let message := match hashGet "message" entries with
            | .string message => message
            | _ => utf8 "Capability call failed"
          let code := match hashGet "code" entries with
            | .string code => some code
            | _ => none
          .error (.raised (.capability message code))
  | _ => .error (.raised .invalidRecord)

/-- `exchange` from the response on: through the nodes into Ruby. -/
def conclude (response : Value) : Except Trap Ruby :=
  match Tree.new response.doc with
  | .error _ => .error (.raised .hostProtocol)
  | .ok nodes =>
      match decode nodes 0 0 true with
      | .error e => .error e
      | .ok (reply, _) => openEnvelope reply

end RubyEngine.Guest
