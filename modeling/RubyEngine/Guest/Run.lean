import RubyEngine.Guest.HostCall

/-!
# One execution in the guest

What `guest::run` does around the native call: the checks before it and the
completed event after it. What the virtual machine did is a parameter, with the
callbacks that it made on the way.
-/
namespace RubyEngine.Guest

open Json (Integer Value)

/-- `NativeResult`, whose buffers hold text up to their first NUL. -/
structure NativeResult where
  json : Option Bytes := none
  error : Bytes := []
  errorType : Bytes := []
  line : Int32 := 0
  column : Int32 := 0
  status : Int32 := 0
  peakMemory : Nat := 0
  instructions : Nat := 0

def signed (n : Int32) : Value :=
  Value.ofDoc (.number (.int ⟨n.toInt, by
    have hlow := Int32.le_toInt n
    have hhigh := Int32.toInt_lt n
    constructor <;> omega⟩))

def milliseconds : Option UInt64 → Value
  | none => .null
  | some bits => ⟨.number (.float bits), rfl⟩

def errorKind (native : NativeResult) : String :=
  if native.errorType ≠ [] then (decodeUtf8 native.errorType).getD "ruby_error"
  else if native.status = 1 then "syntax_error"
  else if native.status = 3 then "profile_error"
  else "ruby_error"

def diagnostic (request : Request) (native : NativeResult) : Value :=
  Value.object [("type", .string (errorKind native)), ("message", .string (lossy native.error)),
    ("source", .string request.filename),
    ("line", if 0 < native.line then signed native.line else .null),
    ("column", if 0 < native.line ∧ 0 ≤ native.column then signed native.column else .null)]

/-- The terminal event. -/
def completedEvent (request : Request) (host : Host) (native : NativeResult)
    (result time : Value) : Value :=
  Value.object [("protocol", .string PROTOCOL), ("profile", .string PROFILE),
    ("execution_id", .string request.executionId), ("kind", .string "completed"),
    ("validated_only", .bool request.validateOnly), ("result", result),
    ("error", if native.status ≠ 0 then diagnostic request native else .null),
    ("usage", Value.object [("peak_memory_bytes", .u64 native.peakMemory),
      ("instructions", .u64 native.instructions), ("calls", .u64 host.calls),
      ("cpu_ms", time)])]

/-- `run` behind the native call. -/
def conclusion (serde : SerdeJson) (request : Request) (host : Host) (native : NativeResult)
    (cpuMs : Option UInt64) : Except String Value :=
  match native.json with
  | none => .ok (completedEvent request host native .null (milliseconds cpuMs))
  | some json =>
      match serde.fromSlice json with
      | .ok value => .ok (completedEvent request host native value (milliseconds cpuMs))
      | .error _ => .error "Result is not valid UTF-8 structured data"

/-- `guest::run`, where `execute` is the native call with its callbacks. -/
def run (serde : SerdeJson) (request : Request) (execute : Host → Host × NativeResult)
    (cpuMs : Option UInt64) : Except String Value := do
  request.validate
  let _ ← Tree.new request.globals.doc
  let _ ← Tree.new (.array (request.catalog.map Json.Doc.string))
  if '\x00' ∈ request.filename.toList then .error "Invalid source name"
  let (host, native) := execute (.new request)
  conclusion serde request host native cpuMs

/-- The event of a run is the one of its conclusion. -/
theorem run_ok {serde : SerdeJson} {request : Request} {execute : Host → Host × NativeResult}
    {cpuMs : Option UInt64} {event : Value} (h : run serde request execute cpuMs = .ok event) :
    conclusion serde request (execute (.new request)).1 (execute (.new request)).2 cpuMs =
      .ok event := by
  unfold run at h
  cases hvalid : request.validate with
  | error e =>
    rw [hvalid] at h
    cases h
  | ok u =>
    rw [hvalid] at h
    cases hglobals : Tree.new request.globals.doc with
    | error e =>
      rw [hglobals] at h
      cases h
    | ok nodes =>
      rw [hglobals] at h
      cases hcatalog : Tree.new (.array (request.catalog.map Json.Doc.string)) with
      | error e =>
        rw [hcatalog] at h
        cases h
      | ok nodes' =>
        rw [hcatalog] at h
        by_cases hname : '\x00' ∈ request.filename.toList
        · simp only [if_pos hname] at h
          cases h
        · simp only [if_neg hname] at h
          exact h

end RubyEngine.Guest
