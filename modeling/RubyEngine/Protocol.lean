import RubyEngine.Serde

/-!
# Bounded framing and the request

The frames of the protocol and the request that the first one carries, with the
ceilings that admission enforces.
-/
namespace RubyEngine

open Json (Doc Value)

def PROTOCOL : String := "ruby-local-v1"
def PROFILE : String := "opencompany-code-v1"
def MAX_FRAME : Nat := 8 * 1024 * 1024

structure Limits where
  memoryBytes : Nat
  instructions : Nat
  wallMs : Nat
  cpuMs : Nat
  sourceBytes : Nat
  resultBytes : Nat
  calls : Nat
  logBytes : Nat
  deriving DecidableEq, Repr

def cpuBudget : Nat := 1000

/-- `Limits::default` -/
def Limits.default : Limits where
  memoryBytes := 32 * 1024 * 1024
  instructions := 10000000
  wallMs := 5000
  cpuMs := cpuBudget
  sourceBytes := 256 * 1024
  resultBytes := 1024 * 1024
  calls := 50
  logBytes := 64 * 1024

structure Request where
  protocol : String
  profile : String
  executionId : String
  source : String
  filename : String
  validateOnly : Bool
  globals : Value
  catalog : List String
  limits : Limits
  deriving DecidableEq

def filename : String := "opencompany-code.rb"

def emptyObject : Value := Value.object []

/-- A short request with one capability and every default, for concrete runs. -/
def Request.sample : Request where
  protocol := PROTOCOL
  profile := PROFILE
  executionId := "e"
  source := "app.a"
  filename := RubyEngine.filename
  validateOnly := false
  globals := emptyObject
  catalog := ["a"]
  limits := Limits.default

/-! ## Deserialization -/

/-- The members of a derived structure: an object without unknown fields, or an
array that lists the fields in their declared order. -/
def structFields (names : List String) : Doc → Option (List (String × Doc))
  | .object entries => if entries.all (fun e => e.1 ∈ names) then some entries else none
  | .array items => if items.length ≤ names.length then some (names.zip items) else none
  | _ => none

def required {α : Type} (read : Doc → Option α) (field : String)
    (fields : List (String × Doc)) : Option α :=
  (SortedMap.lookup field fields).bind read

def defaulted {α : Type} (read : Doc → Option α) (value : α) (field : String)
    (fields : List (String × Doc)) : Option α :=
  match SortedMap.lookup field fields with
  | none => some value
  | some d => read d

def asBool : Doc → Option Bool
  | .bool b => some b
  | _ => none

def asStrings : Doc → Option (List String)
  | .array items => items.mapM Doc.asStr
  | _ => none

def Limits.fields : List String :=
  ["memory_bytes", "instructions", "wall_ms", "cpu_ms", "source_bytes", "result_bytes", "calls",
    "log_bytes"]

def Limits.ofDoc (d : Doc) : Option Limits := do
  let fields ← structFields Limits.fields d
  return {
    memoryBytes := ← required Doc.asU64 "memory_bytes" fields
    instructions := ← required Doc.asU64 "instructions" fields
    wallMs := ← required Doc.asU64 "wall_ms" fields
    cpuMs := ← defaulted Doc.asU64 cpuBudget "cpu_ms" fields
    sourceBytes := ← required Doc.asU64 "source_bytes" fields
    resultBytes := ← required Doc.asU64 "result_bytes" fields
    calls := ← required Doc.asU64 "calls" fields
    logBytes := ← required Doc.asU64 "log_bytes" fields }

def Request.fields : List String :=
  ["protocol", "profile", "execution_id", "source", "filename", "validate_only", "globals",
    "catalog", "limits"]

/-- `serde_json::from_value::<Request>`, up to the text of its error. -/
def Request.ofValue (v : Value) : Option Request := do
  let fields ← structFields Request.fields v.doc
  return {
    protocol := ← required Doc.asStr "protocol" fields
    profile := ← required Doc.asStr "profile" fields
    executionId := ← required Doc.asStr "execution_id" fields
    source := ← required Doc.asStr "source" fields
    filename := ← defaulted Doc.asStr RubyEngine.filename "filename" fields
    validateOnly := ← defaulted asBool false "validate_only" fields
    globals := ← defaulted (fun d => some (Value.ofDoc d)) emptyObject "globals" fields
    catalog := ← defaulted asStrings [] "catalog" fields
    limits := ← defaulted Limits.ofDoc Limits.default "limits" fields }

/-! ## Serialization -/

def Limits.toValue (l : Limits) : Value :=
  Value.object [("memory_bytes", .u64 l.memoryBytes), ("instructions", .u64 l.instructions),
    ("wall_ms", .u64 l.wallMs), ("cpu_ms", .u64 l.cpuMs), ("source_bytes", .u64 l.sourceBytes),
    ("result_bytes", .u64 l.resultBytes), ("calls", .u64 l.calls), ("log_bytes", .u64 l.logBytes)]

/-- `serde_json::to_value(&request)` -/
def Request.toValue (r : Request) : Value :=
  Value.object [("protocol", .string r.protocol), ("profile", .string r.profile),
    ("execution_id", .string r.executionId), ("source", .string r.source),
    ("filename", .string r.filename), ("validate_only", .bool r.validateOnly),
    ("globals", r.globals), ("catalog", .array (r.catalog.map Value.string)),
    ("limits", r.limits.toValue)]

/-! ## Admission -/

def isAsciiAlphanumeric (b : UInt8) : Bool :=
  (0x30 ≤ b && b ≤ 0x39) || (0x41 ≤ b && b ≤ 0x5a) || (0x61 ≤ b && b ≤ 0x7a)

/-- A byte of a source name or of a catalog path: alphanumeric, `-`, `_` or `.`. -/
def isNameByte (b : UInt8) : Bool := isAsciiAlphanumeric b || b ∈ [0x2d, 0x5f, 0x2e]

def Limits.exceeds (l : Limits) : Bool :=
  !(decide (1024 * 1024 ≤ l.memoryBytes) && decide (l.memoryBytes ≤ 128 * 1024 * 1024))
    || l.instructions = 0
    || decide (100000000 < l.instructions)
    || !(decide (1 ≤ l.wallMs) && decide (l.wallMs ≤ 300000))
    || !(decide (1 ≤ l.cpuMs) && decide (l.cpuMs ≤ 30000))
    || l.sourceBytes = 0
    || decide (1024 * 1024 < l.sourceBytes)
    || l.resultBytes = 0
    || decide (4 * 1024 * 1024 < l.resultBytes)
    || decide (100 < l.calls)
    || decide (1024 * 1024 < l.logBytes)

/-- Globals that hold nothing but the data-only `ctx`. -/
def onlyCtx : Doc → Bool
  | .object entries => entries.all (fun e => e.1 = "ctx")
  | _ => false

def Request.validate (r : Request) : Except String Unit :=
  if r.protocol ≠ PROTOCOL ∨ r.profile ≠ PROFILE then
    .error "Unsupported protocol/profile"
  else if r.executionId = "" ∨ 128 < (utf8 r.executionId).length then
    .error "Invalid execution identity"
  else if r.limits.exceeds then
    .error "Resource profile exceeds engine ceilings"
  else if r.limits.sourceBytes < (utf8 r.source).length ∨ '\x00' ∈ r.source.toList then
    .error "Invalid or oversized source"
  else if 128 < (utf8 r.filename).length ∨ ¬ (utf8 r.filename).all isNameByte then
    .error "Source name must be a short logical filename, not a filesystem path"
  else if ¬ onlyCtx r.globals.doc then
    .error "Only the data-only ctx input is supported"
  else if 50000 < r.catalog.length ∨ r.catalog.any (fun path =>
      256 < (utf8 path).length || path = "" || !(utf8 path).all isNameByte) then
    .error "Invalid capability catalog"
  else .ok ()

/-- What a request has that passes every check. -/
structure Request.Admissible (r : Request) : Prop where
  protocol : r.protocol = PROTOCOL
  profile : r.profile = PROFILE
  identity : r.executionId ≠ "" ∧ (utf8 r.executionId).length ≤ 128
  limits : r.limits.exceeds = false
  source : (utf8 r.source).length ≤ r.limits.sourceBytes ∧ '\x00' ∉ r.source.toList
  filename : (utf8 r.filename).length ≤ 128 ∧ (utf8 r.filename).all isNameByte = true
  globals : onlyCtx r.globals.doc = true
  count : r.catalog.length ≤ 50000
  catalog : ∀ path ∈ r.catalog,
    (utf8 path).length ≤ 256 ∧ path ≠ "" ∧ (utf8 path).all isNameByte = true

theorem Request.validate_iff {r : Request} : r.validate = .ok () ↔ r.Admissible := by
  have hcatalog : (r.catalog.any (fun path =>
      256 < (utf8 path).length || path = "" || !(utf8 path).all isNameByte) = true) ↔
      ¬ ∀ path ∈ r.catalog,
        (utf8 path).length ≤ 256 ∧ path ≠ "" ∧ (utf8 path).all isNameByte = true := by
    simp only [List.any_eq_true, Bool.or_eq_true, decide_eq_true_eq, Bool.not_eq_true', not_forall,
      exists_prop, not_and_or, Nat.not_le, not_not, Bool.not_eq_true, or_assoc]
  unfold Request.validate
  constructor
  · intro h
    split at h
    · cases h
    · next hprotocol =>
      split at h
      · cases h
      · next hidentity =>
        split at h
        · cases h
        · next hlimits =>
          split at h
          · cases h
          · next hsource =>
            split at h
            · cases h
            · next hfilename =>
              split at h
              · cases h
              · next hglobals =>
                split at h
                · cases h
                · next hpaths =>
                  simp only [not_or, not_not, Nat.not_lt] at hprotocol hidentity hsource hfilename
                  rw [not_or, Nat.not_lt, hcatalog, not_not] at hpaths
                  exact ⟨hprotocol.1, hprotocol.2, hidentity, Bool.eq_false_of_not_eq_true hlimits,
                    hsource, hfilename, not_not.mp hglobals, hpaths.1, hpaths.2⟩
  · intro h
    have hidentity := h.identity
    have hsource := h.source
    have hfilename := h.filename
    rw [if_neg (by simp [h.protocol, h.profile]), if_neg (by simp [hidentity]),
      if_neg (by simp [h.limits]), if_neg (by simp [hsource]), if_neg (by simp [hfilename]),
      if_neg (by simp [h.globals]), if_neg]
    rw [not_or, Nat.not_lt, hcatalog, not_not]
    exact ⟨h.count, h.catalog⟩

/-! ## Frames -/

def sizeLimit : IoError := ⟨.invalidData, "Frame size limit"⟩

/-- `read_exact` at the end of the stream. -/
def shortRead : IoError := ⟨.unexpectedEof, "failed to fill whole buffer"⟩

/-- Decode the frame at the front of a stream, and return what follows it. -/
def readFrame (serde : SerdeJson) (stream : Bytes) : Except IoError (Value × Bytes) :=
  if stream.length < 4 then .error shortRead
  else
    let size := fromBe32 (stream.take 4)
    if size = 0 ∨ MAX_FRAME < size then .error sizeLimit
    else
      let rest := stream.drop 4
      if rest.length < size then .error shortRead
      else
        match serde.fromSlice (rest.take size) with
        | .ok value => .ok (value, rest.drop size)
        | .error e => .error ⟨.invalidData, e.message⟩

def writeFrame (serde : SerdeJson) (value : Value) : Except IoError Bytes :=
  let data := serde.toVec value
  if MAX_FRAME < data.length then .error sizeLimit
  else .ok (be32 data.length ++ data)

theorem writeFrame_ok {serde : SerdeJson} {value : Value} {bytes : Bytes}
    (h : writeFrame serde value = .ok bytes) :
    (serde.toVec value).length ≤ MAX_FRAME ∧
      bytes = be32 (serde.toVec value).length ++ serde.toVec value := by
  simp only [writeFrame] at h
  split at h
  · cases h
  · next hle => exact ⟨Nat.not_lt.mp hle, (Except.ok.inj h).symm⟩

theorem maxFrame_lt_word : MAX_FRAME < 2 ^ 32 := by decide

end RubyEngine
