import Mathlib.Data.List.TakeWhile
import RubyEngine.Guest.Run

/-!
# The native call

`ruby_execute` around the virtual machine: how the protected run ends, and what of an
exception is left for Rust in buffers of a fixed size.
-/
namespace RubyEngine.Guest

/-! ## C strings -/

/-- `snprintf` of a string into a buffer, up to the NUL that it puts at the end. -/
def snprintf (size : Nat) (text : Bytes) : Bytes := (text.takeWhile (· ≠ 0)).take (size - 1)

theorem length_snprintf_lt {size : Nat} (hsize : 0 < size) (text : Bytes) :
    (snprintf size text).length < size := by
  rw [snprintf, List.length_take]
  omega

/-- A text without a NUL that leaves room for one is stored as it is. -/
theorem snprintf_eq {size : Nat} {text : Bytes} (hnul : 0 ∉ text) (hlength : text.length < size) :
    snprintf size text = text := by
  have hall : text.takeWhile (· ≠ 0) = text := by
    rw [List.takeWhile_eq_self_iff]
    intro b hb
    exact decide_eq_true (fun hzero => hnul (hzero ▸ hb))
  rw [snprintf, hall, List.take_of_length_le (by omega)]

def isSpace (b : UInt8) : Bool := b = 0x20 || (0x09 ≤ b && b ≤ 0x0d)

/-- The number that the digits at the front spell. -/
def digitsAt (text : Bytes) : Nat :=
  (text.takeWhile (fun b => 0x30 ≤ b && b ≤ 0x39)).foldl (fun n b => 10 * n + (b.toNat - 0x30)) 0

/-- `atoi`, for numbers that an `int` can hold. -/
def atoi (text : Bytes) : Int32 :=
  match text.dropWhile isSpace with
  | 0x2d :: digits => Int32.ofInt (-digitsAt digits)
  | 0x2b :: digits => Int32.ofInt (digitsAt digits)
  | digits => Int32.ofInt (digitsAt digits)

/-! ## Exceptions -/

/-- What `error_details` looks at in an exception. -/
structure ExceptionObject where
  /-- Whether it is of the class for failed capabilities. -/
  tagged : Bool := false
  /-- The variable `@code`. -/
  code : MrbValue := .nil
  message : MrbValue

/-- The object that is raised. -/
def Exception.object : Exception → ExceptionObject
  | .builtin _ message => { message := .string (utf8 message) }
  | .capability message code =>
      { tagged := true, code := (code.map MrbValue.string).getD .nil, message := .string message }

/-- The line of the first entry of a backtrace that is about the source. -/
def traceLine (filename : Bytes) : List MrbValue → Option Int32
  | [] => none
  | .string entry :: rest =>
      if filename.length + 1 < entry.length ∧ entry.take filename.length = filename ∧
          entry[filename.length]? = some 0x3a then
        some (atoi (entry.drop (filename.length + 1)))
      else traceLine filename rest
  | _ :: rest => traceLine filename rest

/-- `error_details`. There is no backtrace if making it fails. -/
def errorDetails (request : Request) (e : ExceptionObject) (trace : Option (List MrbValue))
    (result : NativeResult) : NativeResult :=
  let result := match e.tagged, e.code with
    | true, .string code => { result with errorType := snprintf 64 code }
    | _, _ => result
  let result := match e.message with
    | .string message => { result with error := snprintf 2048 message }
    | _ => result
  match trace.bind (traceLine (utf8 request.filename)) with
  | some line => { result with line, column := -1 }
  | none => result

/-! ## `ruby_execute` -/

/-- How the protected run ends. -/
inductive Ended where
  /-- There is no virtual machine. -/
  | unopened
  /-- The first error of the parser. -/
  | unparsed (line column : Int32) (message : Bytes)
  /-- The admission raises. -/
  | refused (e : ExceptionObject)
  /-- Anything else raises, before the program or in it. -/
  | raised (e : ExceptionObject)
  | validated
  /-- The program has a value, which is to be encoded. -/
  | returned (v : MrbValue)

section

variable (request : Request) (heap : Heap) (trace : Option (List MrbValue))

/-- `mrb_open` and `run`, with the exception that `run` leaves by. -/
def protectedRun (result : NativeResult) : Ended → NativeResult × Option ExceptionObject
  | .unopened =>
      ({ result with status := 2, error := snprintf 2048 (utf8 "mruby initialization failed") }, none)
  | .unparsed line column message =>
      ({ result with line, column, error := snprintf 2048 message, status := 1 }, none)
  | .refused e => ({ result with status := 3 }, some e)
  | .raised e => (result, some e)
  | .validated => (result, none)
  | .returned v =>
      match encode heap request.limits.resultBytes [] v 0 with
      | .ok json => ({ result with json := some json }, none)
      | .error e => (result, some e.object)

/-- `ruby_execute`, with the two meters of the virtual machine. -/
def rubyExecute (peakMemory instructions : Nat) (ended : Ended) : NativeResult :=
  match protectedRun request heap { peakMemory, instructions } ended with
  | (result, none) => result
  | (result, some e) =>
      errorDetails request e trace
        { result with
          status := if result.status = 0 then 2 else result.status
          error := snprintf 2048 (utf8 "Ruby execution failed") }

end

/-! ## What is left -/

/-- What `ruby_execute` can leave: an encoded result, and texts that fit their buffers. -/
structure NativeResult.Left (request : Request) (native : NativeResult) : Prop where
  json : ∀ json, native.json = some json →
    ∃ heap v, encode heap request.limits.resultBytes [] v 0 = .ok json
  error : native.error.length < 2048
  errorType : native.errorType.length < 64

section

variable {request : Request} {heap : Heap} {trace : Option (List MrbValue)} {native : NativeResult}

/-- The three texts of a result, of which `error_details` writes two. -/
theorem errorDetails_texts (request : Request) (e : ExceptionObject)
    (trace : Option (List MrbValue)) (native : NativeResult) :
    (errorDetails request e trace native).json = native.json ∧
    (errorDetails request e trace native).status = native.status ∧
    (errorDetails request e trace native).errorType =
      (match e.tagged, e.code with
        | true, .string code => snprintf 64 code
        | _, _ => native.errorType) ∧
    (errorDetails request e trace native).error =
      (match e.message with
        | .string message => snprintf 2048 message
        | _ => native.error) := by
  obtain ⟨tagged, code, message⟩ := e
  unfold errorDetails
  dsimp only
  cases trace.bind (traceLine (utf8 request.filename)) <;> cases tagged <;> cases code <;>
    cases message <;> exact ⟨rfl, rfl, rfl, rfl⟩

theorem errorDetails_left (e : ExceptionObject) (h : native.Left request) :
    (errorDetails request e trace native).Left request := by
  obtain ⟨hjson, -, htype, herror⟩ := errorDetails_texts request e trace native
  refine ⟨hjson ▸ h.json, ?_, ?_⟩
  · rw [herror]
    split
    · exact length_snprintf_lt (by decide) _
    · exact h.error
  · rw [htype]
    split
    · exact length_snprintf_lt (by decide) _
    · exact h.errorType

theorem protectedRun_left (h : native.Left request) (ended : Ended) :
    (protectedRun request heap native ended).1.Left request := by
  cases ended with
  | unopened | unparsed => exact ⟨h.json, length_snprintf_lt (by decide) _, h.errorType⟩
  | refused e => exact ⟨h.json, h.error, h.errorType⟩
  | raised | validated => exact h
  | returned v =>
    rw [protectedRun]
    split
    · next json hencode =>
      refine ⟨fun other hother => ?_, h.error, h.errorType⟩
      obtain rfl := Option.some.inj hother
      exact ⟨heap, v, hencode⟩
    · exact h

/-- Whatever happens in the virtual machine, what is left of it fits. -/
theorem rubyExecute_left (peakMemory instructions : Nat) (ended : Ended) :
    (rubyExecute request heap trace peakMemory instructions ended).Left request := by
  have hempty : NativeResult.Left request { peakMemory, instructions } := by
    refine ⟨fun json hjson => ?_, (by decide : 0 < 2048), (by decide : 0 < 64)⟩
    cases hjson
  have hrun := @protectedRun_left request heap _ hempty ended
  unfold rubyExecute
  cases hresult : protectedRun request heap { peakMemory, instructions } ended with
  | mk result raised =>
    rw [hresult] at hrun
    cases raised with
    | none => exact hrun
    | some e =>
      apply errorDetails_left
      exact ⟨hrun.json, length_snprintf_lt (by decide) _, hrun.errorType⟩

/-- The failure of a capability that is not rescued is left whole, if its texts have room. -/
theorem rubyExecute_capability (request : Request) (heap : Heap)
    (trace : Option (List MrbValue)) (peakMemory instructions : Nat) {message code : Bytes}
    (hmessage : 0 ∉ message ∧ message.length < 2048) (hcode : 0 ∉ code ∧ code.length < 64) :
    let native := rubyExecute request heap trace peakMemory instructions
      (.raised (Exception.capability message (some code)).object)
    native.json = none ∧ native.status = 2 ∧ native.errorType = code ∧ native.error = message := by
  intro native
  have htexts := errorDetails_texts request (Exception.capability message (some code)).object trace
    { peakMemory, instructions, status := 2, error := snprintf 2048 (utf8 "Ruby execution failed") }
  obtain ⟨hjson, hstatus, htype, herror⟩ := htexts
  refine ⟨hjson, hstatus, htype.trans ?_, herror.trans ?_⟩
  · exact snprintf_eq hcode.1 hcode.2
  · exact snprintf_eq hmessage.1 hmessage.2

end

end RubyEngine.Guest
