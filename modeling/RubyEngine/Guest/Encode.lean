import RubyEngine.Guest.Heap
import RubyEngine.Json.Render

/-!
# The encoder of the guest

The code writes JSON into a growing string under the byte limit of the request,
and stops at depth 64. It walks the object graph and keeps no record of what it
has seen, but for the keys of the hash at hand.
-/
namespace RubyEngine.Guest

open Json

namespace Exception

def tooLong : Exception :=
  .builtin "RangeError" "Encoded value exceeds byte limit; return a smaller summary"

def tooDeep : Exception :=
  .builtin "RangeError" "Cyclic or excessively nested result"

def invalidRecord : Exception := .builtin "TypeError" "Invalid Record"

def foreignKey : Exception :=
  .builtin "TypeError" "Object keys must be strings or symbols"

def repeatedKey : Exception :=
  .builtin "TypeError" "Duplicate normalized string/symbol key"

def unsupported : Exception :=
  .builtin "TypeError" "Unsupported result type; return structured data"

end Exception

def textKey (key : MrbValue) : Except Exception Bytes :=
  match key.text with
  | some bytes => .ok bytes
  | none => .error .foreignKey

def recordData (heap : Heap) (data : MrbValue) : Except Exception MrbValue :=
  match data with
  | .object address =>
      match heap address with
      | .hash _ => .ok data
      | _ => .error .invalidRecord
  | _ => .error .invalidRecord

/-- Add bytes to the output. The subtraction of the limit comes after the first test. -/
def append (limit : Nat) (output bytes : Bytes) : Except Exception Bytes :=
  if limit < bytes.length ∨ limit - bytes.length < output.length then .error .tooLong
  else .ok (output ++ bytes)

def byteEscape (c : UInt8) : Bytes :=
  if c = Ascii.quote ∨ c = Ascii.backslash then [Ascii.backslash, c]
  else if c < 32 then unitEscape c.toNat
  else [c]

def quoteBytes (limit : Nat) : Bytes → Bytes → Except Exception Bytes
  | output, [] => .ok output
  | output, c :: text => do
      let output ← append limit output (byteEscape c)
      quoteBytes limit output text

def quote (limit : Nat) (output text : Bytes) : Except Exception Bytes := do
  let output ← append limit output [Ascii.quote]
  let output ← quoteBytes limit output text
  append limit output [Ascii.quote]

def comma (limit : Nat) (first : Bool) (output : Bytes) : Except Exception Bytes :=
  if first then .ok output else append limit output [Ascii.comma]

section

variable (limit : Nat) (encode : Bytes → MrbValue → Except Exception Bytes)

/-- The loop over an array. -/
def encodeItems : Bool → Bytes → List MrbValue → Except Exception Bytes
  | _, output, [] => .ok output
  | first, output, v :: rest => do
      let output ← comma limit first output
      let output ← encode output v
      encodeItems false output rest

/-- The loop over a hash, with the keys that it has seen. -/
def encodeEntries : Bool → List Bytes → Bytes → Entries → Except Exception Bytes
  | _, _, output, [] => .ok output
  | first, seen, output, (raw, v) :: rest => do
      let key ← textKey raw
      if key ∈ seen then .error .repeatedKey
      else
        let output ← comma limit first output
        let output ← quote limit output key
        let output ← append limit output [Ascii.colon]
        let output ← encode output v
        encodeEntries false (key :: seen) output rest

/-- The cases of `encode`, for a value that is no record. -/
def encodeValue (heap : Heap) (output : Bytes) : MrbValue → Except Exception Bytes
  | .nil => append limit output Ascii.null
  | .bool false => append limit output Ascii.false
  | .bool true => append limit output Ascii.true
  | .integer i => append limit output (decimal i.val)
  | .string bytes | .symbol bytes => quote limit output bytes
  | .object address =>
      match heap address with
      | .array items => do
          let output ← append limit output [Ascii.openBracket]
          let output ← encodeItems limit encode true output items
          append limit output [Ascii.closeBracket]
      | .hash entries => do
          let output ← append limit output [Ascii.openBrace]
          let output ← encodeEntries limit encode true [] output entries
          append limit output [Ascii.closeBrace]
      | _ => .error .unsupported

end

/-- The replacement of a record by its data. -/
def unwrap (heap : Heap) (value : MrbValue) : Except Exception MrbValue :=
  match value with
  | .object address =>
      match heap address with
      | .record data => recordData heap data
      | _ => .ok value
  | _ => .ok value

/-- `encode` with so many levels left: 65 at the root, none below depth 64. -/
def encodeRoom (heap : Heap) (limit : Nat) : Nat → Bytes → MrbValue → Except Exception Bytes
  | 0, _, _ => .error .tooDeep
  | room + 1, output, value => do
      let value ← unwrap heap value
      encodeValue limit (encodeRoom heap limit room) heap output value

def encode (heap : Heap) (limit : Nat) (output : Bytes) (value : MrbValue) (depth : Nat) :
    Except Exception Bytes :=
  encodeRoom heap limit (65 - depth) output value

end RubyEngine.Guest
