import RubyEngine.Bytes
import RubyEngine.Json.Text

/-!
# What the engine takes from its environment

`SerdeJson` is the JSON library as the engine calls it: a printer, a parser and
the text of a failed deserialization. It is a parameter of the whole model. What
a result needs to know about it is a hypothesis of that result.

`IoError` carries the two things the engine looks at, the kind and the text.
-/
namespace RubyEngine

open Json (Value)

inductive ErrorKind where
  | unexpectedEof
  | wouldBlock
  | interrupted
  | invalidData
  | writeZero
  | brokenPipe
  | other
  | uncategorized
  deriving DecidableEq, Repr

structure IoError where
  kind : ErrorKind
  message : String
  deriving DecidableEq, Repr

/-- `io::Error::other` -/
def IoError.other (message : String) : IoError := ⟨.other, message⟩

/-- The category of a JSON error, without the I/O one: the input is in memory.
`malformed` is its syntax category. -/
inductive JsonCategory where
  | malformed
  | data
  | eof
  deriving DecidableEq, Repr

structure JsonError where
  category : JsonCategory
  message : String
  deriving DecidableEq, Repr

/-- The documented conversion of a JSON error into an I/O error. -/
def JsonError.toIo (e : JsonError) : IoError :=
  match e.category with
  | .malformed | .data => ⟨.invalidData, e.message⟩
  | .eof => ⟨.unexpectedEof, e.message⟩

structure SerdeJson where
  /-- Printing a value cannot fail: its keys are strings. -/
  toVec : Value → Bytes
  fromSlice : Bytes → Except JsonError Value
  /-- The text of the error when a value does not deserialize into a type. -/
  rejection : Value → String

/-- Values that the parser reads back exactly as they were printed: no float, and
less deep than the recursion limit. -/
def Plain (v : Value) : Prop := v.doc.floatFree = true ∧ v.doc.nesting < 128

/-- Parsing undoes printing, and no printed text is empty. -/
structure SerdeJson.RoundTrips (serde : SerdeJson) : Prop where
  back : ∀ v, Plain v → serde.fromSlice (serde.toVec v) = .ok v
  nonempty : ∀ v, serde.toVec v ≠ []

/-- Any JSON text less deep than the recursion limit parses to what it spells. -/
structure SerdeJson.Standard (serde : SerdeJson) : Prop where
  parses : ∀ bytes d, Json.Text bytes d → d.nesting < 128 →
    serde.fromSlice bytes = .ok (Value.ofDoc d)

/-- No bytes parse that are not UTF-8. -/
structure SerdeJson.Strict (serde : SerdeJson) : Prop where
  utf8 : ∀ bytes v, serde.fromSlice bytes = .ok v → ValidUtf8 bytes

end RubyEngine
