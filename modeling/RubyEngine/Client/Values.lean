import RubyEngine.Client
import RubyEngine.Json.Numbers
import RubyEngine.Json.Parser

/-!
# Values of the host application

What a closure returns, and what becomes of it under `json_encode`. An object that
serializes itself runs code of the provider while the text is being made, and
that code may throw.
-/
namespace RubyEngine.Client

open Json (Doc Integer Number Style)

/-! ## Exceptions -/

/-- `^[a-z][a-z0-9_]{0,62}$` -/
def isErrorType : Bytes → Bool
  | [] => false
  | first :: rest =>
      (0x61 ≤ first && first ≤ 0x7a) && decide (rest.length ≤ 62) &&
        rest.all (fun b => (0x61 ≤ b && b ≤ 0x7a) || (0x30 ≤ b && b ≤ 0x39) || b = 0x5f)

structure CapabilityFailure where
  errorType : Bytes
  message : Bytes
  valid : isErrorType errorType = true
  deriving DecidableEq

inductive Thrown where
  | capability (failure : CapabilityFailure)
  | json (message : Bytes)
  | other (message : Bytes)
  deriving DecidableEq

/-- `new RuntimeException` -/
def Thrown.runtime (message : String) : Thrown := .other (utf8 message)

/-- The same exception without its text, which a capability failure keeps. -/
def Thrown.blank : Thrown → Thrown
  | .capability failure => .capability failure
  | .json _ => .json []
  | .other _ => .other []

def malformedUtf8 : Thrown := .json (utf8 "Malformed UTF-8 characters, possibly incorrectly encoded")

def notFinite : Thrown := .json (utf8 "Inf and NaN cannot be JSON encoded")

def unsupportedType : Thrown := .json (utf8 "Type is not supported")

def tooDeep : Thrown := .json (utf8 "Maximum stack depth exceeded")

/-! ## Values -/

inductive Provided where
  | null
  | bool (b : Bool)
  | int (i : Integer)
  | float (bits : UInt64)
  | string (bytes : Bytes)
  | list (items : List Provided)
  /-- An array that is not a list, or the public properties of an object. -/
  | table (entries : List (Bytes × Provided))
  /-- A resource, an enumeration without values, or an array inside itself. -/
  | unsupported
  /-- An object whose `jsonSerialize` returns a value. -/
  | serializes (value : Provided)
  | throws (e : Thrown)

namespace Provided

/-- Induction over a value, with the hypothesis at every item and entry. -/
@[elab_as_elim]
theorem induct {P : Provided → Prop} (null : P .null) (bool : ∀ b, P (.bool b))
    (int : ∀ i, P (.int i)) (float : ∀ bits, P (.float bits)) (string : ∀ bytes, P (.string bytes))
    (list : ∀ items, (∀ v ∈ items, P v) → P (.list items))
    (table : ∀ entries, (∀ e ∈ entries, P e.2) → P (.table entries))
    (unsupported : P .unsupported) (serializes : ∀ v, P v → P (.serializes v))
    (throws : ∀ e, P (.throws e)) : ∀ v, P v := by
  intro v
  refine @Provided.rec P (fun items => ∀ v ∈ items, P v) (fun entries => ∀ e ∈ entries, P e.2)
    (fun e => P e.2) null bool int float string list table unsupported serializes throws
    ?_ ?_ ?_ ?_ ?_ v
  · intro v h; cases h
  · intro head tail hh ht v h
    rcases List.mem_cons.mp h with rfl | h
    · exact hh
    · exact ht v h
  · intro e h; cases h
  · intro head tail hh ht e h
    rcases List.mem_cons.mp h with rfl | h
    · exact hh
    · exact ht e h
  · intro _ _ h; exact h

mutual
/-- The same value, with other exceptions in it. -/
def retext (f : Thrown → Thrown) : Provided → Provided
  | .list items => .list (retextItems f items)
  | .table entries => .table (retextEntries f entries)
  | .serializes value => .serializes (value.retext f)
  | .throws e => .throws (f e)
  | value => value
def retextItems (f : Thrown → Thrown) : List Provided → List Provided
  | [] => []
  | value :: rest => value.retext f :: retextItems f rest
def retextEntries (f : Thrown → Thrown) : List (Bytes × Provided) → List (Bytes × Provided)
  | [] => []
  | (key, value) :: rest => (key, value.retext f) :: retextEntries f rest
end

theorem retextItems_eq_map (f : Thrown → Thrown) (items : List Provided) :
    retextItems f items = items.map (retext f) := by
  induction items with
  | nil => rfl
  | cons value rest ih => rw [retextItems, ih, List.map_cons]

theorem retextEntries_eq_map (f : Thrown → Thrown) (entries : List (Bytes × Provided)) :
    retextEntries f entries = entries.map (fun e => (e.1, e.2.retext f)) := by
  induction entries with
  | nil => rfl
  | cons e rest ih => rw [retextEntries, ih, List.map_cons]

theorem retext_retext (f g : Thrown → Thrown) (value : Provided) :
    (value.retext f).retext g = value.retext (g ∘ f) := by
  induction value using induct with
  | null | bool | int | float | string | unsupported | throws => rfl
  | list items ih =>
    simp only [retext, retextItems_eq_map, List.map_map]
    exact congrArg list (List.map_congr_left ih)
  | table entries ih =>
    simp only [retext, retextEntries_eq_map, List.map_map]
    refine congrArg table (List.map_congr_left (fun e he => ?_))
    exact Prod.ext rfl (ih e he)
  | serializes value ih => rw [retext, retext, retext, ih]

end Provided

/-! ## `json_encode` -/

/-- The exponent of a float is not the one of the infinities and of NaN. -/
def isFinite (bits : UInt64) : Bool := bits.toNat / 2 ^ 52 % 2 ^ 11 ≠ 2 ^ 11 - 1

def encodeString (bytes : Bytes) : Except Thrown String :=
  match decodeUtf8 bytes with
  | some s => .ok s
  | none => .error malformedUtf8

@[simp] theorem encodeString_utf8 (s : String) : encodeString (utf8 s) = .ok s := by
  rw [encodeString, decodeUtf8_eq_some.mpr rfl]

/-- The arrays and objects that `json_encode` opens inside one another by default. -/
def encodeDepth : Nat := 512

/-- What an array is at the end of its items, the depth being tested only here. -/
def closeArray (depth : Nat) (d : Doc) : Except Thrown Doc :=
  if encodeDepth < depth then .error tooDeep else .ok d

mutual
/-- The document that `json_encode` prints inside `depth` arrays and objects. -/
def encode (depth : Nat) : Provided → Except Thrown Doc
  | .null => .ok .null
  | .bool b => .ok (.bool b)
  | .int i => .ok (.number (.int i))
  | .float bits => if isFinite bits then .ok (.number (.float bits)) else .error notFinite
  | .string bytes => (encodeString bytes).map Doc.string
  | .list items => do
      let docs ← encodeItems (depth + 1) items
      closeArray (depth + 1) (.array docs)
  | .table entries => do
      let members ← encodeEntries (depth + 1) entries
      closeArray (depth + 1) (.object members)
  | .unsupported => .error unsupportedType
  | .serializes value => encode depth value
  | .throws e => .error e
def encodeItems (depth : Nat) : List Provided → Except Thrown (List Doc)
  | [] => .ok []
  | value :: rest => do
      let d ← encode depth value
      let docs ← encodeItems depth rest
      return d :: docs
def encodeEntries (depth : Nat) : List (Bytes × Provided) → Except Thrown (List (String × Doc))
  | [] => .ok []
  | (key, value) :: rest => do
      let name ← encodeString key
      let d ← encode depth value
      let members ← encodeEntries depth rest
      return (name, d) :: members
end

/-- The spelling of a character in a frame: slashes and characters beyond ASCII stand
for themselves, except the two line terminators of JavaScript. -/
def frameSpell (c : Char) : Bytes :=
  if c = '/' then [0x2f]
  else if 0x80 ≤ c.toNat ∧ c ≠ '\u2028' ∧ c ≠ '\u2029' then String.utf8EncodeChar c
  else spell c

/-! ## The functions of PHP -/

/-- What is read for a number: an integer beyond the signed range becomes a float. -/
def narrowNumber (round : Integer → UInt64) : Number → Number
  | .int i => if i.val < 2 ^ 63 then .int i else .float (round i)
  | .float bits => .float bits

/-- The parts of PHP that the client takes as they are. -/
structure Php where
  /-- `json_decode` into objects, down to depth 128. -/
  decode : Bytes → Option Doc
  /-- The float that is read for an integer beyond the signed range. -/
  round : Integer → UInt64
  /-- The text of a finite float under the default flags. -/
  float : UInt64 → Bytes
  /-- The text of a finite float that keeps a zero fraction. -/
  exactFloat : UInt64 → Bytes

/-- The arrays and objects that the client lets stand inside one another. -/
def decodeDepth : Nat := 128

/-- Decoding by the parser of this development. -/
def Php.reference : Php where
  decode bytes := (Json.parse bytes).bind (fun d =>
    if readable d ∧ d.nesting ≤ decodeDepth then some (d.mapNumbers (narrowNumber (fun _ => 0)))
    else none)
  round _ := 0
  float _ := []
  exactFloat _ := []

def Php.logStyle (php : Php) : Style := { encoder with float := php.float }

def Php.frameStyle (php : Php) : Style := ⟨frameSpell, php.exactFloat⟩

def hasFinite : Doc → Bool
  | .number (.float bits) => isFinite bits
  | _ => true

/-- `json_encode` of a value that came out of `json_decode`. -/
def Php.encodeRead (php : Php) (d : Doc) : Except Thrown Bytes :=
  if d.every hasFinite then .ok (php.logStyle.render d) else .error notFinite

/-! ## The texts of exceptions in a value -/

section Retext

variable {α β : Type} {f h k : Thrown → Thrown}

theorem mapError_bind {x y : Except Thrown α} {p q : α → Except Thrown β}
    (hx : x.mapError h = y.mapError k) (hp : ∀ a, (p a).mapError h = (q a).mapError k) :
    (x >>= p).mapError h = (y >>= q).mapError k := by
  cases x with
  | ok a =>
    cases y with
    | ok b =>
      obtain rfl := Except.ok.inj hx
      exact hp a
    | error e => cases hx
  | error e =>
    cases y with
    | ok b => cases hx
    | error e' =>
      have he : h e = k e' := Except.error.inj hx
      show Except.error (h e) = Except.error (k e')
      rw [he]

/-- Other exceptions in a value do not show in the document that comes out, only in the
exception that comes out in its place. -/
theorem encode_retext (hf : ∀ e, h (f e) = k e) (hjson : ∀ message, h (.json message) = k (.json message))
    (depth : Nat) (value : Provided) :
    (encode depth (value.retext f)).mapError h = (encode depth value).mapError k := by
  have hstring : ∀ bytes, (encodeString bytes).mapError h = (encodeString bytes).mapError k := by
    intro bytes
    unfold encodeString
    split
    · rfl
    · exact congrArg Except.error (hjson _)
  have hclose : ∀ depth d, (closeArray depth d).mapError h = (closeArray depth d).mapError k := by
    intro depth d
    unfold closeArray
    split
    · exact congrArg Except.error (hjson _)
    · rfl
  induction value using Provided.induct generalizing depth with
  | null | bool | int => rfl
  | float bits =>
    simp only [Provided.retext, encode]
    split
    · rfl
    · exact congrArg Except.error (hjson _)
  | string bytes => exact mapError_bind (hstring bytes) (fun _ => rfl)
  | unsupported => exact congrArg Except.error (hjson _)
  | list items ih =>
    rw [Provided.retext, encode, encode, Provided.retextItems_eq_map]
    refine mapError_bind ?_ (fun _ => hclose _ _)
    induction items with
    | nil => rfl
    | cons value rest htail =>
      rw [List.map_cons, encodeItems, encodeItems]
      refine mapError_bind (ih value (List.mem_cons_self ..) _) (fun _ => ?_)
      exact mapError_bind (htail (fun v hv => ih v (List.mem_cons_of_mem _ hv))) (fun _ => rfl)
  | table entries ih =>
    rw [Provided.retext, encode, encode, Provided.retextEntries_eq_map]
    refine mapError_bind ?_ (fun _ => hclose _ _)
    induction entries with
    | nil => rfl
    | cons e rest htail =>
      rw [List.map_cons, encodeEntries, encodeEntries]
      refine mapError_bind (hstring e.1) (fun _ => ?_)
      refine mapError_bind (ih e (List.mem_cons_self ..) _) (fun _ => ?_)
      exact mapError_bind (htail (fun v hv => ih v (List.mem_cons_of_mem _ hv))) (fun _ => rfl)
  | serializes value ih => exact ih depth
  | throws e => exact congrArg Except.error (hf e)

end Retext

end RubyEngine.Client
