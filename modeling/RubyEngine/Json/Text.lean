import RubyEngine.Bytes
import RubyEngine.Json.Document

/-!
# JSON text

The grammar of JSON over UTF-8 bytes, with every kind of white space and escape.
Numbers are integers of the range of a `Document`; `-0`, which readers take for a
float, is not one of them, nor is a fraction or an exponent.
-/
namespace RubyEngine.Json

namespace Ascii

@[match_pattern] abbrev quote : UInt8 := 0x22
@[match_pattern] abbrev comma : UInt8 := 0x2c
@[match_pattern] abbrev minus : UInt8 := 0x2d
@[match_pattern] abbrev colon : UInt8 := 0x3a
@[match_pattern] abbrev openBracket : UInt8 := 0x5b
@[match_pattern] abbrev backslash : UInt8 := 0x5c
@[match_pattern] abbrev closeBracket : UInt8 := 0x5d
@[match_pattern] abbrev letterU : UInt8 := 0x75
@[match_pattern] abbrev openBrace : UInt8 := 0x7b
@[match_pattern] abbrev closeBrace : UInt8 := 0x7d

def null : Bytes := [0x6e, 0x75, 0x6c, 0x6c]
def false : Bytes := [0x66, 0x61, 0x6c, 0x73, 0x65]
def true : Bytes := [0x74, 0x72, 0x75, 0x65]

end Ascii

/-! ## White space -/

def isBlank (b : UInt8) : Bool := b = 0x20 || b = 0x09 || b = 0x0a || b = 0x0d

def Blank (bytes : Bytes) : Prop := ∀ b ∈ bytes, isBlank b = true

/-! ## Strings -/

def hexDigit (b : UInt8) : Option Nat :=
  if 0x30 ≤ b ∧ b ≤ 0x39 then some (b.toNat - 0x30)
  else if 0x61 ≤ b ∧ b ≤ 0x66 then some (b.toNat - 0x61 + 10)
  else if 0x41 ≤ b ∧ b ≤ 0x46 then some (b.toNat - 0x41 + 10)
  else none

/-- The code unit that four hexadecimal digits spell. -/
def hex4 (a b c d : UInt8) : Option Nat := do
  return (((← hexDigit a) * 16 + (← hexDigit b)) * 16 + (← hexDigit c)) * 16 + (← hexDigit d)

/-- The character of a two-byte escape. -/
def shortEscape (b : UInt8) : Option Char :=
  if b = Ascii.quote then some '"'
  else if b = Ascii.backslash then some '\\'
  else if b = 0x2f then some '/'
  else if b = 0x62 then some '\x08'
  else if b = 0x66 then some '\x0c'
  else if b = 0x6e then some '\n'
  else if b = 0x72 then some '\r'
  else if b = 0x74 then some '\t'
  else none

/-- The bytes that may stand for a character inside a string. -/
inductive Spells : Bytes → Char → Prop where
  | plain (c : Char) : 0x20 ≤ c.toNat → c ≠ '"' → c ≠ '\\' → Spells (String.utf8EncodeChar c) c
  | short (b : UInt8) (c : Char) : shortEscape b = some c → Spells [Ascii.backslash, b] c
  | unit (a b d e : UInt8) (c : Char) : hex4 a b d e = some c.toNat →
      Spells [Ascii.backslash, Ascii.letterU, a, b, d, e] c
  | pair (a b d e a' b' d' e' : UInt8) (high low : Nat) (c : Char) :
      hex4 a b d e = some high → hex4 a' b' d' e' = some low →
      0xd800 ≤ high → high < 0xdc00 → 0xdc00 ≤ low → low < 0xe000 →
      c.toNat = 0x10000 + (high - 0xd800) * 0x400 + (low - 0xdc00) →
      Spells [Ascii.backslash, Ascii.letterU, a, b, d, e,
        Ascii.backslash, Ascii.letterU, a', b', d', e'] c

inductive Chars : Bytes → List Char → Prop where
  | nil : Chars [] []
  | cons {bytes rest : Bytes} {c : Char} {cs : List Char} : Spells bytes c → Chars rest cs →
      Chars (bytes ++ rest) (c :: cs)

/-! ## Numbers -/

def digits (n : Nat) : Bytes := (Nat.toDigits 10 n).map (fun c => UInt8.ofNat c.toNat)

def decimal (i : Int) : Bytes :=
  if i < 0 then Ascii.minus :: digits i.natAbs else digits i.natAbs

/-! ## Values -/

mutual
/-- A text without white space around it. -/
inductive Element : Bytes → Doc → Prop where
  | null : Element Ascii.null .null
  | false : Element Ascii.false (.bool false)
  | true : Element Ascii.true (.bool true)
  | int (i : Integer) : Element (decimal i.val) (.number (.int i))
  | string {body : Bytes} {cs : List Char} : Chars body cs →
      Element (Ascii.quote :: body ++ [Ascii.quote]) (.string (String.ofList cs))
  | emptyArray {blank : Bytes} : Blank blank →
      Element (Ascii.openBracket :: blank ++ [Ascii.closeBracket]) (.array [])
  | array {body : Bytes} {items : List Doc} : Items body items →
      Element (Ascii.openBracket :: body ++ [Ascii.closeBracket]) (.array items)
  | emptyObject {blank : Bytes} : Blank blank →
      Element (Ascii.openBrace :: blank ++ [Ascii.closeBrace]) (.object [])
  | object {body : Bytes} {entries : List (String × Doc)} : Members body entries →
      Element (Ascii.openBrace :: body ++ [Ascii.closeBrace]) (.object entries)
/-- One or more items, separated by commas. -/
inductive Items : Bytes → List Doc → Prop where
  | one {before text after : Bytes} {d : Doc} : Blank before → Element text d → Blank after →
      Items (before ++ text ++ after) [d]
  | cons {before text after rest : Bytes} {d : Doc} {items : List Doc} : Blank before →
      Element text d → Blank after → Items rest items →
      Items (before ++ text ++ after ++ Ascii.comma :: rest) (d :: items)
/-- One or more members, separated by commas. -/
inductive Members : Bytes → List (String × Doc) → Prop where
  | one {blank key before colon text after : Bytes} {cs : List Char} {d : Doc} : Blank blank →
      Chars key cs → Blank before → Blank colon → Element text d → Blank after →
      Members (blank ++ (Ascii.quote :: key ++ [Ascii.quote]) ++ before ++
        Ascii.colon :: colon ++ text ++ after) [(String.ofList cs, d)]
  | cons {blank key before colon text after rest : Bytes} {cs : List Char} {d : Doc}
      {entries : List (String × Doc)} : Blank blank → Chars key cs → Blank before → Blank colon →
      Element text d → Blank after → Members rest entries →
      Members (blank ++ (Ascii.quote :: key ++ [Ascii.quote]) ++ before ++
        Ascii.colon :: colon ++ text ++ after ++ Ascii.comma :: rest)
        ((String.ofList cs, d) :: entries)
end

/-- A JSON text: one value, with white space around it. -/
def Text (bytes : Bytes) (d : Doc) : Prop :=
  ∃ before text after, Blank before ∧ Element text d ∧ Blank after ∧ bytes = before ++ text ++ after

theorem blank_nil : Blank [] := by simp [Blank]

theorem Element.text {bytes : Bytes} {d : Doc} (h : Element bytes d) : Text bytes d :=
  ⟨[], bytes, [], blank_nil, h, blank_nil, by simp⟩

end RubyEngine.Json
