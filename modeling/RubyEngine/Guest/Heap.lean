import RubyEngine.Guest.Tree

/-!
# Object graphs of the guest

A Ruby value is immediate or the address of a heap object, and objects may be
shared or cyclic. Following the addresses unfolds a value to a tree, which need
not be finite. When it is, and has values of the right kinds only, it is a
document. Floats are left out.
-/
namespace RubyEngine.Guest

open Json (Doc)

/-- A signed 64-bit integer. -/
abbrev Word := { i : Int // -2 ^ 63 ≤ i ∧ i < 2 ^ 63 }

def Word.toInteger (i : Word) : Json.Integer :=
  ⟨i.val, i.property.1, i.property.2.trans (by decide)⟩

inductive MrbValue where
  | nil
  | bool (b : Bool)
  | integer (i : Word)
  | string (bytes : Bytes)
  | symbol (bytes : Bytes)
  | object (address : Nat)
  deriving DecidableEq, Repr

/-- The keys of a hash with their values. -/
abbrev Entries := List (MrbValue × MrbValue)

inductive Object where
  | array (items : List MrbValue)
  | hash (entries : Entries)
  /-- An instance of Record, with its variable `@data`. -/
  | record (data : MrbValue)
  | other
  deriving DecidableEq, Repr

abbrev Heap := Nat → Object

/-- The bytes of a string or a symbol. -/
def MrbValue.text : MrbValue → Option Bytes
  | .string bytes | .symbol bytes => some bytes
  | _ => none

/-- What a value holds, a record being the hash in its variable. -/
inductive Shape where
  | nil
  | bool (b : Bool)
  | integer (i : Word)
  | text (bytes : Bytes)
  | array (items : List MrbValue)
  | hash (entries : Entries)
  /-- A record without a data hash. -/
  | badRecord
  | other
  deriving DecidableEq, Repr

section

variable (heap : Heap)

def dataShape : MrbValue → Shape
  | .object address =>
      match heap address with
      | .hash entries => .hash entries
      | _ => .badRecord
  | _ => .badRecord

def shape : MrbValue → Shape
  | .nil => .nil
  | .bool b => .bool b
  | .integer i => .integer i
  | .string bytes | .symbol bytes => .text bytes
  | .object address =>
      match heap address with
      | .array items => .array items
      | .hash entries => .hash entries
      | .record data => dataShape heap data
      | .other => .other

/-! ## Unfolding -/

/-- One step of the unfolding. Hash keys are not steps. -/
inductive Child (v : MrbValue) : MrbValue → Prop where
  | item {x : MrbValue} {items : List MrbValue} :
      shape heap v = .array items → x ∈ items → Child v x
  | member {e : MrbValue × MrbValue} {entries : Entries} :
      shape heap v = .hash entries → e ∈ entries → Child v e.2

/-- `Occurs heap v n w`: the unfolding of `v` has the value `w` at depth `n`. -/
inductive Occurs : MrbValue → Nat → MrbValue → Prop where
  | root (v : MrbValue) : Occurs v 0 v
  | deeper {v x w : MrbValue} {n : Nat} : Child heap v x → Occurs x n w → Occurs v (n + 1) w

theorem occurs_succ {v w : MrbValue} {n : Nat} :
    Occurs heap v (n + 1) w ↔ ∃ x, Child heap v x ∧ Occurs heap x n w := by
  constructor
  · intro h
    cases h with
    | deeper hchild hrest => exact ⟨_, hchild, hrest⟩
  · intro ⟨x, hchild, hrest⟩
    exact .deeper hchild hrest

theorem Occurs.append {u v w : MrbValue} {m n : Nat} (h : Occurs heap u m v)
    (h' : Occurs heap v n w) : Occurs heap u (n + m) w := by
  induction h with
  | root _ => exact h'
  | deeper hchild _ ih => exact .deeper hchild (ih h')

/-- A value under itself is under itself at any depth. -/
theorem Occurs.cycle {v : MrbValue} {n : Nat} (h : Occurs heap v (n + 1) v) (bound : Nat) :
    ∃ m, bound ≤ m ∧ Occurs heap v m v := by
  induction bound with
  | zero => exact ⟨0, Nat.le_refl 0, .root v⟩
  | succ bound ih =>
    obtain ⟨m, hm, hocc⟩ := ih
    exact ⟨n + 1 + m, by omega, hocc.append heap h⟩

/-- The values that no encoding has. -/
inductive Fault (v : MrbValue) : Prop where
  /-- A hash key that is neither a string nor a symbol. -/
  | foreignKey {e : MrbValue × MrbValue} {entries : Entries} :
      shape heap v = .hash entries → e ∈ entries → e.1.text = none → Fault v
  /-- Two keys of a hash that become one string. -/
  | repeatedKey {entries : Entries} : shape heap v = .hash entries →
      ¬ (entries.filterMap (fun e => e.1.text)).Nodup → Fault v
  | badRecord : shape heap v = .badRecord → Fault v
  | other : shape heap v = .other → Fault v

/-- Every string, symbol and key under a value is the encoding of a text. -/
structure Textual (v : MrbValue) : Prop where
  texts : ∀ n w bytes, Occurs heap v n w → shape heap w = .text bytes → ValidUtf8 bytes
  keys : ∀ n w entries, Occurs heap v n w → shape heap w = .hash entries →
    ∀ e ∈ entries, ∀ bytes, e.1.text = some bytes → ValidUtf8 bytes

variable {heap} in
theorem Textual.child {v x : MrbValue} (h : Textual heap v) (hchild : Child heap v x) :
    Textual heap x where
  texts n w bytes hocc := h.texts (n + 1) w bytes (.deeper hchild hocc)
  keys n w entries hocc := h.keys (n + 1) w entries (.deeper hchild hocc)

/-! ## Documents -/

mutual
/-- The document is the unfolding of the value: a symbol counts as its string and a
record as its data. -/
def Unfolds : Doc → MrbValue → Prop
  | .null, v => shape heap v = .nil
  | .bool b, v => shape heap v = .bool b
  | .number n, v => ∃ i : Word, shape heap v = .integer i ∧ n = .int i.toInteger
  | .string s, v => shape heap v = .text (utf8 s)
  | .array ds, v => ∃ items, shape heap v = .array items ∧ UnfoldsItems ds items
  | .object ms, v => ∃ entries, shape heap v = .hash entries ∧ UnfoldsEntries ms entries ∧
      (ms.map Prod.fst).Nodup
def UnfoldsItems : List Doc → List MrbValue → Prop
  | [], items => items = []
  | d :: ds, items => ∃ v rest, items = v :: rest ∧ Unfolds d v ∧ UnfoldsItems ds rest
def UnfoldsEntries : List (String × Doc) → Entries → Prop
  | [], entries => entries = []
  | (k, d) :: ms, entries => ∃ e rest, entries = e :: rest ∧ e.1.text = some (utf8 k) ∧
      Unfolds d e.2 ∧ UnfoldsEntries ms rest
end

end

end RubyEngine.Guest
