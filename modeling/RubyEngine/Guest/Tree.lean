import RubyEngine.Bytes
import RubyEngine.Json.Document

/-!
# Host values on their way into the guest

Rust flattens a value into an array of nodes, and the C code rebuilds it with a
cursor into that array. Nothing but the array crosses: no end marker, and of a
container only the number of its children.
-/
namespace RubyEngine.Guest

open Json (Doc Number)

/-- `ruby_node`. The text is the bytes that the pointer points at. -/
structure Node where
  kind : Nat := 0
  integer : Int := 0
  number : UInt64 := 0
  text : Bytes := []
  length : Nat := 0
  deriving DecidableEq, Repr

/-! ## Flattening -/

namespace Tree

/-- The node of a value, without those of its children. -/
def node : Doc → Except String Node
  | .null => .ok {}
  | .bool b => .ok { kind := if b then 2 else 1 }
  | .number (.int i) =>
      if i.val < 2 ^ 63 then .ok { kind := 3, integer := i.val }
      else .error "Integer is outside signed 64-bit range"
  | .number (.float bits) => .ok { kind := 4, number := bits }
  | .string s => .ok { kind := 5, text := utf8 s, length := (utf8 s).length }
  | .array items => .ok { kind := 6, length := items.length }
  | .object entries => .ok { kind := 7, length := entries.length }

def tooDeep : String := "Host value nesting exceeds limit"

/-- `Tree::add` on a value without children, such as the key of a member. -/
def addLeaf (nodes : List Node) (value : Doc) (depth : Nat) : Except String (List Node) :=
  if 64 < depth then .error tooDeep
  else
    match node value with
    | .error e => .error e
    | .ok n => .ok (nodes ++ [n])

mutual
def add (nodes : List Node) : Doc → Nat → Except String (List Node)
  | .array items, depth =>
      match addLeaf nodes (.array items) depth with
      | .error e => .error e
      | .ok nodes => addItems nodes items (depth + 1)
  | .object entries, depth =>
      match addLeaf nodes (.object entries) depth with
      | .error e => .error e
      | .ok nodes => addEntries nodes entries (depth + 1)
  | value, depth => addLeaf nodes value depth
def addItems (nodes : List Node) : List Doc → Nat → Except String (List Node)
  | [], _ => .ok nodes
  | child :: rest, depth =>
      match add nodes child depth with
      | .error e => .error e
      | .ok nodes => addItems nodes rest depth
def addEntries (nodes : List Node) : List (String × Doc) → Nat → Except String (List Node)
  | [], _ => .ok nodes
  | (key, child) :: rest, depth =>
      match addLeaf nodes (.string key) depth with
      | .error e => .error e
      | .ok nodes =>
          match add nodes child depth with
          | .error e => .error e
          | .ok nodes => addEntries nodes rest depth
end

/-- `Tree::new` -/
def new (value : Doc) : Except String (List Node) := add [] value 0

end Tree

/-! ## Rebuilding -/

/-- A Ruby value that the host made: a tree. A record is its data hash. -/
inductive Ruby where
  | nil
  | bool (b : Bool)
  | integer (i : Int)
  | float (bits : UInt64)
  | string (bytes : Bytes)
  | array (items : List Ruby)
  | hash (entries : List (Bytes × Ruby))
  | record (entries : List (Bytes × Ruby))
  deriving Repr, Inhabited

/-- `mrb_hash_set` with a string as the key. -/
def hashSet (key : Bytes) (item : Ruby) : List (Bytes × Ruby) → List (Bytes × Ruby)
  | [] => [(key, item)]
  | (k, v) :: rest => if k = key then (k, item) :: rest else (k, v) :: hashSet key item rest

inductive Exception where
  /-- An exception of a built-in class. -/
  | builtin (type message : String)
  /-- The anonymous class for failed capabilities, with the variable `@code`. -/
  | capability (message : Bytes) (code : Option Bytes)
  deriving DecidableEq, Repr

/-- What can go wrong in `decode`. -/
inductive Trap where
  | raised (e : Exception)
  /-- A read behind the last node, which C leaves undefined. -/
  | outOfBounds
  /-- A key that is not a string. No tree has one, and hashes with such keys are not modelled. -/
  | foreignKey
  deriving DecidableEq, Repr

/-- The loop over the items of an array, one `decode` each. -/
def decodeItems (decode : Nat → Except Trap (Ruby × Nat)) :
    Nat → Nat → Except Trap (List Ruby × Nat)
  | 0, cursor => .ok ([], cursor)
  | n + 1, cursor =>
      match decode cursor with
      | .error e => .error e
      | .ok (item, cursor) =>
          match decodeItems decode n cursor with
          | .error e => .error e
          | .ok (items, cursor) => .ok (item :: items, cursor)

/-- The loop over the members of a map, a key and an item each. -/
def decodePairs (key item : Nat → Except Trap (Ruby × Nat)) :
    Nat → List (Bytes × Ruby) → Nat → Except Trap (List (Bytes × Ruby) × Nat)
  | 0, entries, cursor => .ok (entries, cursor)
  | n + 1, entries, cursor =>
      match key cursor with
      | .error e => .error e
      | .ok (.string k, cursor) =>
          match item cursor with
          | .error e => .error e
          | .ok (v, cursor) => decodePairs key item n (hashSet k v entries) cursor
      | .ok _ => .error .foreignKey

/-- `decode` with so many levels left: 65 at the root, none below depth 64. -/
def decodeRoom (nodes : List Node) : Nat → Nat → Bool → Except Trap (Ruby × Nat)
  | 0, _, _ => .error (.raised (.builtin "RangeError" "Value exceeds nesting limit"))
  | room + 1, cursor, records =>
      match nodes[cursor]? with
      | none => .error .outOfBounds
      | some node =>
          match node.kind with
          | 0 => .ok (.nil, cursor + 1)
          | 1 => .ok (.bool false, cursor + 1)
          | 2 => .ok (.bool true, cursor + 1)
          | 3 => .ok (.integer node.integer, cursor + 1)
          | 4 => .ok (.float node.number, cursor + 1)
          | 5 => .ok (.string (node.text.take node.length), cursor + 1)
          | 6 =>
              match decodeItems (fun c => decodeRoom nodes room c records) node.length
                (cursor + 1) with
              | .error e => .error e
              | .ok (items, cursor) => .ok (.array items, cursor)
          | 7 =>
              match decodePairs (fun c => decodeRoom nodes room c false)
                (fun c => decodeRoom nodes room c records) node.length [] (cursor + 1) with
              | .error e => .error e
              | .ok (entries, cursor) =>
                  .ok (if records then .record entries else .hash entries, cursor)
          | _ => .error (.raised (.builtin "TypeError" "Invalid host value"))

def decode (nodes : List Node) (cursor depth : Nat) (records : Bool) : Except Trap (Ruby × Nat) :=
  decodeRoom nodes (65 - depth) cursor records

end RubyEngine.Guest
