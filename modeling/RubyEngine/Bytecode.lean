import RubyEngine.Bytes

/-!
# Bytecode with operands of several widths

An instruction is an opcode and the operands that a table lists for it. One of
three extension opcodes may stand in front and changes the widths. A decoder
reads memory at an address; whether the instruction is whole is a question about
the bytes that it has read.
-/
namespace RubyEngine.Bytecode

inductive Extension where
  | ext1
  | ext2
  | ext3
  deriving DecidableEq, Repr

structure Table where
  ext1 : UInt8
  ext2 : UInt8
  ext3 : UInt8
  /-- The widths of the operands of an opcode in bytes, in their order. -/
  operands : Option Extension → UInt8 → List Nat

/-- The extension that an opcode is. -/
def Table.extension (table : Table) (opcode : UInt8) : Option Extension :=
  if opcode = table.ext1 then some .ext1
  else if opcode = table.ext2 then some .ext2
  else if opcode = table.ext3 then some .ext3
  else none

/-- An extension opcode alone has no operands. -/
structure Table.Lawful (table : Table) : Prop where
  ext1 : table.operands none table.ext1 = []
  ext2 : table.operands none table.ext2 = []
  ext3 : table.operands none table.ext3 = []

structure Insn where
  opcode : UInt8
  operands : List Nat
  deriving DecidableEq, Repr

/-! ## Decoding -/

abbrev Memory := Nat → UInt8

/-- A big-endian number of so many bytes. -/
def word (memory : Memory) (address : Nat) : Nat → Nat
  | 0 => 0
  | width + 1 => word memory address width * 256 + (memory (address + width)).toNat

def words (memory : Memory) : Nat → List Nat → List Nat
  | _, [] => []
  | address, width :: widths => word memory address width :: words memory (address + width) widths

/-- The instruction at an address, and its length. -/
def Table.decode (table : Table) (memory : Memory) (pc : Nat) : Insn × Nat :=
  match table.extension (memory pc) with
  | none =>
      let widths := table.operands none (memory pc)
      (⟨memory pc, words memory (pc + 1) widths⟩, 1 + widths.sum)
  | some e =>
      let widths := table.operands (some e) (memory (pc + 1))
      (⟨memory (pc + 1), words memory (pc + 2) widths⟩, 2 + widths.sum)

/-- The memory that holds these bytes, with zeros behind them. -/
def ofBytes (bytes : Bytes) : Memory := fun i => bytes.getD i 0

/-- The bytes are this one instruction, no more and no less. -/
def Table.Whole (table : Table) (bytes : Bytes) (insn : Insn) : Prop :=
  table.decode (ofBytes bytes) 0 = (insn, bytes.length)

instance (table : Table) (bytes : Bytes) (insn : Insn) : Decidable (table.Whole bytes insn) :=
  inferInstanceAs (Decidable (_ = _))

/-- Code that is a sequence of whole instructions. -/
inductive Table.Instructions (table : Table) : Bytes → List Insn → Prop where
  | nil : Instructions table [] []
  | cons {bytes rest : Bytes} {insn : Insn} {insns : List Insn} : table.Whole bytes insn →
      Instructions table rest insns → Instructions table (bytes ++ rest) (insn :: insns)

/-! ## What a decoder reads -/

/-- Two memories hold the same bytes at two addresses. -/
def Agree (m m' : Memory) (pc pc' n : Nat) : Prop := ∀ i < n, m (pc + i) = m' (pc' + i)

variable {table : Table} {m m' : Memory} {pc pc' : Nat}

theorem Agree.mono {n k : Nat} (h : Agree m m' pc pc' n) (hk : k ≤ n) : Agree m m' pc pc' k :=
  fun i hi => h i (hi.trans_le hk)

theorem Agree.shift {n k : Nat} (h : Agree m m' pc pc' (k + n)) :
    Agree m m' (pc + k) (pc' + k) n := by
  intro i hi
  have hki := h (k + i) (by omega)
  rwa [← Nat.add_assoc, ← Nat.add_assoc] at hki

theorem word_congr {width : Nat} (h : Agree m m' pc pc' width) :
    word m pc width = word m' pc' width := by
  induction width with
  | zero => rfl
  | succ width ih => rw [word, word, ih (h.mono (by omega)), h width (by omega)]

theorem words_congr {widths : List Nat} (h : Agree m m' pc pc' widths.sum) :
    words m pc widths = words m' pc' widths := by
  induction widths generalizing pc pc' with
  | nil => rfl
  | cons width widths ih =>
    rw [List.sum_cons] at h
    rw [words, words, word_congr (h.mono (by omega)), ih h.shift]

theorem decode_pos (table : Table) (m : Memory) (pc : Nat) : 0 < (table.decode m pc).2 := by
  unfold Table.decode
  split <;> (dsimp only; omega)

/-- The instruction depends on the bytes of its own length only. -/
theorem decode_congr (h : Agree m m' pc pc' (table.decode m pc).2) :
    table.decode m' pc' = table.decode m pc := by
  have hfirst : m pc = m' pc' := h 0 (decode_pos table m pc)
  unfold Table.decode at h ⊢
  rw [← hfirst]
  cases he : table.extension (m pc) with
  | none =>
    rw [he] at h
    dsimp only at h ⊢
    rw [words_congr h.shift]
  | some e =>
    rw [he] at h
    dsimp only at h ⊢
    have hsecond : m (pc + 1) = m' (pc' + 1) := h 1 (by omega)
    rw [← hsecond, words_congr h.shift]

/-- What the bytes of one instruction decode to, wherever they lie. -/
theorem decode_of_whole {bytes : Bytes} {insn : Insn} (h : table.Whole bytes insn)
    (hm : Agree (ofBytes bytes) m 0 pc bytes.length) :
    table.decode m pc = (insn, bytes.length) := by
  rw [Table.Whole] at h
  rw [← h]
  apply decode_congr
  rwa [h]

/-- The bytes that a decoder reads are a whole instruction. -/
theorem whole_of_decode {bytes : Bytes} (hm : Agree m (ofBytes bytes) pc 0 bytes.length)
    (hlen : (table.decode m pc).2 = bytes.length) :
    table.Whole bytes (table.decode m pc).1 := by
  rw [Table.Whole, ← hlen, decode_congr (hlen ▸ hm)]

end RubyEngine.Bytecode
