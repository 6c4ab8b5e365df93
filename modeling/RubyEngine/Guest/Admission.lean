import RubyEngine.Bytecode
import RubyEngine.Guest.Tree

/-!
# Admission of compiled code

The guest walks over the code that the compiler has made and refuses what the
profile does not have. The walk decodes an instruction to check it, and steps
over it with a decoder of its own. What the compiler's headers define is a
parameter: the table of the instructions, their decoder and the symbol names.
-/
namespace RubyEngine.Guest

open Bytecode (Extension Memory Table Insn)

/-! ## Compiled code -/

/-- The opcodes that admission looks at. -/
inductive Op where
  | CLASS | MODULE | SCLASS | SDEF | ALIAS | UNDEF | SETCONST | SETMCNST | SETGV
  | GETGV | GETCONST | GETMCNST | TDEF
  | SSEND | SSEND0 | SSENDB | SEND | SEND0 | SENDB
  deriving DecidableEq, Repr

/-- `mrb_insn_data` -/
structure InsnData where
  insn : UInt8
  a : Nat := 0
  b : Nat := 0
  c : Nat := 0
  deriving DecidableEq, Repr

/-- What admission takes from the headers and the library of the virtual machine. -/
structure Mruby where
  table : Table
  number : Op → UInt8
  /-- `mrb_decode_insn` -/
  decodeInsn : Memory → Nat → InsnData
  /-- `mrb_sym_name` -/
  symName : Nat → Option Bytes

/-- The decoder of the library reads the table: it returns the opcode behind an
extension, and the second operand as `b`. -/
structure Mruby.Lawful (mruby : Mruby) : Prop where
  extensions : mruby.table.Lawful
  insn : ∀ memory pc,
    (mruby.decodeInsn memory pc).insn = (mruby.table.decode memory pc).1.opcode
  b : ∀ memory pc,
    (mruby.decodeInsn memory pc).b = (mruby.table.decode memory pc).1.operands.getD 1 0

/-- `mrb_irep`, with the memory that follows its code. -/
inductive Irep where
  | node (iseq : Bytes) (behind : Memory) (syms : List Nat) (reps : List Irep)

namespace Irep

def iseq : Irep → Bytes
  | .node iseq _ _ _ => iseq

def syms : Irep → List Nat
  | .node _ _ syms _ => syms

def reps : Irep → List Irep
  | .node _ _ _ reps => reps

/-- The memory from the first byte of the code on. -/
def memory : Irep → Memory
  | .node iseq behind _ _ => fun i => (iseq[i]?).getD (behind i)

/-- The part of a tree at some depth below its root. -/
inductive At : Irep → Nat → Irep → Prop where
  | here (irep : Irep) : At irep 0 irep
  | inside {irep rep part : Irep} {depth : Nat} : rep ∈ irep.reps → At rep depth part →
      At irep (depth + 1) part

@[elab_as_elim]
theorem induct {P : Irep → Prop} (node : ∀ irep : Irep, (∀ rep ∈ irep.reps, P rep) → P irep) :
    ∀ irep, P irep := by
  intro irep
  refine @Irep.rec P (fun reps => ∀ rep ∈ reps, P rep) ?_ ?_ ?_ irep
  · intro iseq behind syms reps ih
    exact node _ ih
  · intro rep h
    cases h
  · intro head tail hh ht rep h
    rcases List.mem_cons.mp h with rfl | h
    · exact hh
    · exact ht rep h

end Irep

/-! ## `next_instruction` -/

/-- The operands of a format, fetched one by one. -/
def fetch : List Nat → Nat → Nat
  | [], pc => pc
  | width :: widths, pc => fetch widths (pc + width)

def nextInstruction (table : Table) (memory : Memory) (pc : Nat) : Nat :=
  let instruction := memory pc
  let pc := fetch (table.operands none instruction) (pc + 1)
  if instruction = table.ext1 then
    fetch (table.operands (some .ext1) (memory pc)) (pc + 1)
  else if instruction = table.ext2 then
    fetch (table.operands (some .ext2) (memory pc)) (pc + 1)
  else if instruction = table.ext3 then
    fetch (table.operands (some .ext3) (memory pc)) (pc + 1)
  else pc

/-! ## `admit` -/

def forbidden : List String :=
  ["eval", "instance_eval", "class_eval", "module_eval", "require",
    "load", "autoload", "send", "__send__", "public_send", "define_method",
    "define_singleton_method", "const_get", "const_set", "remove_const", "instance_variable_set",
    "instance_variable_get", "class_variable_set", "class_variable_get", "singleton_class",
    "extend", "include", "prepend", "method_missing", "remove_method", "alias_method",
    "undef_method", "system", "exec", "spawn", "fork", "sleep", "rand", "srand", "binding", "ENV",
    "IO", "File", "Dir", "Process", "Thread", "Fiber", "Socket", "ObjectSpace", "Marshal", "Time",
    "Random"]

/-- Opcodes that the profile does not have. -/
def banned : List Op :=
  [.CLASS, .MODULE, .SCLASS, .SDEF, .ALIAS, .UNDEF, .SETCONST, .SETMCNST, .SETGV]

/-- Opcodes whose second operand is a symbol that names what they invoke or read. -/
def naming : List Op :=
  [.GETGV, .GETCONST, .GETMCNST, .TDEF, .SSEND, .SSEND0, .SSENDB, .SEND, .SEND0, .SENDB]

def Exception.rejected (message : String) : Exception := .builtin "SyntaxError" message

/-- The `switch` over one decoded instruction. -/
def inspectInsn (mruby : Mruby) (syms : List Nat) (instruction : InsnData) :
    Except Exception Unit :=
  if instruction.insn ∈ banned.map mruby.number then
    .error (.rejected
      "Classes, monkey-patching and global mutation are outside opencompany-code-v1")
  else if instruction.insn ∈ naming.map mruby.number then
    match syms[instruction.b]? with
    | none => .error (.rejected "Invalid symbol reference")
    | some sym =>
        match mruby.symName sym with
        | none => .ok ()
        | some name =>
            match forbidden.find? (fun deny => name = utf8 deny) with
            | some deny => .error (.rejected ("Unsupported Ruby profile capability: " ++ deny))
            | none => .ok ()
  else .ok ()

/-- The loop over the code, from an address on. -/
def admitCode (mruby : Mruby) (irep : Irep) (pc : Nat) : Except Exception Unit :=
  if pc < irep.iseq.length then
    match inspectInsn mruby irep.syms (mruby.decodeInsn irep.memory pc) with
    | .error e => .error e
    | .ok () =>
        let next := nextInstruction mruby.table irep.memory pc
        if next ≤ pc ∨ irep.iseq.length < next then
          .error (.rejected "Invalid compiler instruction boundary")
        else admitCode mruby irep next
  else .ok ()
termination_by irep.iseq.length - pc
decreasing_by omega

mutual
/-- `admit` -/
def admitIrep (mruby : Mruby) (depth : Nat) : Irep → Except Exception Unit
  | .node iseq behind syms reps =>
      if 128 < depth then .error (.builtin "RangeError" "Compiler nesting limit exceeded")
      else
        match admitCode mruby (.node iseq behind syms reps) 0 with
        | .error e => .error e
        | .ok () => admitReps mruby (depth + 1) reps
def admitReps (mruby : Mruby) (depth : Nat) : List Irep → Except Exception Unit
  | [] => .ok ()
  | rep :: rest =>
      match admitIrep mruby depth rep with
      | .error e => .error e
      | .ok () => admitReps mruby depth rest
end

/-! ## What is admitted -/

/-- An instruction of the profile, in code with these symbols. -/
structure Permitted (mruby : Mruby) (syms : List Nat) (insn : Insn) : Prop where
  kind : insn.opcode ∉ banned.map mruby.number
  names : insn.opcode ∈ naming.map mruby.number → ∃ sym, syms[insn.operands.getD 1 0]? = some sym ∧
    ∀ name, mruby.symName sym = some name → name ∉ forbidden.map utf8

/-- Code that is whole instructions of the profile, from its first byte to its last. -/
def Profiled (mruby : Mruby) (irep : Irep) : Prop :=
  ∃ insns, mruby.table.Instructions irep.iseq insns ∧
    ∀ insn ∈ insns, Permitted mruby irep.syms insn

/-! ## The two decoders -/

theorem fetch_eq (widths : List Nat) (pc : Nat) : fetch widths pc = pc + widths.sum := by
  induction widths generalizing pc with
  | nil => rfl
  | cons width widths ih => rw [fetch, ih, List.sum_cons, Nat.add_assoc]

/-- The step goes over the instruction that was decoded. -/
theorem nextInstruction_eq {table : Table} (h : table.Lawful) (memory : Memory) (pc : Nat) :
    nextInstruction table memory pc = pc + (table.decode memory pc).2 := by
  unfold nextInstruction Table.decode Table.extension
  simp only [fetch_eq]
  split
  · next h1 =>
    rw [h1, h.ext1]
    simp
    omega
  · split
    · next h2 =>
      rw [h2, h.ext2]
      simp
      omega
    · split
      · next h3 =>
        rw [h3, h.ext3]
        simp
        omega
      · simp
        omega

theorem inspectInsn_ok {mruby : Mruby} (h : mruby.Lawful) (syms : List Nat) (memory : Memory)
    (pc : Nat) : inspectInsn mruby syms (mruby.decodeInsn memory pc) = .ok () ↔
      Permitted mruby syms (mruby.table.decode memory pc).1 := by
  unfold inspectInsn
  rw [h.insn, h.b]
  generalize (mruby.table.decode memory pc).1 = insn
  constructor
  · intro hok
    split at hok
    · cases hok
    · next hkind =>
      refine ⟨hkind, fun hnaming => ?_⟩
      rw [if_pos hnaming] at hok
      split at hok
      · cases hok
      · next sym hsym =>
        refine ⟨sym, hsym, ?_⟩
        intro name hname hmem
        rw [hname] at hok
        dsimp only at hok
        split at hok
        · cases hok
        · next hnone =>
          obtain ⟨deny, hdeny, rfl⟩ := List.mem_map.mp hmem
          simpa using List.find?_eq_none.mp hnone deny hdeny
  · intro hp
    rw [if_neg hp.kind]
    split
    · next hnaming =>
      obtain ⟨sym, hsym, hnames⟩ := hp.names hnaming
      rw [hsym]
      dsimp only
      split
      · rfl
      · next name hname =>
        have hnone : forbidden.find? (fun deny => name = utf8 deny) = none := by
          rw [List.find?_eq_none]
          intro deny hdeny heq
          exact hnames name hname (List.mem_map.mpr ⟨deny, hdeny, (of_decide_eq_true heq).symm⟩)
        rw [hnone]
    · rfl

/-! ## The walk over the code -/

theorem memory_eq (irep : Irep) (i : Nat) (h : i < irep.iseq.length) :
    irep.memory i = irep.iseq[i] := by
  cases irep with
  | node iseq behind syms reps =>
    have hi : i < iseq.length := h
    simp [Irep.memory, Irep.iseq, hi]

/-- The bytes of the code are in memory. -/
theorem agree_memory {irep : Irep} {pc n : Nat} (h : pc + n ≤ irep.iseq.length) :
    Bytecode.Agree irep.memory (Bytecode.ofBytes ((irep.iseq.drop pc).take n)) pc 0 n := by
  intro i hi
  rw [memory_eq irep (pc + i) (by omega), Bytecode.ofBytes, Nat.zero_add, List.getD_eq_getElem?_getD,
    List.getElem?_take_of_lt hi, List.getElem?_drop, List.getElem?_eq_getElem (by omega)]
  rfl

/-- One turn of the loop is one whole instruction of the profile. -/
theorem admitCode_step {mruby : Mruby} (h : mruby.Lawful) {irep : Irep} {pc : Nat}
    (hpc : pc < irep.iseq.length) :
    admitCode mruby irep pc = .ok () ↔
      ∃ n, (mruby.table.decode irep.memory pc).2 = n ∧ pc + n ≤ irep.iseq.length ∧
        Permitted mruby irep.syms (mruby.table.decode irep.memory pc).1 ∧
        admitCode mruby irep (pc + n) = .ok () := by
  have hpos := Bytecode.decode_pos mruby.table irep.memory pc
  have hinspect := inspectInsn_ok h irep.syms irep.memory pc
  rw [admitCode, if_pos hpc, nextInstruction_eq h.extensions]
  constructor
  · intro hok
    split at hok
    · cases hok
    · next hi =>
      dsimp only at hok
      split at hok
      · cases hok
      · next hn => exact ⟨_, rfl, by omega, hinspect.mp hi, hok⟩
  · rintro ⟨n, rfl, hle, hp, hrest⟩
    rw [hinspect.mpr hp]
    dsimp only
    rw [if_neg (by omega)]
    exact hrest

/-- The loop succeeds from an address on exactly when whole instructions of the
profile start there and end with the code. -/
theorem admitCode_ok {mruby : Mruby} (h : mruby.Lawful) (irep : Irep) (pc : Nat)
    (hpc : pc ≤ irep.iseq.length) :
    admitCode mruby irep pc = .ok () ↔
      ∃ insns, mruby.table.Instructions (irep.iseq.drop pc) insns ∧
        ∀ insn ∈ insns, Permitted mruby irep.syms insn := by
  induction hrest : irep.iseq.length - pc using Nat.strong_induction_on generalizing pc with
  | _ rest ih =>
    by_cases hend : pc < irep.iseq.length
    · rw [admitCode_step h hend]
      have hpos := Bytecode.decode_pos mruby.table irep.memory pc
      constructor
      · rintro ⟨n, hn, hle, hp, hok⟩
        obtain ⟨insns, hinsns, hall⟩ := (ih _ (by omega) (pc + n) hle rfl).mp hok
        have hlen : ((irep.iseq.drop pc).take n).length = n := by
          rw [List.length_take, List.length_drop]
          omega
        have hagree := agree_memory hle
        have hwhole : mruby.table.Whole ((irep.iseq.drop pc).take n)
            (mruby.table.decode irep.memory pc).1 := by
          apply Bytecode.whole_of_decode
          · rwa [hlen]
          · exact hn.trans hlen.symm
        refine ⟨(mruby.table.decode irep.memory pc).1 :: insns, ?_, ?_⟩
        · rw [← List.take_append_drop n (irep.iseq.drop pc), List.drop_drop]
          exact .cons hwhole hinsns
        · intro insn hmem
          rcases List.mem_cons.mp hmem with rfl | hmem
          · exact hp
          · exact hall insn hmem
      · rintro ⟨insns, hinsns, hall⟩
        generalize hcode : irep.iseq.drop pc = code at hinsns
        cases hinsns with
        | nil =>
          rw [List.drop_eq_nil_iff] at hcode
          omega
        | @cons bytes tail insn insns hwhole htail =>
          have hle : pc + bytes.length ≤ irep.iseq.length := by
            have hl := congrArg List.length hcode
            rw [List.length_drop, List.length_append] at hl
            omega
          have hbytes : (irep.iseq.drop pc).take bytes.length = bytes := by
            rw [hcode]
            exact List.take_left' rfl
          have hagree := agree_memory hle
          rw [hbytes] at hagree
          have hdecode := Bytecode.decode_of_whole hwhole (fun i hi => (hagree i hi).symm)
          have hdrop : irep.iseq.drop (pc + bytes.length) = tail := by
            rw [← List.drop_drop, hcode]
            exact List.drop_left' rfl
          rw [hdecode] at hpos ⊢
          refine ⟨bytes.length, rfl, hle, hall insn (by simp), ?_⟩
          exact (ih _ (by omega) _ hle rfl).mpr
            ⟨insns, hdrop ▸ htail, fun x hx => hall x (List.mem_cons_of_mem _ hx)⟩
    · have hnil : irep.iseq.drop pc = [] := List.drop_eq_nil_iff.mpr (Nat.not_lt.mp hend)
      rw [admitCode, if_neg hend, hnil]
      exact ⟨fun _ => ⟨[], .nil, by simp⟩, fun _ => rfl⟩

/-! ## The tree -/

theorem admitReps_ok (mruby : Mruby) (depth : Nat) (reps : List Irep) :
    admitReps mruby depth reps = .ok () ↔
      ∀ rep ∈ reps, admitIrep mruby depth rep = .ok () := by
  induction reps with
  | nil => simp [admitReps]
  | cons rep rest ih =>
    rw [admitReps, List.forall_mem_cons, ← ih]
    cases admitIrep mruby depth rep with
    | error e => simp
    | ok u => simp

theorem admitIrep_node {mruby : Mruby} (h : mruby.Lawful) (depth : Nat) (irep : Irep) :
    admitIrep mruby depth irep = .ok () ↔
      depth ≤ 128 ∧ Profiled mruby irep ∧
        ∀ rep ∈ irep.reps, admitIrep mruby (depth + 1) rep = .ok () := by
  have hcode := admitCode_ok h irep 0 (Nat.zero_le _)
  rw [List.drop_zero] at hcode
  rw [Profiled, ← hcode, ← admitReps_ok]
  cases irep with
  | node iseq behind syms reps =>
    rw [admitIrep]
    by_cases hdepth : 128 < depth
    · rw [if_pos hdepth]
      constructor
      · intro hok
        cases hok
      · intro hok
        omega
    · rw [if_neg hdepth]
      cases hok : admitCode mruby (.node iseq behind syms reps) 0 with
      | error e => simp
      | ok u => simp [Irep.reps, Nat.not_lt.mp hdepth]

theorem at_iff {irep part : Irep} {depth : Nat} :
    irep.At depth part ↔ (depth = 0 ∧ part = irep) ∨
      ∃ rep ∈ irep.reps, ∃ d, depth = d + 1 ∧ rep.At d part := by
  constructor
  · intro hat
    cases hat with
    | here => exact Or.inl ⟨rfl, rfl⟩
    | inside hrep hat => exact Or.inr ⟨_, hrep, _, rfl, hat⟩
  · rintro (⟨rfl, rfl⟩ | ⟨rep, hrep, d, rfl, hat⟩)
    · exact .here _
    · exact .inside hrep hat

theorem admitIrep_ok {mruby : Mruby} (h : mruby.Lawful) (irep : Irep) (depth : Nat) :
    admitIrep mruby depth irep = .ok () ↔
      ∀ d part, irep.At d part → depth + d ≤ 128 ∧ Profiled mruby part := by
  induction irep using Irep.induct generalizing depth with
  | node irep ih =>
    rw [admitIrep_node h]
    constructor
    · rintro ⟨hdepth, hprofiled, hreps⟩ d part hat
      rcases at_iff.mp hat with ⟨rfl, rfl⟩ | ⟨rep, hrep, d, rfl, hbelow⟩
      · exact ⟨hdepth, hprofiled⟩
      · obtain ⟨hle, hpart⟩ := (ih rep hrep (depth + 1)).mp (hreps rep hrep) d part hbelow
        exact ⟨by omega, hpart⟩
    · intro hall
      obtain ⟨hdepth, hprofiled⟩ := hall 0 irep (.here irep)
      refine ⟨hdepth, hprofiled, fun rep hrep => (ih rep hrep (depth + 1)).mpr ?_⟩
      intro d part hat
      obtain ⟨hle, hpart⟩ := hall (d + 1) part (.inside hrep hat)
      exact ⟨by omega, hpart⟩

/-- Admission returns without an exception exactly when the tree is nested at most 128
deep and the code of every part of it is whole instructions of the profile. -/
theorem admission {mruby : Mruby} (h : mruby.Lawful) (irep : Irep) :
    admitIrep mruby 0 irep = .ok () ↔
      (∀ d part, irep.At d part → d ≤ 128) ∧
      ∀ d part, irep.At d part → Profiled mruby part := by
  rw [admitIrep_ok h]
  simp only [Nat.zero_add]
  exact ⟨fun hall => ⟨fun d part hat => (hall d part hat).1, fun d part hat => (hall d part hat).2⟩,
    fun ⟨hdepth, hall⟩ d part hat => ⟨hdepth d part hat, hall d part hat⟩⟩

/-! ## A small machine -/

/-- Instructions of two one-byte operands, of which an extension widens one or both. -/
def sampleTable : Table where
  ext1 := 0xfd
  ext2 := 0xfe
  ext3 := 0xff
  operands e opcode :=
    if opcode ∈ [0xfd, 0xfe, 0xff] then []
    else
      match e with
      | none => [1, 1]
      | some .ext1 => [2, 1]
      | some .ext2 => [1, 2]
      | some .ext3 => [2, 2]

/-- Two symbols, `size` and `send`. -/
def sampleMruby : Mruby where
  table := sampleTable
  number op := UInt8.ofNat (1 + (banned ++ naming).idxOf op)
  decodeInsn memory pc :=
    let insn := (sampleTable.decode memory pc).1
    { insn := insn.opcode, a := insn.operands.getD 0 0, b := insn.operands.getD 1 0 }
  symName sym := if sym = 0 then some (utf8 "size") else some (utf8 "send")

theorem sampleMruby_lawful : sampleMruby.Lawful where
  extensions := ⟨rfl, rfl, rfl⟩
  insn _ _ := rfl
  b _ _ := rfl

/-- A call of the first symbol, and in a block the same with a wide operand. -/
def sampleIrep : Irep :=
  .node [18, 1, 0] (fun _ => 0) [0, 1] [.node [0xfe, 18, 1, 0, 0] (fun _ => 0) [0, 1] []]

theorem permitted_size : Permitted sampleMruby [0, 1] ⟨18, [1, 0]⟩ where
  kind := by decide
  names _ := by
    refine ⟨0, rfl, ?_⟩
    intro name hname
    obtain rfl := Option.some.inj hname
    decide

theorem admission_sample : admitIrep sampleMruby 0 sampleIrep = .ok () := by
  have hroot : Profiled sampleMruby sampleIrep := by
    have hwhole : sampleMruby.table.Whole [18, 1, 0] ⟨18, [1, 0]⟩ := by decide
    refine ⟨[⟨18, [1, 0]⟩], .cons hwhole .nil, fun insn hinsn => ?_⟩
    rw [List.mem_singleton.mp hinsn]
    exact permitted_size
  have hblock : Profiled sampleMruby (.node [0xfe, 18, 1, 0, 0] (fun _ => 0) [0, 1] []) := by
    have hwhole : sampleMruby.table.Whole [0xfe, 18, 1, 0, 0] ⟨18, [1, 0]⟩ := by decide
    refine ⟨[⟨18, [1, 0]⟩], .cons hwhole .nil, fun insn hinsn => ?_⟩
    rw [List.mem_singleton.mp hinsn]
    exact permitted_size
  have hparts : ∀ d part, sampleIrep.At d part → d ≤ 128 ∧ Profiled sampleMruby part := by
    intro d part hat
    rcases at_iff.mp hat with ⟨rfl, rfl⟩ | ⟨rep, hrep, d, rfl, hbelow⟩
    · exact ⟨by decide, hroot⟩
    · obtain rfl := List.mem_singleton.mp hrep
      rcases at_iff.mp hbelow with ⟨rfl, rfl⟩ | ⟨rep, hrep, _⟩
      · exact ⟨by decide, hblock⟩
      · cases hrep
  exact (admission sampleMruby_lawful sampleIrep).mpr
    ⟨fun d part hat => (hparts d part hat).1, fun d part hat => (hparts d part hat).2⟩

example : admitIrep sampleMruby 0 (.node [0xfe, 18, 1, 0, 1] (fun _ => 0) [0, 1] []) =
    .error (.rejected "Unsupported Ruby profile capability: send") := by
  decide +kernel

end RubyEngine.Guest
