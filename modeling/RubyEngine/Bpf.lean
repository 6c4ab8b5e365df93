import Mathlib.Algebra.Order.Ring.Int
import Mathlib.Data.List.Basic

/-!
# Classic BPF

The three instructions a system call filter needs: load a word of the data, jump
on equality, return. A jump is relative to the next instruction and goes forward
only, so a program of a given length takes at most so many steps.
-/
namespace RubyEngine.Bpf

/-- `struct sock_filter` -/
structure SockFilter where
  code : UInt16
  jt : UInt8
  jf : UInt8
  k : UInt32
  deriving DecidableEq, Repr

/-- What one instruction does. -/
inductive Outcome where
  | goto (pc : Nat) (a : UInt32)
  | returned (k : UInt32)
  /-- No instruction stands there, or it is not one of the three. -/
  | fault
  deriving DecidableEq, Repr

/-- The data of a filter, as words. A load is aligned. -/
def load (data : List UInt32) (k : UInt32) : Option UInt32 :=
  if k.toNat % 4 = 0 then data[k.toNat / 4]? else none

def step (program : List SockFilter) (data : List UInt32) (pc : Nat) (a : UInt32) : Outcome :=
  match program[pc]? with
  | none => .fault
  | some i =>
      if i.code = 0x20 then
        match load data i.k with
        | some word => .goto (pc + 1) word
        | none => .fault
      else if i.code = 0x15 then .goto (pc + 1 + (if a = i.k then i.jt else i.jf).toNat) a
      else if i.code = 0x06 then .returned i.k
      else .fault

/-- A run from an instruction: the instructions visited, and the value returned. -/
def run (program : List SockFilter) (data : List UInt32) :
    Nat → Nat → UInt32 → List Nat × Option UInt32
  | 0, _, _ => ([], none)
  | fuel + 1, pc, a =>
      match step program data pc a with
      | .returned k => ([pc], some k)
      | .fault => ([pc], none)
      | .goto next a' =>
          let rest := run program data fuel next a'
          (pc :: rest.1, rest.2)

/-- The run of a whole program. -/
def exec (program : List SockFilter) (data : List UInt32) : List Nat × Option UInt32 :=
  run program data program.length 0 0

/-- No jump leaves the program: there is an instruction at both of its targets. -/
def Closed : List SockFilter → Prop
  | [] => True
  | i :: rest =>
      (i.code = 0x15 → i.jt.toNat < rest.length ∧ i.jf.toNat < rest.length) ∧ Closed rest

variable {program : List SockFilter} {data : List UInt32}

theorem run_goto {pc next : Nat} {a a' : UInt32} (h : step program data pc a = .goto next a')
    (fuel : Nat) :
    run program data (fuel + 1) pc a =
      (pc :: (run program data fuel next a').1, (run program data fuel next a').2) := by
  rw [run, h]

theorem run_returned {pc : Nat} {a k : UInt32} (h : step program data pc a = .returned k)
    (fuel : Nat) : run program data (fuel + 1) pc a = ([pc], some k) := by
  rw [run, h]

/-- A run that returns has visited instructions of the program only. -/
theorem visited_lt {k : UInt32} {fuel pc : Nat} {a : UInt32}
    (h : (run program data fuel pc a).2 = some k) :
    ∀ visited ∈ (run program data fuel pc a).1, visited < program.length := by
  induction fuel generalizing pc a with
  | zero => cases h
  | succ fuel ih =>
    have hpc : step program data pc a ≠ .fault → pc < program.length := by
      intro hstep
      by_contra hout
      apply hstep
      rw [step, List.getElem?_eq_none (Nat.not_lt.mp hout)]
    cases hstep : step program data pc a with
    | fault =>
      rw [run, hstep] at h
      cases h
    | returned k' =>
      rw [run_returned hstep]
      intro visited hv
      rw [List.mem_singleton.mp hv]
      exact hpc (by rw [hstep]; nofun)
    | goto next a' =>
      rw [run_goto hstep] at h ⊢
      intro visited hv
      rcases List.mem_cons.mp hv with rfl | hv
      · exact hpc (by rw [hstep]; nofun)
      · exact ih h visited hv

/-! ## Programs by their parts -/

theorem step_load (pre post : List SockFilter) {word k : UInt32} (jt jf : UInt8)
    (hload : load data k = some word) (a : UInt32) :
    step (pre ++ ⟨0x20, jt, jf, k⟩ :: post) data pre.length a = .goto (pre.length + 1) word := by
  simp [step, hload]

theorem step_jump (data : List UInt32) (pre post : List SockFilter) (k a : UInt32) (jt jf : UInt8) :
    step (pre ++ ⟨0x15, jt, jf, k⟩ :: post) data pre.length a =
      .goto (pre.length + 1 + (if a = k then jt else jf).toNat) a := by
  simp [step]

theorem step_return (data : List UInt32) (pre post : List SockFilter) (k a : UInt32) (jt jf : UInt8) :
    step (pre ++ ⟨0x06, jt, jf, k⟩ :: post) data pre.length a = .returned k := by
  simp [step]

end RubyEngine.Bpf
