import RubyEngine.Bpf

/-!
# The system call filter of the guest

`platform` builds a classic BPF program from a list of numbers: a check of the
architecture, a comparison and a return for each number, and a kill at the end.
-/
namespace RubyEngine.Isolation

open Bpf (SockFilter)

/-- The architectures that the filter is built for. -/
inductive Target where
  | x86_64
  | aarch64
  deriving DecidableEq, Repr

/-- `ARCH` -/
def Target.arch : Target → UInt32
  | .x86_64 => 0xc000003e
  | .aarch64 => 0xc00000b7

def ALLOW : UInt32 := 0x7fff0000
def KILL : UInt32 := 0x80000000

def stmt (code : UInt16) (k : UInt32) : SockFilter := { code, jt := 0, jf := 0, k }

def jump (k : UInt32) (jt jf : UInt8) : SockFilter := { code := 0x15, jt, jf, k }

/-- `syscall as u32` -/
def asU32 (syscall : Int64) : UInt32 := syscall.toUInt64.toUInt32

def comparisons : List Int64 → List SockFilter
  | [] => []
  | syscall :: rest => jump (asU32 syscall) 0 1 :: stmt 0x06 ALLOW :: comparisons rest

/-- The vector `filter` behind the loop over the list. -/
def filter (target : Target) (numbers : List Int64) : List SockFilter :=
  [stmt 0x20 4, jump target.arch 1 0, stmt 0x06 KILL, stmt 0x20 0] ++ comparisons numbers ++
    [stmt 0x06 KILL]

/-- `libc::sock_fprog`: the kernel reads so many instructions behind the pointer. -/
structure SockFprog where
  len : UInt16
  filter : List SockFilter

def SockFprog.instructions (program : SockFprog) : List SockFilter :=
  program.filter.take program.len.toNat

def program (target : Target) (numbers : List Int64) : SockFprog where
  len := UInt16.ofNat (filter target numbers).length
  filter := filter target numbers

/-- What the guest may ask of the system. The numbers are those of its platform. -/
inductive Syscall where
  | read | write | close | fstat | brk | mmap | munmap | mprotect | madvise | mremap
  | clockGettime | getrusage | rtSigaction | rtSigprocmask | rtSigreturn | futex | getpid
  | gettid | tgkill | exit | exitGroup | schedYield
  deriving DecidableEq, Repr

def allow : List Syscall :=
  [.read, .write, .close, .fstat, .brk, .mmap, .munmap, .mprotect, .madvise, .mremap,
    .clockGettime, .getrusage, .rtSigaction, .rtSigprocmask, .rtSigreturn, .futex, .getpid,
    .gettid, .tgkill, .exit, .exitGroup, .schedYield]

/-- The program that `platform` installs. -/
def platform (target : Target) (number : Syscall → Int64) : SockFprog :=
  program target (allow.map number)

/-- The words of `seccomp_data`: number, architecture, and what no load reads. -/
def seccompData (nr arch : UInt32) (rest : List UInt32) : List UInt32 := nr :: arch :: rest

/-- What the filter is for. -/
def verdict (target : Target) (numbers : List Int64) (nr arch : UInt32) : UInt32 :=
  if arch = target.arch ∧ nr ∈ numbers.map asU32 then ALLOW else KILL

/-! ## The comparisons -/

theorem length_comparisons (numbers : List Int64) : (comparisons numbers).length = 2 * numbers.length := by
  induction numbers with
  | nil => rfl
  | cons syscall rest ih =>
    simp only [comparisons, List.length_cons, ih]
    omega

theorem length_filter (target : Target) (numbers : List Int64) :
    (filter target numbers).length = 2 * numbers.length + 5 := by
  simp only [filter, List.length_append, length_comparisons, List.length_cons, List.length_nil]
  omega

theorem closed_comparisons (numbers : List Int64) :
    Bpf.Closed (comparisons numbers ++ [stmt 0x06 KILL]) := by
  induction numbers with
  | nil => simp [comparisons, Bpf.Closed, stmt]
  | cons syscall rest ih => simpa [comparisons, Bpf.Closed, stmt, jump] using ih

/-- Every jump of the filter stays in it. -/
theorem closed_filter (target : Target) (numbers : List Int64) : Bpf.Closed (filter target numbers) := by
  have h := closed_comparisons numbers
  simpa [filter, Bpf.Closed, stmt, jump] using h

/-- From the first of some comparisons on, with the number in the accumulator. -/
theorem run_comparisons (pre : List SockFilter) (data : List UInt32) (nr : UInt32)
    (numbers : List Int64) (fuel : Nat) (hfuel : numbers.length + 1 < fuel) :
    (Bpf.run (pre ++ (comparisons numbers ++ [stmt 0x06 KILL])) data fuel pre.length nr).2 =
      some (if nr ∈ numbers.map asU32 then ALLOW else KILL) := by
  induction numbers generalizing pre fuel with
  | nil =>
    obtain ⟨fuel, rfl⟩ := Nat.exists_eq_succ_of_ne_zero (Nat.ne_of_gt (Nat.zero_lt_of_lt hfuel))
    have hstep := Bpf.step_return data pre [] KILL nr 0 0
    rw [show comparisons [] ++ [stmt 0x06 KILL] = [stmt 0x06 KILL] from rfl, Nat.succ_eq_add_one,
      stmt, Bpf.run_returned hstep]
    rfl
  | cons syscall rest ih =>
    rw [List.length_cons] at hfuel
    obtain ⟨fuel, rfl⟩ : ∃ n, fuel = n + 1 + 1 := ⟨fuel - 2, by omega⟩
    have hjump := Bpf.step_jump data pre
      (stmt 0x06 ALLOW :: (comparisons rest ++ [stmt 0x06 KILL])) (asU32 syscall) nr 0 1
    show (Bpf.run (pre ++ ⟨0x15, 0, 1, asU32 syscall⟩ ::
      (stmt 0x06 ALLOW :: (comparisons rest ++ [stmt 0x06 KILL]))) data _ _ _).2 = _
    rw [Bpf.run_goto hjump]
    by_cases hnr : nr = asU32 syscall
    · -- the next instruction allows
      have hallow := Bpf.step_return data (pre ++ [jump (asU32 syscall) 0 1])
        (comparisons rest ++ [stmt 0x06 KILL]) ALLOW nr 0 0
      rw [List.length_append, List.length_singleton, List.append_assoc, List.singleton_append]
        at hallow
      rw [if_pos hnr, List.map_cons, if_pos (hnr ▸ List.mem_cons_self)]
      exact congrArg Prod.snd (Bpf.run_returned hallow fuel)
    · -- the jump skips it
      have htail := ih (pre ++ [jump (asU32 syscall) 0 1, stmt 0x06 ALLOW]) (fuel + 1) (by omega)
      rw [List.length_append, List.append_assoc] at htail
      have hmem : (nr ∈ (syscall :: rest).map asU32) ↔ nr ∈ rest.map asU32 := by
        rw [List.map_cons, List.mem_cons, or_iff_right hnr]
      rw [if_neg hnr, if_congr hmem rfl rfl]
      exact htail

/-! ## The whole filter -/

theorem instructions_program {target : Target} {numbers : List Int64}
    (h : (filter target numbers).length < 2 ^ 16) :
    (program target numbers).instructions = filter target numbers := by
  have hlen : (UInt16.ofNat (filter target numbers).length).toNat = (filter target numbers).length := by
    rw [UInt16.toNat_ofNat', Nat.mod_eq_of_lt h]
  rw [SockFprog.instructions, program, hlen, List.take_length]

variable (target : Target) (numbers : List Int64) (nr arch : UInt32) (rest : List UInt32)

theorem step_arch : Bpf.step (filter target numbers) (seccompData nr arch rest) 0 0 = .goto 1 arch :=
  Bpf.step_load [] _ 0 0 rfl 0

theorem step_compare : Bpf.step (filter target numbers) (seccompData nr arch rest) 1 arch =
    .goto (if arch = target.arch then 3 else 2) arch := by
  have h := Bpf.step_jump (seccompData nr arch rest) [stmt 0x20 4]
    (stmt 0x06 KILL :: stmt 0x20 0 :: (comparisons numbers ++ [stmt 0x06 KILL])) target.arch arch 1 0
  rw [show Bpf.step (filter target numbers) (seccompData nr arch rest) 1 arch = _ from h]
  split <;> rfl

theorem step_foreign :
    Bpf.step (filter target numbers) (seccompData nr arch rest) 2 arch = .returned KILL :=
  Bpf.step_return _ [stmt 0x20 4, jump target.arch 1 0]
    (stmt 0x20 0 :: (comparisons numbers ++ [stmt 0x06 KILL])) KILL arch 0 0

theorem step_number :
    Bpf.step (filter target numbers) (seccompData nr arch rest) 3 arch = .goto 4 nr :=
  Bpf.step_load [stmt 0x20 4, jump target.arch 1 0, stmt 0x06 KILL] _ 0 0 rfl arch

/-- A foreign architecture is killed ahead of the comparisons. -/
theorem run_foreign (harch : arch ≠ target.arch) (fuel : Nat) :
    Bpf.run (filter target numbers) (seccompData nr arch rest) (fuel + 3) 0 0 =
      ([0, 1, 2], some KILL) := by
  have hcompare := step_compare target numbers nr arch rest
  rw [if_neg harch] at hcompare
  rw [Bpf.run_goto (step_arch target numbers nr arch rest), Bpf.run_goto hcompare,
    Bpf.run_returned (step_foreign target numbers nr arch rest)]

/-- The own architecture goes on to the comparisons, with the number. -/
theorem run_own (fuel : Nat) :
    (Bpf.run (filter target numbers) (seccompData nr target.arch rest) (fuel + 3) 0 0).2 =
      (Bpf.run (filter target numbers) (seccompData nr target.arch rest) fuel 4 nr).2 := by
  have hcompare := step_compare target numbers nr target.arch rest
  rw [if_pos rfl] at hcompare
  rw [Bpf.run_goto (step_arch target numbers nr target.arch rest), Bpf.run_goto hcompare,
    Bpf.run_goto (step_number target numbers nr target.arch rest)]

theorem exec_filter :
    (Bpf.exec (filter target numbers) (seccompData nr arch rest)).2 =
      some (verdict target numbers nr arch) := by
  rw [Bpf.exec, length_filter]
  by_cases harch : arch = target.arch
  · subst harch
    have hrun := run_comparisons
      [stmt 0x20 4, jump target.arch 1 0, stmt 0x06 KILL, stmt 0x20 0]
      (seccompData nr target.arch rest) nr numbers (2 * numbers.length + 2) (by omega)
    rw [← List.append_assoc] at hrun
    rw [run_own]
    simp only [verdict, true_and]
    exact hrun
  · rw [run_foreign target numbers nr arch rest harch]
    simp only [verdict, harch, false_and, if_false]

/-- Whatever the list, as long as its program has a 16-bit length: no jump leaves the
program, a run ends at one of its returns with the verdict, and a foreign
architecture does not come to a comparison. -/
theorem filter_decides (h : (filter target numbers).length < 2 ^ 16) :
    Bpf.Closed (program target numbers).instructions ∧
    (Bpf.exec (program target numbers).instructions (seccompData nr arch rest)).2 =
      some (verdict target numbers nr arch) ∧
    (∀ pc ∈ (Bpf.exec (program target numbers).instructions (seccompData nr arch rest)).1,
      pc < (program target numbers).instructions.length) ∧
    (arch ≠ target.arch →
      (Bpf.exec (program target numbers).instructions (seccompData nr arch rest)).1 =
        [0, 1, 2]) := by
  rw [instructions_program h]
  have hexec := exec_filter target numbers nr arch rest
  refine ⟨closed_filter target numbers, hexec, Bpf.visited_lt hexec, ?_⟩
  intro harch
  rw [Bpf.exec, length_filter, run_foreign target numbers nr arch rest harch]

theorem filter_decides_pair :
    (filter .x86_64 [0, 1]).length < 2 ^ 16 ∧
    (Bpf.exec (program .x86_64 [0, 1]).instructions (seccompData 1 0xc000003e [])).2 = some ALLOW ∧
    (Bpf.exec (program .x86_64 [0, 1]).instructions (seccompData 2 0xc000003e [])).2 = some KILL ∧
    (Bpf.exec (program .x86_64 [0, 1]).instructions (seccompData 1 0xc00000b7 [])).1 = [0, 1, 2] := by
  have hfits : (filter .x86_64 [0, 1]).length < 2 ^ 16 := by decide
  exact ⟨hfits, (filter_decides .x86_64 [0, 1] 1 0xc000003e [] hfits).2.1,
    (filter_decides .x86_64 [0, 1] 2 0xc000003e [] hfits).2.1,
    (filter_decides .x86_64 [0, 1] 1 0xc00000b7 [] hfits).2.2.2 (by decide)⟩

/-- The filter that the guest installs allows its own architecture the calls of the
list and kills everything else. -/
theorem platform_decides (number : Syscall → Int64) :
    (Bpf.exec (platform target number).instructions (seccompData nr arch rest)).2 =
      some (if arch = target.arch ∧ ∃ call ∈ allow, nr = asU32 (number call) then ALLOW else KILL) := by
  have hfits : (filter target (allow.map number)).length < 2 ^ 16 := by
    rw [length_filter, List.length_map]
    decide
  have hmem : nr ∈ (allow.map number).map asU32 ↔ ∃ call ∈ allow, nr = asU32 (number call) := by
    simp only [List.map_map, List.mem_map, Function.comp, eq_comm]
  rw [platform, instructions_program hfits, exec_filter, verdict]
  exact congrArg some (if_congr (and_congr_right (fun _ => hmem)) rfl rfl)

end RubyEngine.Isolation
