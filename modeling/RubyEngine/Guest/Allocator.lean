import Mathlib.Order.Bounds.Basic
import RubyEngine.Transition
import RubyEngine.Protocol

/-!
# The allocator's account

One function allocates, moves and frees the blocks of the Ruby heap, and counts
their bytes in machine words. The blocks are known to the program by the calls that
returned; the allocator knows them by the size in front of each. The invariant says
that the two agree, and from it that no guard of the function can wrap.
-/
namespace RubyEngine.Guest.Allocator

open Transition

/-! ## Machine words -/

/-- Addition and subtraction of `size_t`. `none` is a result that is refused. -/
structure Arithmetic where
  add : UInt64 → UInt64 → Option UInt64
  sub : UInt64 → UInt64 → Option UInt64

/-- The arithmetic of the processor. -/
def wrapping : Arithmetic where
  add a b := some (a + b)
  sub a b := some (a - b)

/-- The arithmetic that refuses what would wrap. -/
def trapping : Arithmetic where
  add a b := if a.toNat + b.toNat < 2 ^ 64 then some (a + b) else none
  sub a b := if b.toNat ≤ a.toNat then some (a - b) else none

/-- An arithmetic without an answer of its own where nothing wraps. -/
structure Arithmetic.Exact (arith : Arithmetic) : Prop where
  add : ∀ a b : UInt64, a.toNat + b.toNat < 2 ^ 64 → arith.add a b = some (a + b)
  sub : ∀ a b : UInt64, b.toNat ≤ a.toNat → arith.sub a b = some (a - b)

theorem wrapping_exact : wrapping.Exact := ⟨fun _ _ _ => rfl, fun _ _ _ => rfl⟩

theorem trapping_exact : trapping.Exact :=
  ⟨fun _ _ h => if_pos h, fun _ _ h => if_pos h⟩

theorem toNat_sub {a b : UInt64} (h : b.toNat ≤ a.toNat) : (a - b).toNat = a.toNat - b.toNat :=
  UInt64.toNat_sub_of_le a b (UInt64.le_iff_toNat_le.mpr h)

theorem toNat_add {a b : UInt64} (h : a.toNat + b.toNat < 2 ^ 64) :
    (a + b).toNat = a.toNat + b.toNat := by
  rw [UInt64.toNat_add, Nat.mod_eq_of_lt h]

/-! ## Blocks -/

abbrev Address := UInt64

/-- A block: the pointer that the program holds, and a size. -/
structure Block where
  pointer : Address
  size : UInt64
  deriving DecidableEq

/-- The blocks without the one that a pointer names, if it is not null. -/
def release (blocks : List Block) : Option Address → List Block
  | none => blocks
  | some p => blocks.filter (fun block => block.pointer ≠ p)

def total (blocks : List Block) : Nat := (blocks.map (fun block => block.size.toNat)).sum

@[simp] theorem total_nil : total [] = 0 := rfl

@[simp] theorem total_cons (block : Block) (blocks : List Block) :
    total (block :: blocks) = block.size.toNat + total blocks := by
  rw [total, List.map_cons, List.sum_cons]
  rfl

def pointers (blocks : List Block) : List Address := blocks.map Block.pointer

/-- The size in front of the block that a pointer names. -/
def header (blocks : List Block) (p : Address) : Option UInt64 :=
  (blocks.find? (fun block => block.pointer = p)).map Block.size

/-! ## `mrb_basic_alloc_func` -/

def SIZE_MAX : UInt64 := 0xffffffffffffffff

/-- `sizeof(allocation)`, with the alignment of the widest scalar. -/
def sizeofAllocation : UInt64 := 32

/-- `active_state`: the account, and the headers of the blocks that exist. -/
structure State where
  allocated : UInt64
  peak : UInt64
  heap : List Block
  deriving DecidableEq

/-- A call, with what `realloc` answers when it is asked for a number of bytes. -/
structure Call where
  pointer : Option Address
  size : UInt64
  realloc : UInt64 → Option Address

/-- A call that returned, with the pointer it returned. -/
structure Returned where
  pointer : Option Address
  size : UInt64
  result : Option Address
  deriving DecidableEq

def State.previous (s : State) (pointer : Option Address) : UInt64 :=
  ((pointer.bind (header s.heap))).getD 0

/-- The guard, evaluated from the left. -/
def exceeds (arith : Arithmetic) (limit allocated previous size : UInt64) : Option Bool := do
  if limit < size then return true
  let others ← arith.sub allocated previous
  let room ← arith.sub limit size
  if room < others then return true
  let most ← arith.sub SIZE_MAX sizeofAllocation
  return decide (most < size)

/-- `mrb_basic_alloc_func`. A run that ends is one of `_exit`, with its code. -/
def mrbBasicAllocFunc (arith : Arithmetic) (limit : UInt64) (active : Option State) (call : Call) :
    Option (Outcome State Returned Nat) :=
  match active with
  | none => some (.exit 125 [])
  | some s => do
      let previous := s.previous call.pointer
      if call.size = 0 then
        let allocated ← arith.sub s.allocated previous
        return .next { s with allocated := allocated, heap := release s.heap call.pointer }
          [⟨call.pointer, call.size, none⟩]
      else
        let refused ← exceeds arith limit s.allocated previous call.size
        if refused then return .exit 125 []
        let bytes ← arith.add sizeofAllocation call.size
        match call.realloc bytes with
        | none => return .exit 125 []
        | some next =>
            let others ← arith.sub s.allocated previous
            let allocated ← arith.add others call.size
            return .next
              { allocated := allocated
                peak := if s.peak < allocated then allocated else s.peak
                heap := ⟨next, call.size⟩ :: release s.heap call.pointer }
              [⟨call.pointer, call.size, some next⟩]

/-- The pointer is null or names a block, and `realloc` answers with no other block. -/
def Call.proper (call : Call) (heap : List Block) : Bool :=
  (match call.pointer with
    | none => true
    | some p => decide (p ∈ pointers heap)) &&
  match call.realloc (sizeofAllocation + call.size) with
    | none => true
    | some p => decide (p ∉ pointers (release heap call.pointer))

/-- `ruby_execute` starts the account at zero. -/
def allocator (limit : UInt64) : Machine State Call Returned Nat where
  start s history := s = ⟨0, 0, []⟩ ∧ history = []
  step s call :=
    if call.proper s.heap then mrbBasicAllocFunc wrapping limit (some s) call else none

/-! ## What the program holds -/

/-- The blocks after a call: the old one is gone, and there is a new one if it was placed. -/
def Returned.blocks (e : Returned) (live : List Block) : List Block :=
  match e.result with
  | none => release live e.pointer
  | some p => ⟨p, e.size⟩ :: release live e.pointer

/-- The blocks that are live after some calls, with the sizes that were requested. -/
def live (history : List Returned) : List Block := history.foldl (fun blocks e => e.blocks blocks) []

theorem live_concat (history : List Returned) (e : Returned) :
    live (history ++ [e]) = e.blocks (live history) := by
  rw [live, List.foldl_append]
  rfl

/-- What the call returns when nothing refuses it. -/
def Call.granted (call : Call) : Returned where
  pointer := call.pointer
  size := call.size
  result := if call.size = 0 then none else call.realloc (sizeofAllocation + call.size)

/-! ## The account -/

/-- The largest total so far. -/
def Highest (history : List Returned) (n : Nat) : Prop :=
  IsGreatest {m | ∃ k, m = total (live (history.take k))} n

/-- The account of the allocator and the blocks of the program agree. -/
structure Accounts (limit : UInt64) (s : State) (history : List Returned) : Prop where
  heap : s.heap = live history
  distinct : (pointers s.heap).Nodup
  sum : s.allocated.toNat = total s.heap
  bound : s.allocated.toNat ≤ limit.toNat
  peak : Highest history s.peak.toNat
  most : s.peak.toNat ≤ limit.toNat

/-! ## What a release takes away -/

theorem pointers_release_sublist (blocks : List Block) (pointer : Option Address) :
    (pointers (release blocks pointer)).Sublist (pointers blocks) := by
  cases pointer with
  | none => exact List.Sublist.refl _
  | some p => exact List.filter_sublist.map Block.pointer

theorem release_absent {blocks : List Block} {p : Address} (h : p ∉ pointers blocks) :
    release blocks (some p) = blocks := by
  refine List.filter_eq_self.mpr fun block hblock => decide_eq_true ?_
  exact fun heq => h (heq ▸ List.mem_map_of_mem hblock)

/-- A block that a pointer names is worth the size in front of it. -/
theorem total_header {blocks : List Block} {p : Address} (hdistinct : (pointers blocks).Nodup)
    (hp : p ∈ pointers blocks) :
    ∃ size, header blocks p = some size ∧
      size.toNat + total (release blocks (some p)) = total blocks := by
  induction blocks with
  | nil => cases hp
  | cons block blocks ih =>
    obtain ⟨hnew, hdistinct⟩ := List.nodup_cons.mp hdistinct
    by_cases heq : block.pointer = p
    · subst heq
      refine ⟨block.size, ?_, ?_⟩
      · rw [header, List.find?_cons_of_pos (by simp), Option.map_some]
      · have hrest := release_absent hnew
        rw [release] at hrest ⊢
        rw [List.filter_cons_of_neg (by simp), hrest, total_cons]
    · have hrest : p ∈ pointers blocks := (List.mem_cons.mp hp).resolve_left (Ne.symm heq)
      obtain ⟨size, hsize, htotal⟩ := ih hdistinct hrest
      refine ⟨size, ?_, ?_⟩
      · rw [header, List.find?_cons_of_neg (by simpa using heq)]
        exact hsize
      · rw [release] at htotal ⊢
        rw [List.filter_cons_of_pos (by simpa using heq), total_cons, total_cons]
        omega

theorem Call.pointer_mem {call : Call} {heap : List Block} (h : call.proper heap = true)
    {p : Address} (hp : call.pointer = some p) : p ∈ pointers heap := by
  have hfirst := (Bool.and_eq_true_iff.mp h).1
  rw [hp] at hfirst
  exact of_decide_eq_true hfirst

theorem Call.realloc_fresh {call : Call} {heap : List Block} (h : call.proper heap = true)
    {p : Address} (hp : call.realloc (sizeofAllocation + call.size) = some p) :
    p ∉ pointers (release heap call.pointer) := by
  have hsecond := (Bool.and_eq_true_iff.mp h).2
  rw [hp] at hsecond
  exact of_decide_eq_true hsecond

/-- What the account takes back for the old block is what the block was worth. -/
theorem total_release {s : State} {call : Call} (hdistinct : (pointers s.heap).Nodup)
    (h : call.proper s.heap = true) :
    (s.previous call.pointer).toNat + total (release s.heap call.pointer) = total s.heap := by
  cases hp : call.pointer with
  | none => exact Nat.zero_add _
  | some p =>
    obtain ⟨size, hsize, htotal⟩ := total_header hdistinct (call.pointer_mem h hp)
    rw [State.previous, Option.bind_some, hsize]
    exact htotal

/-! ## One call -/

/-- The function on natural numbers. -/
def settled (limit : UInt64) (s : State) (call : Call) : Outcome State Returned Nat :=
  if call.size = 0 then
    .next { s with allocated := s.allocated - s.previous call.pointer,
                   heap := release s.heap call.pointer } [call.granted]
  else if limit.toNat < total (release s.heap call.pointer) + call.size.toNat then .exit 125 []
  else
    match call.realloc (sizeofAllocation + call.size) with
    | none => .exit 125 []
    | some next =>
        let allocated := s.allocated - s.previous call.pointer + call.size
        .next { allocated := allocated
                peak := if s.peak < allocated then allocated else s.peak
                heap := ⟨next, call.size⟩ :: release s.heap call.pointer } [call.granted]

section Exact

variable {arith : Arithmetic} (harith : arith.Exact) {limit : UInt64}
  (hlimit : limit.toNat ≤ 128 * 1024 * 1024)

include harith hlimit

/-- The guard refuses exactly what would exceed the limit, and computes nothing that wraps. -/
theorem exceeds_exact {allocated previous size : UInt64}
    (hprevious : previous.toNat ≤ allocated.toNat) :
    exceeds arith limit allocated previous size =
      some (decide (limit.toNat < allocated.toNat - previous.toNat + size.toNat)) := by
  rw [exceeds]
  by_cases hsize : limit < size
  · have hover : limit.toNat < allocated.toNat - previous.toNat + size.toNat := by
      have := UInt64.lt_iff_toNat_lt.mp hsize
      omega
    rw [if_pos hsize, decide_eq_true hover]
    rfl
  · have hle : size.toNat ≤ limit.toNat := Nat.not_lt.mp (mt UInt64.lt_iff_toNat_lt.mpr hsize)
    rw [if_neg hsize, harith.sub _ _ hprevious, harith.sub _ _ hle]
    simp only [Option.bind_eq_bind, Option.bind_some]
    by_cases hroom : limit - size < allocated - previous
    · have hover : limit.toNat < allocated.toNat - previous.toNat + size.toNat := by
        have := UInt64.lt_iff_toNat_lt.mp hroom
        rw [toNat_sub hle, toNat_sub hprevious] at this
        omega
      rw [if_pos hroom, decide_eq_true hover]
      rfl
    · have hfits : ¬ limit.toNat < allocated.toNat - previous.toNat + size.toNat := by
        have := mt UInt64.lt_iff_toNat_lt.mpr hroom
        rw [toNat_sub hle, toNat_sub hprevious] at this
        omega
      have hmost : ¬ SIZE_MAX - sizeofAllocation < size := by
        intro hlt
        have hmax : (SIZE_MAX - sizeofAllocation).toNat = 2 ^ 64 - 33 := rfl
        have := UInt64.lt_iff_toNat_lt.mp hlt
        omega
      rw [if_neg hroom, harith.sub SIZE_MAX sizeofAllocation (by decide), decide_eq_false hfits,
        Option.bind_some, decide_eq_false hmost]
      rfl

theorem alloc_exact {s : State} {history : List Returned} (hinv : Accounts limit s history)
    {call : Call} (hproper : call.proper s.heap = true) :
    mrbBasicAllocFunc arith limit (some s) call = some (settled limit s call) := by
  have htotal := total_release hinv.distinct hproper
  have hsum := hinv.sum
  have hbound := hinv.bound
  have hprevious : (s.previous call.pointer).toNat ≤ s.allocated.toNat := by omega
  rw [mrbBasicAllocFunc, settled]
  by_cases hzero : call.size = 0
  · rw [if_pos hzero, if_pos hzero, harith.sub _ _ hprevious, Call.granted, if_pos hzero]
    rfl
  · rw [if_neg hzero, if_neg hzero, exceeds_exact harith hlimit hprevious,
      show s.allocated.toNat - (s.previous call.pointer).toNat =
        total (release s.heap call.pointer) by omega]
    simp only [Option.bind_eq_bind, Option.bind_some, decide_eq_true_eq]
    by_cases hover : limit.toNat < total (release s.heap call.pointer) + call.size.toNat
    · rw [if_pos hover, if_pos hover]
      rfl
    · have hbytes : sizeofAllocation.toNat + call.size.toNat < 2 ^ 64 := by
        have : sizeofAllocation.toNat = 32 := rfl
        omega
      have hothers := toNat_sub hprevious
      rw [if_neg hover, if_neg hover, harith.add _ _ hbytes, Option.bind_some]
      cases hplaced : call.realloc (sizeofAllocation + call.size) with
      | none => rfl
      | some next =>
        have hadd := harith.add (s.allocated - s.previous call.pointer) call.size (by omega)
        simp only [harith.sub _ _ hprevious, hadd, Option.bind_some]
        rw [Call.granted, if_neg hzero, hplaced]
        rfl

end Exact

/-! ## Every run -/

theorem highest_nil : Highest [] 0 := by
  refine ⟨⟨0, rfl⟩, ?_⟩
  rintro m ⟨k, rfl⟩
  rw [List.take_nil]
  exact Nat.le_refl 0

theorem Highest.concat {history : List Returned} {n : Nat} (h : Highest history n) (e : Returned) :
    Highest (history ++ [e]) (max n (total (live (history ++ [e])))) := by
  obtain ⟨⟨k, hk⟩, hupper⟩ := h
  constructor
  · by_cases hle : total (live (history ++ [e])) ≤ n
    · refine ⟨min k history.length, ?_⟩
      rw [Nat.max_eq_left hle, List.take_append_of_le_length (Nat.min_le_right _ _),
        ← List.take_take, List.take_length, hk]
    · refine ⟨history.length + 1, ?_⟩
      rw [Nat.max_eq_right (Nat.le_of_not_le hle), List.take_of_length_le (by simp)]
  · rintro m ⟨j, rfl⟩
    by_cases hj : j ≤ history.length
    · rw [List.take_append_of_le_length hj]
      exact (hupper ⟨j, rfl⟩).trans (Nat.le_max_left _ _)
    · rw [List.take_of_length_le (by rw [List.length_append, List.length_singleton]; omega)]
      exact Nat.le_max_right _ _

theorem Highest.total_le {history : List Returned} {n : Nat} (h : Highest history n) :
    total (live history) ≤ n := h.2 ⟨history.length, by rw [List.take_length]⟩

theorem accounts_start (limit : UInt64) : Accounts limit ⟨0, 0, []⟩ [] where
  heap := rfl
  distinct := List.nodup_nil
  sum := rfl
  bound := Nat.zero_le _
  peak := highest_nil
  most := Nat.zero_le _

/-- What a call that returns leaves behind. -/
theorem Accounts.next {limit : UInt64} {s t : State} {history effects : List Returned}
    (hlimit : limit.toNat ≤ 128 * 1024 * 1024) (hinv : Accounts limit s history) {call : Call}
    (hproper : call.proper s.heap = true) (h : settled limit s call = .next t effects) :
    effects = [call.granted] ∧ Accounts limit t (history ++ effects) := by
  have htotal := total_release hinv.distinct hproper
  have hsum := hinv.sum
  have hbound := hinv.bound
  have hprevious : (s.previous call.pointer).toNat ≤ s.allocated.toNat := by omega
  have hothers := toNat_sub hprevious
  have hsub := pointers_release_sublist s.heap call.pointer
  have hhighest := hinv.peak.concat call.granted
  unfold settled at h
  by_cases hzero : call.size = 0
  · rw [if_pos hzero] at h
    cases h
    have hblocks : live (history ++ [call.granted]) = release s.heap call.pointer := by
      rw [live_concat, ← hinv.heap, Returned.blocks, Call.granted, if_pos hzero]
    have hpeak := hinv.peak.total_le
    rw [← hinv.heap] at hpeak
    refine ⟨rfl, hblocks.symm, hinv.distinct.sublist hsub, ?_, ?_, ?_, hinv.most⟩
    · show (s.allocated - s.previous call.pointer).toNat = total (release s.heap call.pointer)
      omega
    · show (s.allocated - s.previous call.pointer).toNat ≤ limit.toNat
      omega
    · rwa [hblocks, Nat.max_eq_left (by omega)] at hhighest
  · rw [if_neg hzero] at h
    by_cases hover : limit.toNat < total (release s.heap call.pointer) + call.size.toNat
    · rw [if_pos hover] at h
      cases h
    · rw [if_neg hover] at h
      cases hplaced : call.realloc (sizeofAllocation + call.size) with
      | none =>
        rw [hplaced] at h
        cases h
      | some next =>
        rw [hplaced] at h
        cases h
        have hblocks : live (history ++ [call.granted]) =
            ⟨next, call.size⟩ :: release s.heap call.pointer := by
          rw [live_concat, ← hinv.heap, Returned.blocks, Call.granted, if_neg hzero, hplaced]
        have hallocated : (s.allocated - s.previous call.pointer + call.size).toNat =
            total (⟨next, call.size⟩ :: release s.heap call.pointer) := by
          rw [toNat_add (by omega), total_cons]
          show (s.allocated - s.previous call.pointer).toNat + call.size.toNat =
            call.size.toNat + total (release s.heap call.pointer)
          omega
        have hfits : (s.allocated - s.previous call.pointer + call.size).toNat ≤ limit.toNat := by
          rw [hallocated, total_cons]
          show call.size.toNat + total (release s.heap call.pointer) ≤ limit.toNat
          omega
        refine ⟨rfl, hblocks.symm, ?_, hallocated, hfits, ?_, ?_⟩
        · exact List.nodup_cons.mpr ⟨call.realloc_fresh hproper hplaced, hinv.distinct.sublist hsub⟩
        · rw [hblocks, ← hallocated] at hhighest
          by_cases hmore : s.peak < s.allocated - s.previous call.pointer + call.size
          · have hle := Nat.le_of_lt (UInt64.lt_iff_toNat_lt.mp hmore)
            rwa [if_pos hmore, ← Nat.max_eq_right hle]
          · have hle := Nat.not_lt.mp (mt UInt64.lt_iff_toNat_lt.mpr hmore)
            rwa [if_neg hmore, ← Nat.max_eq_left hle]
        · show (if s.peak < s.allocated - s.previous call.pointer + call.size then
            s.allocated - s.previous call.pointer + call.size else s.peak).toNat ≤ limit.toNat
          split
          · exact hfits
          · exact hinv.most

/-- A placed call is refused exactly when the blocks it asks for exceed the limit. -/
theorem Accounts.refused_iff {limit : UInt64} {s : State} {history : List Returned}
    (hinv : Accounts limit s history) {call : Call} (hproper : call.proper s.heap = true)
    (hplaced : (call.realloc (sizeofAllocation + call.size)).isSome = true) :
    (settled limit s call).result = some 125 ↔
      limit.toNat < total (live (history ++ [call.granted])) := by
  have htotal := total_release hinv.distinct hproper
  have hsum := hinv.sum
  have hbound := hinv.bound
  obtain ⟨next, hnext⟩ := Option.isSome_iff_exists.mp hplaced
  rw [live_concat, ← hinv.heap, Returned.blocks, Call.granted, settled, hnext]
  by_cases hzero : call.size = 0
  · rw [if_pos hzero, if_pos hzero]
    refine iff_of_false (fun h => Option.some_ne_none 125 h.symm) ?_
    show ¬ limit.toNat < total (release s.heap call.pointer)
    omega
  · rw [if_neg hzero, if_neg hzero]
    show _ ↔ limit.toNat < total (⟨next, call.size⟩ :: release s.heap call.pointer)
    have hcons : total (⟨next, call.size⟩ :: release s.heap call.pointer) =
        total (release s.heap call.pointer) + call.size.toNat := by
      rw [total_cons]
      exact Nat.add_comm _ _
    rw [hcons]
    by_cases hover : limit.toNat < total (release s.heap call.pointer) + call.size.toNat
    · rw [if_pos hover]
      exact iff_of_true rfl hover
    · rw [if_neg hover]
      exact iff_of_false (fun h => Option.some_ne_none 125 h.symm) hover

theorem accounts_of_reaches {limit : UInt64} (hlimit : limit.toNat ≤ 128 * 1024 * 1024) {s : State}
    {history : List Returned} (h : (allocator limit).Reaches s history) :
    Accounts limit s history := by
  refine h.invariant ?_ ?_
  · rintro s history ⟨rfl, rfl⟩
    exact accounts_start limit
  · intro s call t history effects hinv hstep
    simp only [allocator] at hstep
    by_cases hproper : call.proper s.heap = true
    · rw [if_pos hproper, alloc_exact wrapping_exact hlimit hinv hproper] at hstep
      exact (hinv.next hlimit hproper (Option.some.inj hstep)).2
    · rw [if_neg hproper] at hstep
      cases hstep

/-- The word that the limit of a request becomes. -/
def memoryLimit (request : Request) : UInt64 := UInt64.ofNat request.limits.memoryBytes

theorem memory_of_valid {request : Request} (h : request.validate = .ok ()) :
    request.limits.memoryBytes ≤ 128 * 1024 * 1024 := by
  have hlimits := (Request.validate_iff.mp h).limits
  simp only [Limits.exceeds, Bool.or_eq_false_iff, Bool.not_eq_false', Bool.and_eq_true,
    decide_eq_true_eq] at hlimits
  exact hlimits.1.1.1.1.1.1.1.1.1.1.2

/-- In every state that calls on null or live pointers lead to, the account is the sum of the
requested sizes, it and the peak stay below the limit, and the next call wraps nowhere and
exits exactly when it would exceed the limit. -/
theorem allocator_accounts (request : Request) (hvalid : request.validate = .ok ()) {s : State}
    {history : List Returned} (hreach : (allocator (memoryLimit request)).Reaches s history) :
    s.allocated.toNat = total (live history) ∧
      total (live history) ≤ request.limits.memoryBytes ∧
      Highest history s.peak.toNat ∧
      s.peak.toNat ≤ request.limits.memoryBytes ∧
      s.heap = live history ∧
      ∀ call : Call, call.proper (live history) = true →
        ∃ out, mrbBasicAllocFunc wrapping (memoryLimit request) (some s) call = some out ∧
          mrbBasicAllocFunc trapping (memoryLimit request) (some s) call = some out ∧
          ((call.realloc (sizeofAllocation + call.size)).isSome = true →
            (out.result = some 125 ↔
              request.limits.memoryBytes < total (live (history ++ [call.granted])))) := by
  have hmemory := memory_of_valid hvalid
  have hword : (memoryLimit request).toNat = request.limits.memoryBytes :=
    UInt64.toNat_ofNat_of_lt (hmemory.trans_lt (by decide))
  have hlimit : (memoryLimit request).toNat ≤ 128 * 1024 * 1024 := hword ▸ hmemory
  have hinv := accounts_of_reaches hlimit hreach
  rw [← hinv.heap, ← hword]
  refine ⟨hinv.sum, ?_, hinv.peak, hinv.most, rfl, ?_⟩
  · rw [← hinv.sum]
    exact hinv.bound
  · intro call hproper
    exact ⟨settled (memoryLimit request) s call,
      alloc_exact wrapping_exact hlimit hinv hproper,
      alloc_exact trapping_exact hlimit hinv hproper,
      hinv.refused_iff hproper⟩

/-- A block that is made, moved to twice its size, and joined by another. -/
def sampleCalls : List Call :=
  [⟨none, 10, fun _ => some 64⟩, ⟨some 64, 20, fun _ => some 128⟩, ⟨none, 5, fun _ => some 64⟩]

def sampleReturned : List Returned :=
  [⟨none, 10, some 64⟩, ⟨some 64, 20, some 128⟩, ⟨none, 5, some 64⟩]

def sampleState : State := ⟨25, 25, [⟨64, 5⟩, ⟨128, 20⟩]⟩

theorem allocator_accounts_sample :
    sampleState.allocated.toNat = total (live sampleReturned) ∧
      total (live sampleReturned) ≤ Request.sample.limits.memoryBytes ∧
      Highest sampleReturned sampleState.peak.toNat ∧
      sampleState.peak.toNat ≤ Request.sample.limits.memoryBytes ∧
      sampleState.heap = live sampleReturned ∧
      ∀ call : Call, call.proper (live sampleReturned) = true →
        ∃ out, mrbBasicAllocFunc wrapping (memoryLimit Request.sample) (some sampleState) call =
            some out ∧
          mrbBasicAllocFunc trapping (memoryLimit Request.sample) (some sampleState) call =
            some out ∧
          ((call.realloc (sizeofAllocation + call.size)).isSome = true →
            (out.result = some 125 ↔ Request.sample.limits.memoryBytes <
              total (live (sampleReturned ++ [call.granted])))) := by
  have hstart : (allocator (memoryLimit Request.sample)).Reaches ⟨0, 0, []⟩ [] :=
    .start ⟨rfl, rfl⟩
  have hfollow : (allocator (memoryLimit Request.sample)).follow ⟨0, 0, []⟩ [] sampleCalls =
      some (sampleState, sampleReturned) := by decide
  exact allocator_accounts Request.sample (by decide) (hstart.follow hfollow)

end RubyEngine.Guest.Allocator
