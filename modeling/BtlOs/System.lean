import BtlOs.Libmem
import BtlOs.Lib.Lts
import BtlOs.Lib.Table

/-! # The memory system

Any number of processes over one RAM and one swap device.  A step of the system is one memory call
of one process (the calls of `libmem.c` exclude each other by `mmvm_lock`), the memory part of
`ld_routine` (`load`: `malloc` and `init_mm`), or the release of a process, which `cpu_routine`
makes when the process has finished: `free(proc)` and nothing else, so no frame moves.

A call that gets stuck makes no step.  The label of a step carries its result, so the label list
of a run is the history that the programs can observe. -/

namespace BtlOs

open CLang Header

variable [Header]

/-- One memory call of a process; `memmap` is system call 17 made by a program itself. -/
inductive Call where
  | alloc (size regIndex : ℕ)
  | free (regIndex : ℕ)
  | read (source offset : ℕ) (data₀ : Byte)
  | write (data : Byte) (destination offset : ℕ)
  | memmap (regs : ScRegs)

/-- The result of a call, and `*destination` of a read. -/
def Ctx.call (c : Ctx) : Call → Exec (ℤ × Option ℕ × Ctx)
  | .alloc size regIndex => do
      let (st, c) ← liballoc c size regIndex
      .ok (st, none, c)
  | .free regIndex => do
      let (st, c) ← libfree c regIndex
      .ok (st, none, c)
  | .read source offset data₀ => do
      let (st, val, c) ← libread c source offset data₀
      .ok (st, some val, c)
  | .write data destination offset => do
      let (st, c) ← libwrite c data destination offset
      .ok (st, none, c)
  | .memmap regs => do
      let (st, _, c) ← sysMemmap c regs
      .ok (st, none, c)

/-- The memory part of a process: its map and its field `active_mswp_id`. -/
structure Process where
  mm : Mm
  activeMswpId : ℤ

structure Sys where
  procs : ℕ → Option Process
  dev : Devices
  mmvmLock : Bool

namespace Sys

/-- What a call of the process `pr` reaches. -/
def ctx (s : Sys) (pr : Process) : Ctx := ⟨pr.mm, s.dev, pr.activeMswpId, s.mmvmLock⟩

/-- The system after a call of process `p` that left `c`. -/
def commit (s : Sys) (p : ℕ) (c : Ctx) : Sys where
  procs := Function.update s.procs p (some ⟨c.mm, c.activeMswpId⟩)
  dev := c.dev
  mmvmLock := c.mmvmLock

end Sys

/-- What happens in a step, with the result of the call. -/
inductive Event where
  | call (p : ℕ) (cl : Call) (st : ℤ) (val : Option ℕ)
  | load (p : ℕ) (mm₀ : Mm) (pgd₀ : ℕ → Pte) (activeMswpId : ℤ)
  | release (p : ℕ)

inductive MemStep : Sys → Event → Sys → Prop
  | call {s : Sys} {p : ℕ} {pr : Process} {cl : Call} {st : ℤ} {val : Option ℕ} {c : Ctx} :
      s.procs p = some pr → (s.ctx pr).call cl = .ok (st, val, c) →
      MemStep s (.call p cl st val) (s.commit p c)
  | load {s : Sys} {p : ℕ} (mm₀ : Mm) (pgd₀ : ℕ → Pte) (activeMswpId : ℤ) :
      s.procs p = none → MemStep s (.load p mm₀ pgd₀ activeMswpId)
        { s with procs := Function.update s.procs p (some ⟨initMm mm₀ pgd₀, activeMswpId⟩) }
  | release {s : Sys} {p : ℕ} {pr : Process} :
      s.procs p = some pr →
      MemStep s (.release p) { s with procs := Function.update s.procs p none }

/-- The state after an event, where the event is what the calls compute. -/
def Sys.next (s : Sys) : Event → Option Sys
  | .call p cl st val => (s.procs p).bind fun pr =>
      match (s.ctx pr).call cl with
      | .error _ => none
      | .ok (st', val', c) => if st' = st ∧ val' = val then some (s.commit p c) else none
  | .load p mm₀ pgd₀ activeMswpId =>
      if (s.procs p).isNone then
        some { s with procs := Function.update s.procs p (some ⟨initMm mm₀ pgd₀, activeMswpId⟩) }
      else none
  | .release p =>
      if (s.procs p).isSome then some { s with procs := Function.update s.procs p none } else none

theorem memStep_of_next {s s' : Sys} {e : Event} (h : s.next e = some s') : MemStep s e s' := by
  cases e with
  | call p cl st val =>
      obtain ⟨pr, hp, hn⟩ := Option.bind_eq_some_iff.mp h
      split at hn
      · cases hn
      · rename_i st' val' c hc
        split_ifs at hn with hv
        obtain ⟨rfl, rfl⟩ := hv
        obtain rfl := Option.some.inj hn
        exact .call hp hc
  | load p mm₀ pgd₀ activeMswpId =>
      simp only [Sys.next] at h
      split_ifs at h with hp
      obtain rfl := Option.some.inj h
      exact .load mm₀ pgd₀ activeMswpId (Option.isNone_iff_eq_none.mp hp)
  | release p =>
      simp only [Sys.next] at h
      split_ifs at h with hp
      obtain rfl := Option.some.inj h
      obtain ⟨pr, hp⟩ := Option.isSome_iff_exists.mp hp
      exact .release hp

/-- The memory system. -/
def memLts : Lts Sys Event := ⟨MemStep⟩

/-- The state before the first process is loaded: `n` RAM frames and `m` swap frames, all free,
of random-access devices whose sizes are `int`s. -/
structure Booted (n m : ℕ) (s : Sys) : Prop where
  procs : ∀ p, s.procs p = none
  lock : s.mmvmLock = false
  ram : s.dev.mram.freeFpList = List.range n
  swp : s.dev.mswp.freeFpList = List.range m
  ram_rdmflg : s.dev.mram.rdmflg = true
  swp_rdmflg : s.dev.mswp.rdmflg = true
  ram_maxsz : (n * pagingPagesz : ℤ) ≤ s.dev.mram.maxsz
  ram_int : s.dev.mram.maxsz < 2 ^ 31
  swp_maxsz : (m * pagingPagesz : ℤ) ≤ s.dev.mswp.maxsz
  swp_int : s.dev.mswp.maxsz < 2 ^ 31

theorem Booted.ram_bytes {n m : ℕ} {s : Sys} (h : Booted n m s) : n * pagingPagesz < 2 ^ 31 := by
  exact_mod_cast lt_of_le_of_lt h.ram_maxsz h.ram_int

theorem Booted.swp_bytes {n m : ℕ} {s : Sys} (h : Booted n m s) : m * pagingPagesz < 2 ^ 31 := by
  exact_mod_cast lt_of_le_of_lt h.swp_maxsz h.swp_int

/-! ### Conditions on the steps of a run -/

/-- A condition on every call. -/
def Calls (P : Ctx → Call → Prop) (s : Sys) : Event → Prop
  | .call p cl _ _ => ∀ pr ∈ s.procs p, P (s.ctx pr) cl
  | .load _ _ _ _ => True
  | .release _ => True

/-- A loaded process has a cleared page table. -/
def Cleared : Event → Prop
  | .call _ _ _ _ => True
  | .load _ _ pgd₀ _ => ∀ g, pgd₀ g = 0
  | .release _ => True

instance {P : Ctx → Call → Prop} [∀ c cl, Decidable (P c cl)] (s : Sys) :
    ∀ e, Decidable (Calls P s e)
  | .call p cl _ _ =>
      match h : s.procs p with
      | none => isTrue fun pr hp => by
          rw [h] at hp
          cases hp
      | some pr => decidable_of_iff (P (s.ctx pr) cl) (by simp [Calls, h])
  | .load _ _ _ _ => inferInstanceAs (Decidable True)
  | .release _ => inferInstanceAs (Decidable True)

/-- The state that `main` sets up over devices `mram` and `mswp` of these sizes; `ramNext` and
`swpNext` are what `malloc` left behind the first frame of each. -/
def boot (mram mswp : Memphy) (ramNext swpNext : List ℕ) (memramsz memswpsz : ℕ) : Sys where
  procs := fun _ => none
  dev := ⟨initMemphy mram memramsz 1 ramNext, initMemphy mswp memswpsz 1 swpNext⟩
  mmvmLock := false

theorem booted_boot (mram mswp : Memphy) (ramNext swpNext : List ℕ) {memramsz memswpsz : ℕ}
    (hram : 0 < memramsz / pagingPagesz) (hswp : 0 < memswpsz / pagingPagesz)
    (hrnext : memramsz / pagingPagesz = 1 → ramNext = [])
    (hsnext : memswpsz / pagingPagesz = 1 → swpNext = [])
    (hrint : memramsz < 2 ^ 31) (hsint : memswpsz < 2 ^ 31) :
    Booted (memramsz / pagingPagesz) (memswpsz / pagingPagesz)
      (boot mram mswp ramNext swpNext memramsz memswpsz) := by
  have hr := initMemphy_eq mram ramNext hram hrnext
  have hs := initMemphy_eq mswp swpNext hswp hsnext
  refine ⟨fun _ => rfl, rfl, ?_, ?_, ?_, ?_, ?_, ?_, ?_, ?_⟩
  · simp [boot, hr]
  · simp [boot, hs]
  · simp [boot, hr]
  · simp [boot, hs]
  · simp only [boot, hr]
    exact_mod_cast Nat.div_mul_le_self memramsz pagingPagesz
  · simp only [boot, hr]
    exact_mod_cast hrint
  · simp only [boot, hs]
    exact_mod_cast Nat.div_mul_le_self memswpsz pagingPagesz
  · simp only [boot, hs]
    exact_mod_cast hsint

/-! ### Concrete machines -/

/-- What `malloc` returned for a device and for a memory map, in concrete runs: cleared memory. -/
def blankMemphy : Memphy := ⟨fun _ => 0, 0, false, 0, []⟩

def blankMm : Mm := ⟨fun _ => 0, [], fun _ => ⟨0, 0⟩, []⟩

/-- The event of a load into cleared memory. -/
def loadBlank (p : ℕ) : Event := .load p blankMm (fun _ => 0) 0

/-- Two pages of 256 bytes of RAM and two of swap. -/
def boot22 : Sys := @boot header22 blankMemphy blankMemphy [] [] 512 512

omit [Header] in
theorem booted_boot22 : @Booted header22 2 2 boot22 :=
  @booted_boot header22 blankMemphy blankMemphy [] [] 512 512 (by decide) (by decide)
    (fun _ => rfl) (fun _ => rfl) (by decide) (by decide)

end BtlOs
