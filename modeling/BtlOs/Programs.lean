import BtlOs.Completion
import BtlOs.Cpu
import BtlOs.PlainMemory

/-! # Programs on the simulator

The simulator with the memory of its processes.  A call of `run` by a CPU executes the instruction
at the `pc` of its process on the memory system, `add_proc` comes after `init_mm`, and a process that
has finished is released.  A call of the memory library holds `mmvm_lock`, so an instruction is one
step.  The programs make no system call 101.

A program alone works on its own regions, one byte at an offset, and every allocation succeeds.
The invariant says that each process of the simulator has reached the regions that its program has
alone after as many instructions, whatever the others did in between.  Frames do not come back, so
each process has taken at most what its instructions so far ask for, and no allocation fails where
the RAM holds what all programs ask for. -/

namespace BtlOs

open CLang Counting Header SchedHeader

/-! ### A program alone -/

section alone

variable [Header]

/-- The regions of a process. -/
abbrev Blocks := ℕ → Option Block

namespace Inst

variable (ins : Inst)

/-- The regions after the instruction. -/
def blocks (B : Blocks) : Blocks :=
  match ins.opcode with
  | .alloc => Function.update B ins.arg1 (some ⟨ins.arg0, fun _ => none⟩)
  | .free => Function.update B ins.arg0 none
  | .write => Function.update B ins.arg1 ((B ins.arg1).map fun b =>
      { b with data := Function.update b.data ins.arg2 (some (uint32ToByte ins.arg0)) })
  | _ => B

/-- The frames that the instruction asks for. -/
def frames : ℕ :=
  match ins.opcode with
  | .alloc => pages ins.arg0
  | _ => 0

/-- Region ids inside the symbol table, sizes whose rounding fits `int`, reads and writes inside a
live region, and no system call on the memory or on other processes. -/
def Ok (B : Blocks) : Prop :=
  match ins.opcode with
  | .alloc => ins.arg1 < pagingMaxSymtblSz ∧ roundUp ins.arg0 < 2 ^ 31
  | .free => ins.arg0 < pagingMaxSymtblSz
  | .read => ins.arg0 < pagingMaxSymtblSz ∧ ∃ b, B ins.arg0 = some b ∧ ins.arg1 < b.size
  | .write => ins.arg1 < pagingMaxSymtblSz ∧ ∃ b, B ins.arg1 = some b ∧ ins.arg2 < b.size
  | .syscall => ins.arg0 ≠ 17 ∧ ins.arg0 ≠ 101
  | _ => True

/-- An allocation and a write succeed, and a read of a byte that the program has written returns
it. -/
def Returns (B : Blocks) (st : ℤ) (val : Option ℕ) : Prop :=
  match ins.opcode with
  | .alloc => st = 0
  | .write => st = 0
  | .read => st = 0 ∧ ∀ b w, B ins.arg0 = some b → b.data ins.arg1 = some w →
      val = some (byteToUint32 w)
  | _ => True

end Inst

/-- The regions after the first `k` instructions. -/
def blocksAt (code : List Inst) : ℕ → Blocks
  | 0 => fun _ => none
  | k + 1 =>
      match code[k]? with
      | none => blocksAt code k
      | some ins => ins.blocks (blocksAt code k)

/-- The frames that the first `k` instructions ask for. -/
def demand (code : List Inst) (k : ℕ) : ℕ := ((code.take k).map Inst.frames).sum

/-- Each instruction is in order where the program has reached it. -/
def WellBehaved (code : List Inst) : Prop :=
  ∀ k (ins : Inst), code[k]? = some ins → ins.Ok (blocksAt code k)

theorem demand_succ {code : List Inst} {k : ℕ} {ins : Inst} (h : code[k]? = some ins) :
    demand code (k + 1) = demand code k + ins.frames := by
  simp [demand, List.take_add_one, h]

theorem demand_le (code : List Inst) (k : ℕ) : demand code k ≤ demand code code.length := by
  unfold demand
  rw [List.take_length]
  exact ((List.take_sublist k code).map Inst.frames).sum_le_sum fun _ _ => Nat.zero_le _

omit [Header] in
theorem blocksAt_succ {code : List Inst} {k : ℕ} {ins : Inst} (h : code[k]? = some ins) :
    blocksAt code (k + 1) = ins.blocks (blocksAt code k) := by
  simp [blocksAt, h]

end alone

/-! ### One instruction -/

section instruction

variable [Header] [PageLaws] [PteLaws] {N p : ℕ} {s : Sys} {M : Plain} {pr : Process} {ins : Inst}

omit [Header] [PageLaws] [PteLaws] in
theorem Sys.commit_ctx (hp : s.procs p = some pr) : s.commit p (s.ctx pr) = s := by
  have hprocs : Function.update s.procs p (some ⟨pr.mm, pr.activeMswpId⟩) = s.procs := by
    rw [← hp, Function.update_eq_self]
  unfold Sys.commit Sys.ctx
  dsimp only
  rw [hprocs]

omit [PageLaws] [PteLaws] in
theorem PlainInv.idle (h : PlainInv N s M) (hp : s.procs p = some pr) :
    PlainInv N (s.commit p (s.ctx pr)) (M.set p (M p)) := by
  rw [Sys.commit_ctx hp, Plain.set_eq_self]
  exact h

/-- An allocation for which the frames are there. -/
theorem PlainInv.exec_alloc (h : PlainInv N s M) (hM : N ≤ pagingMaxPgn) (hfpn : FpnFits N)
    (hp : s.procs p = some pr) {size id : ℕ} (hid : id < pagingMaxSymtblSz)
    (hsz : roundUp size < 2 ^ 31) (hfree : pages size ≤ s.dev.mram.freeFpList.length) :
    ∃ c, liballoc (s.ctx pr) size id = .ok (0, c) ∧
      PlainInv N (s.commit p c) (M.set p (Function.update (M p) id (some ⟨size, fun _ => none⟩))) ∧
      s.dev.mram.freeFpList.length ≤ c.dev.mram.freeFpList.length + pages size := by
  obtain ⟨vma, hok, hroom⟩ := h.heap.heap p pr hp
  have hn := h.bytes
  obtain ⟨st, c, he, hs⟩ := HeapOk.liballoc (c := s.ctx pr) hok h.heap.lock hroom hn hM hid hsz
  obtain ⟨vma', hok', hroom'⟩ := hs.heapOk hok hroom hn hid hsz
  have hheap := h.heap.commit (p := p) (hs.mmvmLock.trans h.heap.lock) hs.frames_le hok' hroom'
  have hinv := h.alloc hp hok hid hfpn hs hheap none
  have hres : st = 0 ∧
      s.dev.mram.freeFpList.length ≤ c.dev.mram.freeFpList.length + pages size := by
    cases hs with
    | fit _ => exact ⟨rfl, Nat.le_add_right _ _⟩
    | grow _ hk =>
        refine ⟨rfl, ?_⟩
        show _ ≤ (s.dev.mram.freeFpList.drop (pages size)).length + pages size
        rw [List.length_drop]
        omega
    | oom hlt => exact absurd hfree (Nat.not_le_of_lt hlt)
  obtain ⟨rfl, hlen⟩ := hres
  exact ⟨c, he, by simpa [Plain.next] using hinv, hlen⟩

/-- An instruction in order returns what it returns alone. -/
theorem PlainInv.exec (h : PlainInv N s M) (hM : N ≤ pagingMaxPgn) (hfpn : FpnFits N)
    (hp : s.procs p = some pr) (hins : ins.Ok (M p))
    (hfree : ins.frames ≤ s.dev.mram.freeFpList.length)
    (killall : Ctx → ScRegs → Exec (ℤ × Ctx)) (data₀ : Byte) :
    ∃ st val c, exec killall (s.ctx pr) ins data₀ = .ok (st, val, c) ∧
      PlainInv N (s.commit p c) (M.set p (ins.blocks (M p))) ∧ ins.Returns (M p) st val ∧
      s.dev.mram.freeFpList.length ≤ c.dev.mram.freeFpList.length + ins.frames := by
  obtain ⟨vma, hok, hroom⟩ := h.heap.heap p pr hp
  obtain ⟨opcode, arg0, arg1, arg2, arg3⟩ := ins
  cases opcode with
  | calculate => exact ⟨_, _, _, rfl, h.idle hp, trivial, Nat.le_refl _⟩
  | other => exact ⟨_, _, _, rfl, h.idle hp, trivial, Nat.le_refl _⟩
  | syscall =>
      obtain ⟨h17, h101⟩ : arg0 ≠ 17 ∧ arg0 ≠ 101 := hins
      refine ⟨0, none, s.ctx pr, ?_, h.idle hp, trivial, Nat.le_refl _⟩
      simp only [BtlOs.exec, libsyscall, syscall, h17, h101, if_false]
      split_ifs <;> rfl
  | alloc =>
      obtain ⟨hid, hsz⟩ : arg1 < pagingMaxSymtblSz ∧ roundUp arg0 < 2 ^ 31 := hins
      obtain ⟨c, he, hinv, hlen⟩ := h.exec_alloc hM hfpn hp hid hsz hfree
      exact ⟨0, none, c, by rw [BtlOs.exec, he]; rfl, hinv, rfl, hlen⟩
  | free =>
      have hid : arg0 < pagingMaxSymtblSz := hins
      obtain ⟨st, rg, he, hempty, _⟩ := libfree_eq (c := s.ctx pr) hok.regions h.heap.lock hid
      have hheap := h.heap.commit (p := p) h.heap.lock le_rfl
        (HeapOk.freed (c := s.ctx pr) hok hid hempty) hroom
      refine ⟨st, none, _, by rw [BtlOs.exec, he]; rfl, ?_, trivial, Nat.le_refl _⟩
      exact h.free hp hok hheap st none
  | read =>
      obtain ⟨_, b, hb, hoff⟩ : arg0 < pagingMaxSymtblSz ∧ ∃ b, M p arg0 = some b ∧ arg1 < b.size :=
        hins
      obtain ⟨c, he, hinv⟩ := h.read hM hp hb hoff data₀
      have hreach := (h.reach hM hp hok hroom hb hoff).libread h.heap.lock data₀
      have hdev : c.dev = s.dev := by
        rw [he, Except.ok.injEq, Prod.mk.injEq, Prod.mk.injEq] at hreach
        rw [hreach.2.2]
        rfl
      refine ⟨0, some _, c, by rw [BtlOs.exec, he]; rfl, ?_, ⟨rfl, ?_⟩, ?_⟩
      · rwa [show Inst.blocks ⟨.read, arg0, arg1, arg2, arg3⟩ (M p) = M p from rfl,
          Plain.set_eq_self]
      · intro b' w hb' hw
        obtain rfl := Option.some.inj (hb.symm.trans hb')
        rw [h.data p pr _ b _ w hp hb hoff hw]
      · rw [hdev]
        exact Nat.le_refl _
  | write =>
      obtain ⟨_, b, hb, hoff⟩ : arg1 < pagingMaxSymtblSz ∧ ∃ b, M p arg1 = some b ∧ arg2 < b.size :=
        hins
      obtain ⟨c, he, hinv⟩ := h.write hM hp hb hoff (uint32ToByte arg0) none
      have hreach := (h.reach hM hp hok hroom hb hoff).libwrite h.heap.lock (uint32ToByte arg0)
      have hlen : c.dev.mram.freeFpList = s.dev.mram.freeFpList := by
        rw [he, Except.ok.injEq, Prod.mk.injEq] at hreach
        rw [hreach.2]
        rfl
      refine ⟨0, none, c, by rw [BtlOs.exec, he]; rfl, hinv, rfl, ?_⟩
      rw [hlen]
      exact Nat.le_refl _

/-- `pc` after a call of `run`. -/
def nextPc (code : List Inst) (k : ℕ) : ℕ := if code.length ≤ k then k else k + 1

/-- A call of `run` takes a process that has the regions of its program to the next ones. -/
theorem PlainInv.run {code : List Inst} {k : ℕ} (h : PlainInv N s M) (hM : N ≤ pagingMaxPgn)
    (hfpn : FpnFits N) (hp : s.procs p = some pr) (hcode : WellBehaved code)
    (hblocks : M p = blocksAt code k)
    (hfree : demand code (nextPc code k) ≤ demand code k + s.dev.mram.freeFpList.length)
    (killall : Ctx → ScRegs → Exec (ℤ × Ctx)) (data₀ : Byte) :
    ∃ st val c, run killall code k (s.ctx pr) data₀ = .ok (st, val, nextPc code k, c) ∧
      PlainInv N (s.commit p c) (M.set p (blocksAt code (nextPc code k))) ∧
      (∀ ins, code[k]? = some ins → ins.Returns (blocksAt code k) st val) ∧
      s.dev.mram.freeFpList.length + demand code k ≤
        c.dev.mram.freeFpList.length + demand code (nextPc code k) := by
  unfold BtlOs.run nextPc at *
  cases hget : code[k]? with
  | none =>
      have hle : code.length ≤ k := List.getElem?_eq_none_iff.mp hget
      rw [if_pos hle, ← hblocks]
      exact ⟨1, none, s.ctx pr, rfl, h.idle hp, nofun, Nat.le_refl _⟩
  | some ins =>
      have hlt : ¬ code.length ≤ k := Nat.not_le.mpr (List.getElem?_eq_some_iff.mp hget).1
      rw [if_neg hlt, demand_succ hget] at hfree ⊢
      rw [blocksAt_succ hget, ← hblocks]
      have hins : ins.Ok (M p) := hblocks ▸ hcode k ins hget
      obtain ⟨st, val, c, he, hinv, hret, hlen⟩ :=
        h.exec hM hfpn hp hins (by omega) killall data₀
      refine ⟨st, val, c, by simp [he], hinv, ?_, by omega⟩
      rintro _ ⟨⟩
      exact hret

end instruction

/-! ### The processes in a step of the simulator -/

section steps

variable [SchedHeader] {n : ℕ} {ps : List LdProcess} {codeSize : Pcb → ℕ} {timeSlot : ℤ}
  {v w : SimState}

/-- A step without memory. -/
def SimEvent.NoMemory : SimEvent → Prop
  | .add _ => False
  | .cpu (.run _) => False
  | .cpu (.finish _) => False
  | .cpu (.killall _ _) => False
  | _ => True

theorem SimEvent.NoMemory.frame {e : SimEvent} (hno : e.NoMemory)
    (hs : (simLts n ps codeSize timeSlot).step v e w) :
    w.2.cpus.added = v.2.cpus.added ∧ w.2.cpus.finished = v.2.cpus.finished ∧ w.2.pc = v.2.pc := by
  obtain ⟨a, m⟩ := v
  obtain ⟨a', m'⟩ := w
  have hstay : e.routine = none → m'.cpus.added = m.cpus.added ∧
      m'.cpus.finished = m.cpus.finished ∧ m'.pc = m.pc := by
    intro he
    have hm := hs.2.1
    rw [he, Lts.moves_none] at hm
    obtain rfl : m' = m := hm
    exact ⟨rfl, rfl, rfl⟩
  cases e with
  | timer _ => exact hstay rfl
  | loader _ => exact hstay rfl
  | add _ => cases hno
  | loaded =>
      have hstep : RoutineStep n codeSize timeSlot m .loaded m' := Lts.moves_some.mp hs.2.1
      cases hstep with
      | loaded _ => exact ⟨rfl, rfl, rfl⟩
  | cpu re =>
      have hown : re.Own := hs.2.2
      have hstep : RoutineStep n codeSize timeSlot m re m' := Lts.moves_some.mp hs.2.1
      cases hstep with
      | load _ _ _ => cases hown
      | run _ _ _ => cases hno
      | finish _ _ _ _ => cases hno
      | killall _ _ _ _ => cases hno
      | _ => exact ⟨rfl, rfl, rfl⟩
  | enter _ => exact hstay rfl
  | ret c =>
      have hstep : RoutineStep n codeSize timeSlot m (.ret c) m' := Lts.moves_some.mp hs.2.1
      cases hstep with
      | ret _ _ => exact ⟨rfl, rfl, rfl⟩
  | detach _ => exact hstay rfl

theorem sim_add {line : LdProcess} {proc : Pcb}
    (hs : (simLts n ps codeSize timeSlot).step v (.add line) w)
    (hhead : v.2.toLoad.head? = some proc) :
    (∀ q ∈ v.2.cpus.added, q.pid ≠ proc.pid) ∧ w.2.cpus.added = proc :: v.2.cpus.added ∧
      w.2.cpus.finished = v.2.cpus.finished ∧ w.2.pc = Function.update v.2.pc proc 0 := by
  obtain ⟨a, m⟩ := v
  obtain ⟨a', m'⟩ := w
  have hstep : RoutineStep n codeSize timeSlot m .load m' := Lts.moves_some.mp hs.2.1
  cases hstep with
  | @load p rest hload _ hpid =>
      obtain rfl : p = proc := by simpa [hload] using hhead
      exact ⟨hpid, rfl, rfl, rfl⟩

/-- `run` moves the `pc` of the process alone. -/
theorem sim_run {c : ℕ} {proc : Pcb} (hs : (simLts n ps codeSize timeSlot).step v (.cpu (.run c)) w)
    (hheld : v.2.cpus.held c = some proc) :
    w.2.cpus.added = v.2.cpus.added ∧ w.2.cpus.finished = v.2.cpus.finished ∧
      w.2.pc = Function.update v.2.pc proc
        (if codeSize proc ≤ v.2.pc proc then v.2.pc proc else v.2.pc proc + 1) := by
  obtain ⟨a, m⟩ := v
  obtain ⟨a', m'⟩ := w
  have hstep : RoutineStep n codeSize timeSlot m (.run c) m' := Lts.moves_some.mp hs.2.1
  cases hstep with
  | @run _ p _ _ hp =>
      obtain rfl : p = proc := Option.some.inj (hp.symm.trans hheld)
      exact ⟨rfl, rfl, rfl⟩

theorem sim_finish {c : ℕ} {proc : Pcb}
    (hs : (simLts n ps codeSize timeSlot).step v (.cpu (.finish c)) w)
    (hheld : v.2.cpus.held c = some proc) :
    w.2.cpus.added = v.2.cpus.added ∧ w.2.cpus.finished = proc :: v.2.cpus.finished ∧
      w.2.pc = v.2.pc ∧ v.2.pc proc = codeSize proc := by
  obtain ⟨a, m⟩ := v
  obtain ⟨a', m'⟩ := w
  have hstep : RoutineStep n codeSize timeSlot m (.finish c) m' := Lts.moves_some.mp hs.2.1
  cases hstep with
  | @finish _ p _ _ hp hpc =>
      obtain rfl : p = proc := Option.some.inj (hp.symm.trans hheld)
      exact ⟨rfl, rfl, rfl, hpc⟩

end steps

/-! ### The model -/

section model

variable [Header] [SchedHeader]

/-- The simulator with its journal, and the memory of its processes. -/
abbrev OsState := (SimState × Journal) × Sys

/-- The steps that the memory sees, with the result of the instruction, and the others. -/
inductive OsEvent where
  | add (line : LdProcess) (mm₀ : Mm) (pgd₀ : ℕ → Pte) (activeMswpId : ℤ)
  | exec (cpu : ℕ) (data₀ : Byte) (st : ℤ) (val : Option ℕ)
  | finish (cpu : ℕ)
  | other (e : SimEvent)

/-- What the simulator sees of an event. -/
def OsEvent.sim : OsEvent → SimEvent
  | add line _ _ _ => .add line
  | exec c _ _ _ => .cpu (.run c)
  | finish c => .cpu (.finish c)
  | other e => e

/-- A process is loaded with an empty symbol table. -/
def OsEvent.Cleared : OsEvent → Prop
  | .add _ mm₀ _ _ => ∀ id < pagingMaxSymtblSz, (mm₀.symrgtbl id).Empty
  | _ => True

inductive OsStep (n : ℕ) (ps : List LdProcess) (code : Pcb → List Inst) (timeSlot : ℤ)
    (killall : Ctx → ScRegs → Exec (ℤ × Ctx)) (x : OsState) : OsEvent → OsState → Prop
  | add {line : LdProcess} {proc : Pcb} {mm₀ : Mm} {pgd₀ : ℕ → Pte} {activeMswpId : ℤ}
      {y : SimState × Journal} :
      x.1.1.2.toLoad.head? = some proc →
      (visitLts n ps (fun proc => (code proc).length) timeSlot).step x.1 (.add line) y →
      OsStep n ps code timeSlot killall x (.add line mm₀ pgd₀ activeMswpId) (y, { x.2 with
        procs := Function.update x.2.procs proc.pid (some ⟨initMm mm₀ pgd₀, activeMswpId⟩) })
  | exec {cpu pc : ℕ} {proc : Pcb} {pr : Process} {data₀ : Byte} {st : ℤ} {val : Option ℕ}
      {c : Ctx} {y : SimState × Journal} :
      x.1.1.2.cpus.held cpu = some proc → x.2.procs proc.pid = some pr →
      run killall (code proc) (x.1.1.2.pc proc) (x.2.ctx pr) data₀ = .ok (st, val, pc, c) →
      (visitLts n ps (fun proc => (code proc).length) timeSlot).step x.1 (.cpu (.run cpu)) y →
      OsStep n ps code timeSlot killall x (.exec cpu data₀ st val) (y, x.2.commit proc.pid c)
  | finish {cpu : ℕ} {proc : Pcb} {y : SimState × Journal} :
      x.1.1.2.cpus.held cpu = some proc →
      (visitLts n ps (fun proc => (code proc).length) timeSlot).step x.1 (.cpu (.finish cpu)) y →
      OsStep n ps code timeSlot killall x (.finish cpu)
        (y, { x.2 with procs := Function.update x.2.procs proc.pid none })
  | other {e : SimEvent} {y : SimState × Journal} : e.NoMemory →
      (visitLts n ps (fun proc => (code proc).length) timeSlot).step x.1 e y →
      OsStep n ps code timeSlot killall x (.other e) (y, x.2)

def osLts (n : ℕ) (ps : List LdProcess) (code : Pcb → List Inst) (timeSlot : ℤ)
    (killall : Ctx → ScRegs → Exec (ℤ × Ctx)) : Lts OsState OsEvent :=
  ⟨OsStep n ps code timeSlot killall⟩

variable {n : ℕ} {ps : List LdProcess} {code : Pcb → List Inst} {timeSlot : ℤ}
  {killall : Ctx → ScRegs → Exec (ℤ × Ctx)} {x y : OsState} {e : OsEvent}

theorem OsStep.sim (hs : OsStep n ps code timeSlot killall x e y) :
    (visitLts n ps (fun proc => (code proc).length) timeSlot).step x.1 e.sim y.1 ∧
      e.sim.NoKill := by
  cases hs with
  | add _ hsim => exact ⟨hsim, trivial⟩
  | exec _ _ _ hsim => exact ⟨hsim, trivial⟩
  | finish _ hsim => exact ⟨hsim, trivial⟩
  | @other e y hno hsim =>
      refine ⟨hsim, ?_⟩
      cases e with
      | cpu re =>
          cases re with
          | killall _ _ => cases hno
          | _ => trivial
      | _ => trivial

/-- The processes that are loaded and have not finished. -/
def Running (x : OsState) (proc : Pcb) : Prop :=
  proc ∈ x.1.1.2.cpus.added ∧ proc ∉ x.1.1.2.cpus.finished

/-- Each process has the regions that its program has alone, and the frames that are gone were
asked for. -/
structure ProgInv (N : ℕ) (code : Pcb → List Inst) (x : OsState) (M : Plain) : Prop where
  plain : PlainInv N x.2 M
  procs : ∀ proc, Running x proc → ∃ pr, x.2.procs proc.pid = some pr
  blocks : ∀ proc, Running x proc → M proc.pid = blocksAt (code proc) (x.1.1.2.pc proc)
  frames : N ≤ x.2.dev.mram.freeFpList.length +
    (x.1.1.2.cpus.added.map fun proc => demand (code proc) (x.1.1.2.pc proc)).sum
  ended : ∀ proc ∈ x.1.1.2.cpus.finished, x.1.1.2.pc proc = (code proc).length

variable {N : ℕ} {M : Plain} {proc : Pcb}

theorem ProgInv.other (hi : ProgInv N code x M) {z : SimState × Journal}
    (hadded : z.1.2.cpus.added = x.1.1.2.cpus.added)
    (hfin : z.1.2.cpus.finished = x.1.1.2.cpus.finished) (hpc : z.1.2.pc = x.1.1.2.pc) :
    ProgInv N code (z, x.2) M := by
  have hrun : ∀ proc, Running (z, x.2) proc ↔ Running x proc := by
    intro proc
    unfold Running
    rw [hadded, hfin]
  refine ⟨hi.plain, fun proc h => hi.procs proc ((hrun proc).mp h), fun proc h => ?_, ?_, ?_⟩
  · rw [hi.blocks proc ((hrun proc).mp h), hpc]
  · rw [hadded, hpc]
    exact hi.frames
  · rw [hfin, hpc]
    exact hi.ended

theorem ProgInv.add (hi : ProgInv N code x M) (hx : Exclusive x.1.1.2.cpus)
    {z : SimState × Journal} {mm₀ : Mm} {pgd₀ : ℕ → Pte} {activeMswpId : ℤ}
    (hempty : ∀ id < pagingMaxSymtblSz, (mm₀.symrgtbl id).Empty)
    (hpid : ∀ q ∈ x.1.1.2.cpus.added, q.pid ≠ proc.pid)
    (hadded : z.1.2.cpus.added = proc :: x.1.1.2.cpus.added)
    (hfin : z.1.2.cpus.finished = x.1.1.2.cpus.finished)
    (hpc : z.1.2.pc = Function.update x.1.1.2.pc proc 0) :
    ProgInv N code (z, { x.2 with
      procs := Function.update x.2.procs proc.pid (some ⟨initMm mm₀ pgd₀, activeMswpId⟩) })
      (M.set proc.pid fun _ => none) := by
  have hold : ∀ q, Running (z, x.2) q → q = proc ∨ q ≠ proc ∧ q.pid ≠ proc.pid ∧ Running x q := by
    rintro q ⟨hq, hqfin⟩
    have hq : q ∈ z.1.2.cpus.added := hq
    have hqfin : q ∉ z.1.2.cpus.finished := hqfin
    rw [hadded] at hq
    rw [hfin] at hqfin
    cases List.mem_cons.mp hq with
    | inl he => exact .inl he
    | inr hq => exact .inr ⟨fun he => hpid q hq (congrArg Pcb.pid he), hpid q hq, hq, hqfin⟩
  refine ⟨hi.plain.update (hi.plain.heap.load pgd₀ activeMswpId hempty) ?_, ?_, ?_, ?_, ?_⟩
  · rintro pr hpr
    obtain rfl := Option.some.inj hpr
    rfl
  · intro q hq
    cases hold q hq with
    | inl he =>
        subst he
        exact ⟨_, Function.update_self ..⟩
    | inr hq =>
        obtain ⟨_, hne, hrun⟩ := hq
        obtain ⟨pr, hp⟩ := hi.procs q hrun
        exact ⟨pr, by simp [hne, hp]⟩
  · intro q hq
    show _ = blocksAt (code q) (z.1.2.pc q)
    rw [hpc]
    cases hold q hq with
    | inl he =>
        subst he
        rw [Plain.set_self, Function.update_self]
        rfl
    | inr hq =>
        obtain ⟨hne, hnepid, hrun⟩ := hq
        rw [Plain.set_of_ne M _ hnepid, Function.update_of_ne hne]
        exact hi.blocks q hrun
  · have hsame : (x.1.1.2.cpus.added.map fun q => demand (code q) (z.1.2.pc q)) =
        x.1.1.2.cpus.added.map fun q => demand (code q) (x.1.1.2.pc q) := by
      refine List.map_congr_left fun q hq => ?_
      rw [hpc, Function.update_of_ne fun he => hpid q hq (congrArg Pcb.pid he)]
    show N ≤ x.2.dev.mram.freeFpList.length +
      (z.1.2.cpus.added.map fun q => demand (code q) (z.1.2.pc q)).sum
    rw [hadded, List.map_cons, List.sum_cons, hsame]
    exact hi.frames.trans (Nat.add_le_add_left (Nat.le_add_left _ _) _)
  · intro q hq
    have hq : q ∈ z.1.2.cpus.finished := hq
    rw [hfin] at hq
    show z.1.2.pc q = _
    rw [hpc, Function.update_of_ne fun he =>
      hpid q (hx.finished_added q hq) (congrArg Pcb.pid he)]
    exact hi.ended q hq

/-- A process at the end of its code is released. -/
theorem ProgInv.finish (hi : ProgInv N code x M) (hx : Exclusive x.1.1.2.cpus)
    {z : SimState × Journal} (hproc : Running x proc)
    (hadded : z.1.2.cpus.added = x.1.1.2.cpus.added)
    (hfin : z.1.2.cpus.finished = proc :: x.1.1.2.cpus.finished) (hpc : z.1.2.pc = x.1.1.2.pc)
    (hend : x.1.1.2.pc proc = (code proc).length) :
    ProgInv N code (z, { x.2 with procs := Function.update x.2.procs proc.pid none })
      (M.set proc.pid fun _ => none) := by
  have hold : ∀ q, Running (z, x.2) q → q.pid ≠ proc.pid ∧ Running x q := by
    rintro q ⟨hq, hqfin⟩
    have hq : q ∈ z.1.2.cpus.added := hq
    have hqfin : q ∉ z.1.2.cpus.finished := hqfin
    rw [hadded] at hq
    rw [hfin, List.mem_cons, not_or] at hqfin
    exact ⟨fun he => hqfin.1 (hx.pids proc hproc.1 q hq he), hq, hqfin.2⟩
  refine ⟨hi.plain.update hi.plain.heap.release (by simp), ?_, ?_, ?_, ?_⟩
  · intro q hq
    obtain ⟨hne, hrun⟩ := hold q hq
    obtain ⟨pr, hp⟩ := hi.procs q hrun
    exact ⟨pr, by simp [hne, hp]⟩
  · intro q hq
    obtain ⟨hne, hrun⟩ := hold q hq
    show _ = blocksAt (code q) (z.1.2.pc q)
    rw [Plain.set_of_ne M _ hne, hpc]
    exact hi.blocks q hrun
  · show N ≤ x.2.dev.mram.freeFpList.length +
      (z.1.2.cpus.added.map fun q => demand (code q) (z.1.2.pc q)).sum
    rw [hadded, hpc]
    exact hi.frames
  · intro q hq
    have hq : q ∈ z.1.2.cpus.finished := hq
    show z.1.2.pc q = _
    rw [hpc]
    rw [hfin] at hq
    cases List.mem_cons.mp hq with
    | inl he => rw [he, hend]
    | inr hq => exact hi.ended q hq

omit [Header] in
theorem LoadInv.nodup_added {v : SimState} (hl : LoadInv ps v) : v.2.cpus.added.Nodup := by
  rw [hl.added]
  exact List.nodup_reverse.mpr ((nodup_pcbs ps).sublist (List.take_sublist _ _))

/-- The frames that a process may still ask for are there. -/
theorem ProgInv.room (hi : ProgInv N code x M) (hl : LoadInv ps x.1.1)
    (hroom : ((pcbs ps).map fun proc => demand (code proc) (code proc).length).sum ≤ N)
    (hproc : proc ∈ x.1.1.2.cpus.added) (k : ℕ) :
    demand (code proc) k ≤
      demand (code proc) (x.1.1.2.pc proc) + x.2.dev.mram.freeFpList.length := by
  have hnodup := hl.nodup_added
  have hchange := sum_map_change hnodup hproc
    (f := fun q => demand (code q) (x.1.1.2.pc q))
    (g := fun q => if q = proc then demand (code proc) k else demand (code q) (x.1.1.2.pc q))
    fun q _ hne => if_neg hne
  have hall : (x.1.1.2.cpus.added.map fun q =>
      if q = proc then demand (code proc) k else demand (code q) (x.1.1.2.pc q)).sum ≤ N := by
    calc (x.1.1.2.cpus.added.map fun q =>
          if q = proc then demand (code proc) k else demand (code q) (x.1.1.2.pc q)).sum
        ≤ (x.1.1.2.cpus.added.map fun q => demand (code q) (code q).length).sum := by
          apply List.sum_le_sum
          intro q _
          split_ifs with he
          · subst he
            exact demand_le (code q) k
          · exact demand_le (code q) _
      _ = (((pcbs ps).take x.1.1.1.1.i).map fun q => demand (code q) (code q).length).sum := by
          rw [hl.added, List.map_reverse, List.sum_reverse]
      _ ≤ ((pcbs ps).map fun q => demand (code q) (code q).length).sum :=
          ((List.take_sublist _ _).map _).sum_le_sum fun _ _ => Nat.zero_le _
      _ ≤ N := hroom
  have hframes := hi.frames
  rw [if_pos rfl] at hchange
  omega

section

variable [PageLaws] [PteLaws]

/-- The next instruction of a running process returns what it returns alone. -/
theorem ProgInv.run (hi : ProgInv N code x M) (hl : LoadInv ps x.1.1) (hM : N ≤ pagingMaxPgn)
    (hfpn : FpnFits N) (hcode : ∀ proc ∈ pcbs ps, WellBehaved (code proc))
    (hroom : ((pcbs ps).map fun proc => demand (code proc) (code proc).length).sum ≤ N)
    (hproc : Running x proc) {pr : Process} (hp : x.2.procs proc.pid = some pr)
    (killall : Ctx → ScRegs → Exec (ℤ × Ctx)) (data₀ : Byte) :
    ∃ st val c, BtlOs.run killall (code proc) (x.1.1.2.pc proc) (x.2.ctx pr) data₀ =
        .ok (st, val, nextPc (code proc) (x.1.1.2.pc proc), c) ∧
      PlainInv N (x.2.commit proc.pid c)
        (M.set proc.pid (blocksAt (code proc) (nextPc (code proc) (x.1.1.2.pc proc)))) ∧
      (∀ ins, (code proc)[x.1.1.2.pc proc]? = some ins →
        ins.Returns (blocksAt (code proc) (x.1.1.2.pc proc)) st val) ∧
      x.2.dev.mram.freeFpList.length + demand (code proc) (x.1.1.2.pc proc) ≤
        c.dev.mram.freeFpList.length +
          demand (code proc) (nextPc (code proc) (x.1.1.2.pc proc)) := by
  have hmem : proc ∈ pcbs ps := by
    have hmem := hproc.1
    rw [hl.added, List.mem_reverse] at hmem
    exact List.mem_of_mem_take hmem
  exact hi.plain.run hM hfpn hp (hcode proc hmem) (hi.blocks proc hproc)
    (hi.room hl hroom hproc.1 _) killall data₀

omit [PageLaws] [PteLaws] in
theorem ProgInv.exec (hi : ProgInv N code x M) (hx : Exclusive x.1.1.2.cpus)
    (hl : LoadInv ps x.1.1) (hproc : Running x proc) {z : SimState × Journal} {c : Ctx}
    (hplain : PlainInv N (x.2.commit proc.pid c)
      (M.set proc.pid (blocksAt (code proc) (nextPc (code proc) (x.1.1.2.pc proc)))))
    (hlen : x.2.dev.mram.freeFpList.length + demand (code proc) (x.1.1.2.pc proc) ≤
      c.dev.mram.freeFpList.length + demand (code proc) (nextPc (code proc) (x.1.1.2.pc proc)))
    (hadded : z.1.2.cpus.added = x.1.1.2.cpus.added)
    (hfin : z.1.2.cpus.finished = x.1.1.2.cpus.finished)
    (hpc : z.1.2.pc = Function.update x.1.1.2.pc proc (nextPc (code proc) (x.1.1.2.pc proc))) :
    ProgInv N code (z, x.2.commit proc.pid c)
      (M.set proc.pid (blocksAt (code proc) (nextPc (code proc) (x.1.1.2.pc proc)))) := by
  have hrun : ∀ q, Running (z, x.2.commit proc.pid c) q → Running x q := by
    rintro q ⟨hq, hqfin⟩
    exact ⟨hadded ▸ hq, hfin ▸ hqfin⟩
  have hpid : ∀ q, Running x q → q ≠ proc → q.pid ≠ proc.pid :=
    fun q hq hne he => hne (hx.pids proc hproc.1 q hq.1 he)
  refine ⟨hplain, ?_, ?_, ?_, ?_⟩
  · intro q hq
    by_cases he : q = proc
    · subst he
      exact ⟨_, Function.update_self ..⟩
    · obtain ⟨pr, hp⟩ := hi.procs q (hrun q hq)
      exact ⟨pr, by simp [Sys.commit, hpid q (hrun q hq) he, hp]⟩
  · intro q hq
    show _ = blocksAt (code q) (z.1.2.pc q)
    rw [hpc]
    by_cases he : q = proc
    · subst he
      rw [Plain.set_self, Function.update_self]
    · rw [Plain.set_of_ne M _ (hpid q (hrun q hq) he), Function.update_of_ne he]
      exact hi.blocks q (hrun q hq)
  · have hchange := sum_map_change hl.nodup_added hproc.1
      (f := fun q => demand (code q) (x.1.1.2.pc q)) (g := fun q => demand (code q) (z.1.2.pc q))
      fun q _ hne => by rw [hpc, Function.update_of_ne hne]
    have hnext : z.1.2.pc proc = nextPc (code proc) (x.1.1.2.pc proc) := by
      rw [hpc, Function.update_self]
    have hframes := hi.frames
    show N ≤ c.dev.mram.freeFpList.length +
      (z.1.2.cpus.added.map fun q => demand (code q) (z.1.2.pc q)).sum
    rw [hadded]
    rw [hnext] at hchange
    omega
  · intro q hq
    have hq : q ∈ z.1.2.cpus.finished := hq
    rw [hfin] at hq
    have hne : q ≠ proc := fun he => hproc.2 (he ▸ hq)
    show z.1.2.pc q = _
    rw [hpc, Function.update_of_ne hne]
    exact hi.ended q hq

variable (hM : N ≤ pagingMaxPgn) (hfpn : FpnFits N)
  (hcode : ∀ proc ∈ pcbs ps, WellBehaved (code proc))
  (hroom : ((pcbs ps).map fun proc => demand (code proc) (code proc).length).sum ≤ N)

include hM hfpn hcode hroom

theorem ProgInv.step (hi : ProgInv N code x M) (hx : Exclusive x.1.1.2.cpus)
    (hl : LoadInv ps x.1.1) (hs : OsStep n ps code timeSlot killall x e y) (he : e.Cleared) :
    ∃ M', ProgInv N code y M' := by
  cases hs with
  | add hhead hsim =>
      obtain ⟨hpid, hadded, hfin, hpc⟩ := sim_add hsim.1 hhead
      exact ⟨_, hi.add hx he hpid hadded hfin hpc⟩
  | @exec cpu pc proc pr data₀ st val c z hheld hp hrun hsim =>
      have hproc : Running x proc := hx.held_live cpu proc hheld
      obtain ⟨hadded, hfin, hpc⟩ := sim_run hsim.1 hheld
      obtain ⟨st', val', c', hrun', hplain, _, hlen⟩ :=
        hi.run hl hM hfpn hcode hroom hproc hp killall data₀
      rw [hrun, Except.ok.injEq, Prod.mk.injEq, Prod.mk.injEq, Prod.mk.injEq] at hrun'
      obtain ⟨rfl, rfl, rfl, rfl⟩ := hrun'
      exact ⟨_, hi.exec hx hl hproc hplain hlen hadded hfin hpc⟩
  | finish hheld hsim =>
      obtain ⟨hadded, hfin, hpc, hend⟩ := sim_finish hsim.1 hheld
      exact ⟨_, hi.finish hx (hx.held_live _ _ hheld) hadded hfin hpc hend⟩
  | other hno hsim =>
      obtain ⟨hadded, hfin, hpc⟩ := hno.frame hsim.1
      exact ⟨_, hi.other hadded hfin hpc⟩

omit hM hfpn hcode hroom [PageLaws] [PteLaws] in
theorem ProgInv.start {m : ℕ} {s₀ : Sys} (h₀ : Booted N m s₀) :
    ProgInv N code ((.start ps, .start), s₀) Plain.empty where
  plain := h₀.plainInv
  procs := by simp [Running, SimState.start, Machine.start, Cpus.start]
  blocks := by simp [Running, SimState.start, Machine.start, Cpus.start]
  frames := by simp [h₀.ram]
  ended := by simp [SimState.start, Machine.start, Cpus.start]

theorem ProgInv.of_run {m : ℕ} {s₀ : Sys} {es : List OsEvent} (h₀ : Booted N m s₀)
    (hr : ((osLts n ps code timeSlot killall).restrict fun _ e => e.Cleared).Run
      ((.start ps, .start), s₀) es x) : LoadInv ps x.1.1 ∧ ∃ M, ProgInv N code x M := by
  have hinit : SimInv n ps (.start ps) .start ∧ LoadInv ps (.start ps) ∧
      ∃ M, ProgInv N code ((.start ps, .start), s₀) M :=
    ⟨SimInv.start, LoadInv.start, _, ProgInv.start h₀⟩
  refine (hr.invariant (I := fun x => SimInv n ps x.1.1 x.1.2 ∧ LoadInv ps x.1.1 ∧
    ∃ M, ProgInv N code x M) ?_ hinit).2
  rintro ⟨⟨v, j⟩, s⟩ e ⟨⟨w, j'⟩, s'⟩ ⟨hi, hl, M, hp⟩ ⟨hs, he⟩
  obtain ⟨hsim, rfl⟩ := hs.sim.1
  exact ⟨hi.step hsim, hl.step hi.ld.timer hsim,
    hp.step hM hfpn hcode hroom hi.exclusive hl hs he⟩

end

/-! ### Every schedule -/

/-- The next instruction of each process that has not finished returns, with the result that it has
where the program runs alone; and a process finishes at the end of its program. -/
structure Computes (code : Pcb → List Inst) (killall : Ctx → ScRegs → Exec (ℤ × Ctx))
    (x : OsState) : Prop where
  next : ∀ proc, Running x proc → ∃ pr, x.2.procs proc.pid = some pr ∧
    ∀ data₀, ∃ st val c, BtlOs.run killall (code proc) (x.1.1.2.pc proc) (x.2.ctx pr) data₀ =
        .ok (st, val, nextPc (code proc) (x.1.1.2.pc proc), c) ∧
      ∀ ins, (code proc)[x.1.1.2.pc proc]? = some ins →
        ins.Returns (blocksAt (code proc) (x.1.1.2.pc proc)) st val
  ended : ∀ proc ∈ x.1.1.2.cpus.finished, x.1.1.2.pc proc = (code proc).length

/-- **Programs compute what they compute alone**, for any number of CPUs and processes, every time
slot and every interleaving, where the RAM holds what the programs ask for. -/
theorem programs_compute [PageLaws] [PteLaws] {m : ℕ} {s₀ : Sys} {es : List OsEvent}
    (hM : N ≤ pagingMaxPgn) (hfpn : FpnFits N) (h₀ : Booted N m s₀)
    (hcode : ∀ proc ∈ pcbs ps, WellBehaved (code proc))
    (hroom : ((pcbs ps).map fun proc => demand (code proc) (code proc).length).sum ≤ N)
    (hr : ((osLts n ps code timeSlot killall).restrict fun _ e => e.Cleared).Run
      ((.start ps, .start), s₀) es x) : Computes code killall x := by
  obtain ⟨hl, M, hi⟩ := ProgInv.of_run hM hfpn hcode hroom h₀ hr
  refine ⟨fun proc hproc => ?_, hi.ended⟩
  obtain ⟨pr, hp⟩ := hi.procs proc hproc
  refine ⟨pr, hp, fun data₀ => ?_⟩
  obtain ⟨st, val, c, hrun, _, hret, _⟩ := hi.run hl hM hfpn hcode hroom hproc hp killall data₀
  exact ⟨st, val, c, hrun, hret⟩

/-! ### Computed steps -/

instance : DecidablePred SimEvent.NoMemory
  | .add _ | .cpu (.run _) | .cpu (.finish _) | .cpu (.killall _ _) => .isFalse id
  | .timer _ | .loader _ | .loaded | .enter _ | .ret _ | .detach _ => .isTrue trivial
  | .cpu .load | .cpu .loaded | .cpu (.get _) | .cpu (.put _) | .cpu (.keep _)
  | .cpu (.reload _) | .cpu (.stop _) | .cpu (.wait _) | .cpu (.ret _) => .isTrue trivial

/-- The step that an event is. -/
def OsState.next (n : ℕ) (ps : List LdProcess) (code : Pcb → List Inst) (timeSlot : ℤ)
    (killall : Ctx → ScRegs → Exec (ℤ × Ctx)) (x : OsState) (e : OsEvent) : Option OsState :=
  (Lts.nextGhost (SimState.next n ps (fun proc => (code proc).length) timeSlot) nextJournal x.1
    e.sim).bind fun y =>
      match e with
      | .add _ mm₀ pgd₀ activeMswpId => x.1.1.2.toLoad.head?.map fun proc => (y, { x.2 with
          procs := Function.update x.2.procs proc.pid (some ⟨initMm mm₀ pgd₀, activeMswpId⟩) })
      | .exec cpu data₀ st val => (x.1.1.2.cpus.held cpu).bind fun proc =>
          (x.2.procs proc.pid).bind fun pr =>
            match run killall (code proc) (x.1.1.2.pc proc) (x.2.ctx pr) data₀ with
            | .error _ => none
            | .ok (st', val', _, c) =>
                if st' = st ∧ val' = val then some (y, x.2.commit proc.pid c) else none
      | .finish cpu => (x.1.1.2.cpus.held cpu).map fun proc =>
          (y, { x.2 with procs := Function.update x.2.procs proc.pid none })
      | .other e => if e.NoMemory then some (y, x.2) else none

theorem osStep_of_next (x : OsState) (e : OsEvent) (y : OsState)
    (h : x.next n ps code timeSlot killall e = some y) : OsStep n ps code timeSlot killall x e y := by
  obtain ⟨z, hz, hrest⟩ := Option.bind_eq_some_iff.mp h
  have hsim := Lts.withGhost_of_nextGhost simStep_of_next _ _ _ hz
  cases e with
  | add line mm₀ pgd₀ activeMswpId =>
      obtain ⟨proc, hhead, rfl⟩ := Option.map_eq_some_iff.mp hrest
      exact .add hhead hsim
  | exec cpu data₀ st val =>
      obtain ⟨proc, hheld, hproc⟩ := Option.bind_eq_some_iff.mp hrest
      obtain ⟨pr, hp, hres⟩ := Option.bind_eq_some_iff.mp hproc
      split at hres
      · cases hres
      · rename_i st' val' pc c hrun
        split_ifs at hres with hv
        obtain ⟨rfl, rfl⟩ := hv
        obtain rfl := Option.some.inj hres
        exact .exec hheld hp hrun hsim
  | finish cpu =>
      obtain ⟨proc, hheld, rfl⟩ := Option.map_eq_some_iff.mp hrest
      exact .finish hheld hsim
  | other e =>
      obtain ⟨hno, hres⟩ := Option.ite_none_right_eq_some.mp hrest
      obtain rfl := Option.some.inj hres
      exact .other hno hsim

end model

/-- A process that writes a byte and reads it. -/
def oneProgram : List Inst := [⟨.alloc, 10, 1, 0, 0⟩, ⟨.write, 7, 1, 3, 0⟩, ⟨.read, 1, 3, 0, 0⟩]

/-- The first slot, in which it is added and allocates its region. -/
def oneSlot : List OsEvent :=
  [.other (.loader .load), .other (.loader .test)] ++
    oneLine.map (.add · blankMm (fun _ => 0) 0) ++ [.other (.cpu (.get 0)), .exec 0 0 0 none]

theorem programs_compute_sample : ∃ x,
    ((@osLts header22 sched22 1 oneLine (fun _ => oneProgram) 1 fun c _ => .ok (0, c)).restrict
      fun _ e => @OsEvent.Cleared header22 e).Run
        ((@SimState.start sched22 oneLine, Journal.start), boot22) oneSlot x ∧
      @Computes header22 sched22 (fun _ => oneProgram) (fun c _ => .ok (0, c)) x := by
  let := header22
  let := sched22
  let := header22_pageLaws
  let := header22_pteLaws
  have hsome : ((Lts.replay (OsState.next 1 oneLine (fun _ => oneProgram) 1
      fun c _ => .ok (0, c)) ((SimState.start oneLine, Journal.start), boot22) oneSlot).any
        fun _ => true) = true := by
    decide +kernel
  obtain ⟨x, hs, _⟩ := (Option.any_eq_true _ _).mp hsome
  have hclear : ∀ e ∈ oneSlot, e.Cleared := by
    simp [oneSlot, oneLine, OsEvent.Cleared, blankMm, VmRg.Empty]
  have hrun : (osLts 1 oneLine (fun _ => oneProgram) 1 fun c _ => .ok (0, c)).Run
      ((SimState.start oneLine, Journal.start), boot22) oneSlot x :=
    Lts.Run.of_replay osStep_of_next hs
  have hrun := hrun.restrict hclear
  have hwell : WellBehaved oneProgram := by
    intro k ins hk
    rcases k with _ | _ | _ | k
    · obtain rfl := Option.some.inj hk
      exact ⟨by decide, by decide⟩
    · obtain rfl := Option.some.inj hk
      exact ⟨by decide, _, rfl, by decide⟩
    · obtain rfl := Option.some.inj hk
      exact ⟨by decide, _, rfl, by decide⟩
    · cases hk
  exact ⟨x, hrun, programs_compute (by decide) (by decide) booted_boot22 (fun _ _ => hwell)
    (by decide) hrun⟩

end BtlOs
