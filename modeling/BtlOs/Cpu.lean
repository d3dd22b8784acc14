import BtlOs.System

/-! # The processor (`cpu.c`, `libstd.c`, `syscall.c`)

One instruction of a process.  `run` works on a copy `ins` of the instruction, so what a `READ`
stores in `ins.arg_2` is seen nowhere else; here it is the value that `run` returns beside its
status.

System call 101 searches the queues of the scheduler and is a parameter of this module. -/

namespace BtlOs

open CLang Header

/-- `enum ins_opcode_t`, with `calculate` for `CALC`; `other` is every value without a case. -/
inductive Opcode where
  | calculate
  | alloc
  | free
  | read
  | write
  | syscall
  | other
deriving DecidableEq, Repr

/-- `struct inst_t`: the operands are `uint32_t`. -/
structure Inst where
  opcode : Opcode
  arg0 : ℕ
  arg1 : ℕ
  arg2 : ℕ
  arg3 : ℕ
deriving DecidableEq, Repr

variable [Header]

/-- `calc`: the bits of a pointer masked with `0UL`. -/
def calculate : ℤ := 0

section syscalls

variable (killall : Ctx → ScRegs → Exec (ℤ × Ctx))

/-- `syscall`: the dispatch that `syscalltbl.lst` expands to. -/
def syscall (caller : Ctx) (nr : ℕ) (regs : ScRegs) : Exec (ℤ × Ctx) :=
  if nr = 0 then .ok (0, caller)  -- `__sys_listsyscall` prints the table
  else if nr = 17 then do
    let (st, _, caller) ← sysMemmap caller regs
    .ok (st, caller)
  else if nr = 101 then killall caller regs
  else if nr = 440 then .ok (0, caller)  -- `__sys_xxxhandler` prints `regs->a1`
  else .ok (0, caller)  -- `__sys_ni_syscall`

/-- `libsyscall`: the registers are a local, so only the status comes back. -/
def libsyscall (caller : Ctx) (syscallIdx a1 a2 a3 : ℕ) : Exec (ℤ × Ctx) :=
  syscall killall caller syscallIdx ⟨a1, a2, a3⟩

/-- The `switch` of `run`: the status and, for a `READ`, the value stored in `ins.arg_2`.
`data₀` is what the local `data` of `libread` held before. -/
def exec (proc : Ctx) (ins : Inst) (data₀ : Byte) : Exec (ℤ × Option ℕ × Ctx) :=
  match ins.opcode with
  | .calculate => .ok (calculate, none, proc)
  | .alloc => do
      let (stat, proc) ← liballoc proc ins.arg0 ins.arg1
      .ok (stat, none, proc)
  | .free => do
      let (stat, proc) ← libfree proc ins.arg0
      .ok (stat, none, proc)
  | .read => do
      let (stat, arg2, proc) ← libread proc ins.arg0 ins.arg1 data₀
      .ok (stat, some arg2, proc)
  | .write => do
      let (stat, proc) ← libwrite proc (uint32ToByte ins.arg0) ins.arg1 ins.arg2
      .ok (stat, none, proc)
  | .syscall => do
      let (stat, proc) ← libsyscall killall proc ins.arg0 ins.arg1 ins.arg2 ins.arg3
      .ok (stat, none, proc)
  | .other => .ok (1, none, proc)

/-- `run`: the status, the value read, the new `pc` and what the instruction leaves. -/
def run (code : List Inst) (pc : ℕ) (proc : Ctx) (data₀ : Byte) :
    Exec (ℤ × Option ℕ × ℕ × Ctx) :=
  match code[pc]? with
  | none => .ok (1, none, pc, proc)  -- `pc >= code->size`
  | some ins => do
      let (stat, arg2, proc) ← exec killall proc ins data₀
      .ok (stat, arg2, pc + 1, proc)

end syscalls

/-! ### The instructions as calls of the memory system -/

/-- The memory call that an instruction makes. -/
def Inst.call (ins : Inst) (data₀ : Byte) : Option Call :=
  match ins.opcode with
  | .alloc => some (.alloc ins.arg0 ins.arg1)
  | .free => some (.free ins.arg0)
  | .read => some (.read ins.arg0 ins.arg1 data₀)
  | .write => some (.write (uint32ToByte ins.arg0) ins.arg1 ins.arg2)
  | .syscall => if ins.arg0 = 17 then some (.memmap ⟨ins.arg1, ins.arg2, ins.arg3⟩) else none
  | _ => none

/-- The instruction is a system call 101. -/
def Inst.Killall (ins : Inst) : Prop := ins.opcode = .syscall ∧ ins.arg0 = 101

/-- An instruction other than system call 101 is a call of the memory system or changes
nothing. -/
theorem exec_eq (killall : Ctx → ScRegs → Exec (ℤ × Ctx)) {ins : Inst} (hins : ¬ ins.Killall)
    (data₀ : Byte) : (∃ cl, ins.call data₀ = some cl ∧
      ∀ c : Ctx, exec killall c ins data₀ = c.call cl) ∨
    ins.call data₀ = none ∧ ∃ stat, ∀ c : Ctx, exec killall c ins data₀ = .ok (stat, none, c) := by
  obtain ⟨opcode, arg0, arg1, arg2, arg3⟩ := ins
  cases opcode with
  | calculate => exact .inr ⟨rfl, calculate, fun _ => rfl⟩
  | alloc => exact .inl ⟨_, rfl, fun _ => rfl⟩
  | free => exact .inl ⟨_, rfl, fun _ => rfl⟩
  | read => exact .inl ⟨_, rfl, fun _ => rfl⟩
  | write => exact .inl ⟨_, rfl, fun _ => rfl⟩
  | other => exact .inr ⟨rfl, 1, fun _ => rfl⟩
  | syscall =>
      have h101 : arg0 ≠ 101 := fun h => hins ⟨rfl, h⟩
      by_cases h17 : arg0 = 17
      · subst h17
        refine .inl ⟨.memmap ⟨arg1, arg2, arg3⟩, rfl, fun c => ?_⟩
        simp only [exec, libsyscall, syscall, Ctx.call]
        rcases sysMemmap c ⟨arg1, arg2, arg3⟩ with _ | ⟨st, regs, c'⟩ <;> rfl
      · refine .inr ⟨by simp [Inst.call, h17], 0, fun c => ?_⟩
        simp only [exec, libsyscall, syscall, h17, h101, if_false]
        split_ifs <;> rfl

end BtlOs
