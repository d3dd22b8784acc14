import BtlOs.Cpu
import BtlOs.Access
import BtlOs.Allocation

/-! # The result of a `READ` (`run`, `libread`, `read` of `cpu.c`)

The process with its registers.  `run` passes `libread` a pointer into `ins`, which is a copy of
the instruction, so the byte that was read is dropped when `run` returns; the path without paging
stores it in `regs[destination]`. -/

namespace BtlOs

open CLang Header

variable [Header]

/-- What `run` reads and writes of a process. -/
structure Proc where
  regs : ℕ → ℕ
  code : List Inst
  pc : ℕ
  mem : Ctx

/-- `run` with paging: the text is read only, and no path writes a register. -/
def Proc.run (killall : Ctx → ScRegs → Exec (ℤ × Ctx)) (s : Proc) (data₀ : Byte) :
    Exec (ℤ × Proc) := do
  let (stat, _, pc, mem) ← BtlOs.run killall s.code s.pc s.mem data₀
  .ok (stat, { s with pc, mem })

/-- `read` of `cpu.c`, the path without paging, where `readMem` gives the byte if it succeeds.  `read`
takes a status other than 0 for a success, but `read_mem` of `mem.c` returns 0 then: with that
function the two branches are exchanged. -/
def cpuRead (readMem : ℕ → Option Byte) (regs : ℕ → ℕ) (source offset destination : ℕ) :
    ℤ × (ℕ → ℕ) :=
  match readMem (regs source + offset) with
  | some data => (0, Function.update regs destination (byteToUint32 data))
  | none => (1, regs)

/-- The registers are those that `read` leaves where `read_mem` gives the byte `b`, and nothing else
of the process but its `pc` and its memory changed. -/
def DeliversByte (s : Proc) (ins : Inst) (b : Byte) (s' : Proc) : Prop :=
  s'.regs = (cpuRead (fun _ => some b) s.regs ins.arg0 ins.arg1 ins.arg2).2 ∧
    s'.code = s.code ∧ s'.pc = s.pc + 1

/-- The byte that is stored at the region and the offset is delivered. -/
def ReadDelivers (s : Proc) (ins : Inst) (s' : Proc) : Prop :=
  ∃ b, s'.mem.byteAt (s.mem.addr ins.arg0 ins.arg1) = some b ∧ DeliversByte s ins b s'

/-- The register holds the byte that is stored at the region and the offset. -/
def HoldsByte (regs : ℕ → ℕ) (byte : Option Byte) (destination : ℕ) : Prop :=
  byte.map byteToUint32 = some (regs destination)

variable {killall : Ctx → ScRegs → Exec (ℤ × Ctx)} {s s' : Proc} {data₀ : Byte} {stat : ℤ}

/-- No instruction changes a register or the text. -/
theorem Proc.run_regs (h : s.run killall data₀ = .ok (stat, s')) :
    s'.regs = s.regs ∧ s'.code = s.code := by
  obtain ⟨⟨st, arg2, pc, mem⟩, _, h⟩ := bind_eq_ok.mp h
  obtain ⟨_, rfl⟩ := Prod.mk.inj (Except.ok.inj h)
  exact ⟨rfl, rfl⟩

theorem Proc.run_read {ins : Inst} (hins : s.code[s.pc]? = some ins) (hop : ins.opcode = .read)
    (h : s.run killall data₀ = .ok (stat, s')) :
    s'.pc = s.pc + 1 ∧ ∃ val, libread s.mem ins.arg0 ins.arg1 data₀ = .ok (stat, val, s'.mem) := by
  obtain ⟨⟨st, arg2, pc, mem⟩, hrun, h⟩ := bind_eq_ok.mp h
  obtain ⟨rfl, rfl⟩ := Prod.mk.inj (Except.ok.inj h)
  unfold BtlOs.run at hrun
  simp only [hins] at hrun
  obtain ⟨⟨st', arg2', mem'⟩, hexec, hret⟩ := bind_eq_ok.mp hrun
  obtain ⟨hst, hret⟩ := Prod.mk.inj (Except.ok.inj hret)
  obtain ⟨_, hret⟩ := Prod.mk.inj hret
  obtain ⟨hpc, hmem⟩ := Prod.mk.inj hret
  unfold exec at hexec
  simp only [hop] at hexec
  obtain ⟨⟨st₁, val, mem₁⟩, hread, hexec⟩ := bind_eq_ok.mp hexec
  obtain ⟨hst₁, hexec⟩ := Prod.mk.inj (Except.ok.inj hexec)
  obtain ⟨_, hmem₁⟩ := Prod.mk.inj hexec
  subst hst hmem hst₁ hmem₁
  exact ⟨hpc.symm, val, hread⟩

/-- A successful read of a page that the page table gives does not move it. -/
theorem libread_byteAt {c c' : Ctx} {source offset val : ℕ}
    (h : libread c source offset data₀ = .ok (0, val, c'))
    (hp : pagingPagePresent (c.mm.pgd (pagingPgn (c.addr source offset))) = true) :
    c'.byteAt (c.addr source offset) = c.byteAt (c.addr source offset) := by
  obtain ⟨_, hread, _⟩ := libread_eq_ok h
  obtain ⟨_, hcases⟩ := read_ok hread
  cases hcases with
  | inl hfail => exact absurd hfail.1 (by decide)
  | inr hok =>
      obtain ⟨_, _, r, hstep, _⟩ := hok
      cases hstep with
      | hit _ => rfl
      | full hno _ _ => exact absurd (hp.symm.trans hno) (by decide)
      | evict hno _ _ _ _ => exact absurd (hp.symm.trans hno) (by decide)

theorem deliversByte_iff {ins : Inst} (hins : s.code[s.pc]? = some ins) (hop : ins.opcode = .read)
    (h : s.run killall data₀ = .ok (stat, s')) (b : Byte) :
    DeliversByte s ins b s' ↔ s.regs ins.arg2 = byteToUint32 b := by
  obtain ⟨hregs, hcode⟩ := Proc.run_regs h
  obtain ⟨hpc, _⟩ := Proc.run_read hins hop h
  have hread : (cpuRead (fun _ => some b) s.regs ins.arg0 ins.arg1 ins.arg2).2 =
      Function.update s.regs ins.arg2 (byteToUint32 b) := rfl
  unfold DeliversByte
  rw [hregs, hread, eq_comm, Function.update_eq_self_iff]
  constructor
  · rintro ⟨hval, _⟩
    exact hval.symm
  · intro hval
    exact ⟨hval.symm, hcode, hpc⟩

theorem readDelivers_iff {ins : Inst} (hins : s.code[s.pc]? = some ins) (hop : ins.opcode = .read)
    (h : s.run killall data₀ = .ok (stat, s')) : ReadDelivers s ins s' ↔
      HoldsByte s.regs (s'.mem.byteAt (s.mem.addr ins.arg0 ins.arg1)) ins.arg2 := by
  unfold ReadDelivers HoldsByte
  simp only [deliversByte_iff hins hop h, Option.map_eq_some_iff, eq_comm]

/-- **When a `READ` delivers its result**: a byte, whatever it is, exactly where the register held
it before; so, on a page of the page table, the stored byte where the register held that one. -/
theorem read_delivers_iff {ins : Inst} (hins : s.code[s.pc]? = some ins) (hop : ins.opcode = .read)
    (h : s.run killall data₀ = .ok (0, s')) :
    (∀ b, DeliversByte s ins b s' ↔ s.regs ins.arg2 = byteToUint32 b) ∧
    (pagingPagePresent (s.mem.mm.pgd (pagingPgn (s.mem.addr ins.arg0 ins.arg1))) = true →
      (ReadDelivers s ins s' ↔
        HoldsByte s.regs (s.mem.byteAt (s.mem.addr ins.arg0 ins.arg1)) ins.arg2)) := by
  refine ⟨deliversByte_iff hins hop h, fun hp => ?_⟩
  obtain ⟨_, val, hread⟩ := Proc.run_read hins hop h
  rw [readDelivers_iff hins hop h, libread_byteAt hread hp]

omit [Header] in
theorem read_seven (regs : ℕ → ℕ) : ∃ s s' : Proc, s.regs = regs ∧ s.pc = 0 ∧
    s.code = [⟨.read, 0, 0, 1, 0⟩] ∧
      @Proc.run header22 (fun c _ => .ok (0, c)) s 0 = .ok (0, s') ∧
      @Ctx.byteAt header22 s'.mem (s.mem.addr 0 0) = some 7 := by
  let := header22
  have hsome : (do
      let r₁ ← liballoc blankCtx 256 0
      let r₂ ← libwrite r₁.2 7 0 0
      let r₃ ← libread r₂.2 0 0 0
      Except.ok (r₂.2, r₃) : Exec (Ctx × ℤ × ℕ × Ctx)).toOption.any (fun r =>
        r.2.1 = 0 ∧ r.2.2.2.byteAt (r.1.addr 0 0) = some 7) = true := by
    decide +kernel
  obtain ⟨r, hr, hprop⟩ := exists_ok_of_any hsome
  obtain ⟨hstat, hbyte⟩ := of_decide_eq_true hprop
  obtain ⟨⟨_, c₁⟩, _, h₁⟩ := bind_eq_ok.mp hr
  obtain ⟨⟨_, c₂⟩, _, h₂⟩ := bind_eq_ok.mp h₁
  obtain ⟨⟨stat, val, c₃⟩, hread, h₃⟩ := bind_eq_ok.mp h₂
  obtain rfl := Except.ok.inj h₃
  obtain rfl : stat = 0 := hstat
  refine ⟨⟨regs, [⟨.read, 0, 0, 1, 0⟩], 0, c₂⟩, ⟨regs, [⟨.read, 0, 0, 1, 0⟩], 1, c₃⟩, rfl, rfl,
    rfl, ?_, hbyte⟩
  have hexec : exec (fun c _ => .ok (0, c)) c₂ ⟨.read, 0, 0, 1, 0⟩ 0 = .ok (0, some val, c₃) := by
    show (libread c₂ 0 0 0 >>= _) = _
    rw [hread]
    rfl
  show (BtlOs.run _ [⟨.read, 0, 0, 1, 0⟩] 0 c₂ 0 >>= _) = _
  rw [show BtlOs.run (fun c _ => .ok (0, c)) [⟨.read, 0, 0, 1, 0⟩] 0 c₂ 0 =
    .ok (0, some val, 1, c₃) by
      show (exec _ c₂ ⟨.read, 0, 0, 1, 0⟩ 0 >>= _) = _
      rw [hexec]
      rfl]
  rfl

omit [Header] in
theorem read_delivers_iff_sample : ∃ s s' : Proc,
    @Proc.run header22 (fun c _ => .ok (0, c)) s 0 = .ok (0, s') ∧
      @ReadDelivers header22 s ⟨.read, 0, 0, 1, 0⟩ s' := by
  let := header22
  obtain ⟨s, s', hregs, hpc, hcode, hrun, hbyte⟩ := read_seven fun _ => 7
  have hins : s.code[s.pc]? = some ⟨.read, 0, 0, 1, 0⟩ := by
    rw [hcode, hpc]
    rfl
  refine ⟨s, s', hrun, 7, hbyte, ((read_delivers_iff hins rfl hrun).1 7).mpr ?_⟩
  rw [hregs]
  decide

omit [Header] in
/-- Register 1 stays 0. -/
theorem not_read_delivers : ∃ s s' : Proc, ∃ ins,
    s.code[s.pc]? = some ins ∧ ins.opcode = .read ∧
      @Proc.run header22 (fun c _ => .ok (0, c)) s 0 = .ok (0, s') ∧
      @Ctx.byteAt header22 s'.mem (s.mem.addr ins.arg0 ins.arg1) = some 7 ∧
      ¬ @ReadDelivers header22 s ins s' := by
  let := header22
  obtain ⟨s, s', hregs, hpc, hcode, hrun, hbyte⟩ := read_seven fun _ => 0
  have hins : s.code[s.pc]? = some ⟨.read, 0, 0, 1, 0⟩ := by
    rw [hcode, hpc]
    rfl
  refine ⟨s, s', ⟨.read, 0, 0, 1, 0⟩, hins, rfl, hrun, hbyte, fun hright => ?_⟩
  have hholds := (readDelivers_iff hins rfl hrun).mp hright
  unfold HoldsByte at hholds
  rw [hbyte, hregs] at hholds
  exact absurd hholds (by decide)

end BtlOs
