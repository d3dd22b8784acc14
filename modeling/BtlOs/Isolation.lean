import BtlOs.Swap
import BtlOs.Agree
import BtlOs.Cpu

/-! # What a process can do to another one

`Isolated`: after an instruction of process `p` the page table and all bytes of the frames of
process `q` are as before.  The instruction is also blind to these bytes: on a machine that differs
from this one in them alone it has the same outcome.

System call 17 hands the operations of the kernel to the programs as they are, so a program may
write to any byte of the RAM and copy any RAM frame over any swap frame.  These two operations
apart, an instruction moves only bytes of frames of its own process and of the swap frames
involved in a replacement.  A page that was never swapped out is loaded from swap frame 0,
whoever owns it (`pagingPteSwp_zero`); this is the only frame of another process that an
instruction may see. -/

namespace BtlOs

open CLang BitField Header TokenPool Table

section

variable [Header]

/-! ### Frames in bytes -/

/-- The byte `a` lies in a frame that a page of process `q` holds. -/
def Sys.Holds (f : Mm → ℕ → Option ℕ) (s : Sys) (q a : ℕ) : Prop :=
  ∃ g, s.own f (q, g) = some (a / pagingPagesz)

/-- What remains in view when the bytes of process `q` are hidden.  Swap frame 0 stays in view of
an instruction that loads a page. -/
def Sys.others (s : Sys) (q : ℕ) (loads : Prop) : Dev → ℕ → Prop
  | .mram, a => ¬ s.Holds residentFrame q a
  | .mswp, a => s.Holds swpFrame q a → loads ∧ a / pagingPagesz = 0

/-- Nothing of process `q` has changed. -/
structure Isolated (s : Sys) (p q : ℕ) (c : Ctx) : Prop where
  proc : (s.commit p c).procs q = s.procs q
  ram : ∀ a, s.Holds residentFrame q a → c.dev.mram.storage a = s.dev.mram.storage a
  swp : ∀ a, s.Holds swpFrame q a → c.dev.mswp.storage a = s.dev.mswp.storage a

section addresses

variable {n fpn j : ℕ}

theorem frame_div (fpn : ℕ) (hj : j < pagingPagesz) :
    (fpn * pagingPagesz + j) / pagingPagesz = fpn := by
  rw [Nat.add_comm, Nat.add_mul_div_right _ _ (by omega), Nat.div_eq_of_lt hj, Nat.zero_add]

theorem frame_addr (hn : n * pagingPagesz < 2 ^ 31) (hfpn : fpn < n) (hj : j < pagingPagesz) :
    fpn * pagingPagesz + j < 2 ^ 31 ∧ (fpn * pagingPagesz + j) / pagingPagesz = fpn := by
  have hle : (fpn + 1) * pagingPagesz ≤ n * pagingPagesz := Nat.mul_le_mul_right _ hfpn
  rw [Nat.succ_mul] at hle
  exact ⟨by omega, frame_div fpn hj⟩

theorem cellAddr_eq (hn : n * pagingPagesz < 2 ^ 31) (hfpn : fpn < n) (hj : j < pagingPagesz) :
    cellAddr fpn j = (fpn * pagingPagesz + j : ℕ) := by
  obtain ⟨hlt, _⟩ := frame_addr hn hfpn hj
  unfold cellAddr
  have e : ((fpn : ℤ) * (pagingPagesz : ℤ)) = ((fpn * pagingPagesz : ℕ) : ℤ) := by push_cast; rfl
  rw [e, int32_natCast (by omega), ← Nat.cast_add, int32_natCast hlt]

theorem phyAddr_eq (hn : n * pagingPagesz < 2 ^ 31) (hfpn : fpn < n) (hj : j < pagingPagesz) :
    phyAddr fpn j = (fpn * pagingPagesz + j : ℕ) := cellAddr_eq hn hfpn hj

theorem cellAddr_div (hn : n * pagingPagesz < 2 ^ 31) (hfpn : fpn < n) (hj : j < pagingPagesz) :
    (cellAddr fpn j).toNat / pagingPagesz = fpn := by
  rw [cellAddr_eq hn hfpn hj, Int.toNat_natCast]
  exact (frame_addr hn hfpn hj).2

theorem int32_fpn (hn : n * pagingPagesz < 2 ^ 31) (hfpn : fpn < n) (hp : 0 < pagingPagesz) :
    int32 fpn = fpn := by
  have h := (frame_addr hn hfpn hp).1
  have hle := Nat.le_mul_of_pos_right fpn hp
  exact int32_natCast (by omega)

end addresses

/-! ### Whose frames an instruction moves -/

section moves

variable {n m : ℕ} {s : Sys} {p q : ℕ} {pr : Process} {c : Ctx}

/-- A frame of process `p` is no frame of process `q`. -/
theorem Owned.not_holds (h : Owned n m s) (hne : p ≠ q) {g fpn a : ℕ}
    (hown : s.own residentFrame (p, g) = some fpn) (ha : a / pagingPagesz = fpn) :
    ¬ s.Holds residentFrame q a := by
  rintro ⟨g', hq⟩
  rw [ha] at hq
  exact hne (congrArg Prod.fst (h.ram.inj hown hq))

/-- A free swap frame is no frame of process `q`. -/
theorem Owned.not_holds_free (h : Owned n m s) {fpn a : ℕ}
    (hfree : fpn ∈ s.dev.mswp.freeFpList) (ha : a / pagingPagesz = fpn) :
    ¬ s.Holds swpFrame q a := by
  rintro ⟨g', hq⟩
  rw [ha] at hq
  exact h.swp.notMem hq hfree

variable [PteLaws]

theorem own_victim (hp : s.procs p = some pr) {vic : ℕ} (hres : Resident (pr.mm.pgd vic)) :
    s.own residentFrame (p, vic) = some (pagingPteFpn (pr.mm.pgd vic)) := by
  rw [own_of_resident hp hres, PteLaws.pagingFpn_eq]

/-- The frame that a page access returns was a frame of the same process before. -/
theorem PageStep.own {g fpn : ℕ} (hs : PageStep (s.ctx pr) g (some fpn) c)
    (hp : s.procs p = some pr) (hsw : pagingPageSwapped (pr.mm.pgd g) = false)
    (hvic : VictimAt (s.ctx pr) g) : ∃ g', s.own residentFrame (p, g') = some fpn := by
  cases hs with
  | hit hpres =>
      exact ⟨g, own_of_resident hp ⟨hpres, hsw⟩⟩
  | @evict vic _ _ _ _ _ hnot hfifo hfree _ _ =>
      refine ⟨vic, ?_⟩
      have hres : Resident (pr.mm.pgd vic) := by
        refine hvic hnot (by simp [hfree]) vic ?_
        rw [hfifo]
        exact List.getLast?_concat
      rw [own_victim hp hres, PteLaws.pagingFpn_eq, evictPgd, Function.update_self,
        pagingPteFpn_pteSetFpn_pagingPteFpn]
      rfl

/-! ### Entries that were never written -/

/-- An entry without `PRESENT` is cleared. -/
def AbsentCleared (s : Sys) : Prop :=
  ∀ p pr g, s.procs p = some pr → pagingPagePresent (pr.mm.pgd g) = false → pr.mm.pgd g = 0

omit [PteLaws] in
/-- A page that was never swapped out is loaded from swap frame 0. -/
theorem pagingPteSwp_zero : pagingPteSwp 0#32 = 0 := by
  simp [pagingPteSwp, getval]

theorem PageStep.pgd_of_absent {c' : Ctx} {g g' : ℕ} {r : Option ℕ} (hs : PageStep c g r c')
    (habs : pagingPagePresent (c'.mm.pgd g') = false) : c'.mm.pgd g' = c.mm.pgd g' := by
  cases hs with
  | hit _ => rfl
  | full _ _ _ => rfl
  | @evict vic swpfpn _ _ _ _ _ _ _ _ _ =>
      by_cases hg : g' = g
      · subst hg
        rw [(resident_evictPgd g').1] at habs
        cases habs
      · simp only [evictPgd_of_ne hg] at habs ⊢
        split_ifs at habs ⊢
        · rw [present_pteSetSwap] at habs
          cases habs
        · rfl

theorem CallStep.pgd_of_absent {c' : Ctx} {cl : Call} {g : ℕ} (hs : CallStep c cl c')
    (habs : pagingPagePresent (c'.mm.pgd g) = false) : c'.mm.pgd g = c.mm.pgd g := by
  cases hs with
  | heap _ _ => rfl
  | grow mmap symrgtbl _ _ =>
      rcases mapPages_cases _ c.mm.pgd _ g with he | ⟨fpn, _, he⟩
      · exact he
      · have hpres := congrArg pagingPagePresent he
        rw [present_pteSetFpn] at hpres
        exact absurd (habs.symm.trans hpres) (by decide)
  | lock _ => rfl
  | access _ hstep => exact hstep.pgd_of_absent habs
  | write _ hstep _ => exact hstep.pgd_of_absent habs
  | swap _ _ => rfl
  | ioWrite _ _ => rfl

theorem AbsentCleared.step {s' : Sys} {e : Event} (h : AbsentCleared s) (hs : MemStep s e s')
    (hclear : Cleared e) : AbsentCleared s' := by
  intro q qr g hq habs
  cases hs with
  | load mm₀ pgd₀ activeMswpId _ =>
      cases update_eq_some.mp hq with
      | inl hq =>
          obtain rfl := Option.some.inj hq.2
          exact hclear g
      | inr hq => exact h q qr g hq.2 habs
  | release _ =>
      cases update_eq_some.mp hq with
      | inl hq => cases hq.2
      | inr hq => exact h q qr g hq.2 habs
  | call hp hc =>
      cases update_eq_some.mp hq with
      | inl hq =>
          obtain rfl := Option.some.inj hq.2
          have he := (callStep_of_ok hc).pgd_of_absent habs
          rw [he] at habs ⊢
          exact h _ _ g hp habs
      | inr hq => exact h q qr g hq.2 habs

/-! ### Confined calls -/

/-- The page accessed, if any, was not swapped out, and a victim is in RAM. -/
def Confined (c : Ctx) (cl : Call) : Prop :=
  ∀ g, c.page cl = some g → pagingPageSwapped (c.mm.pgd g) = false ∧ VictimAt c g

/-- A raw operation of system call 17 names no byte of process `q` as its target. -/
def Spares (s : Sys) (q : ℕ) (cl : Call) : Prop :=
  ∀ regs, cl = .memmap regs →
    (int32 regs.a1 = sysmemIoWrite → ¬ s.Holds residentFrame q (int32 regs.a2).toNat) ∧
    (int32 regs.a1 = sysmemSwpOp → ∀ j < pagingPagesz,
      ¬ s.Holds swpFrame q (cellAddr (int32 regs.a3) j).toNat)

/-- The call loads a page from the swap device. -/
def Loads (c : Ctx) (cl : Call) : Prop :=
  ∃ g, c.page cl = some g ∧ pagingPagePresent (c.mm.pgd g) = false

variable {cl : Call} (h : Owned n m s) (hn : n * pagingPagesz < 2 ^ 31)
  (hm : m * pagingPagesz < 2 ^ 31) (hoffst : ∀ a, pagingOffst a < pagingPagesz)
  (hp : s.procs p = some pr) (hne : p ≠ q) (hc : Confined (s.ctx pr) cl)

include h hn hp hne hc

/-- The bytes of a victim are in a frame of its own process. -/
theorem Owned.own_victim {g vic j : ℕ} (hg : (s.ctx pr).page cl = some g)
    (hnot : pagingPagePresent (pr.mm.pgd g) = false) (hfree : s.dev.mswp.freeFpList ≠ [])
    (hlast : vic ∈ pr.mm.fifoPgn.getLast?) (hj : j < pagingPagesz) :
    pagingPteFpn (pr.mm.pgd vic) < n ∧
      ¬ s.Holds residentFrame q (cellAddr (pagingPteFpn (pr.mm.pgd vic)) j).toNat := by
  have hown := BtlOs.own_victim hp ((hc _ hg).2 hnot hfree vic hlast)
  have hfpn := h.ram_own _ _ hown
  exact ⟨hfpn, h.not_holds hne hown (cellAddr_div hn hfpn hj)⟩

include hoffst

/-- The byte that a call addresses is in a frame of its own process. -/
theorem Owned.own_byte {addr : ℤ} {fpn : ℕ} (hg : (s.ctx pr).page cl = some (pagingPgn addr))
    (hs : PageStep (s.ctx pr) (pagingPgn addr) (some fpn) c) :
    ¬ s.Holds residentFrame q (phyAddr fpn (pagingOffst addr)).toNat := by
  obtain ⟨hsw, hvic⟩ := hc _ hg
  obtain ⟨g', hown⟩ := hs.own hp hsw hvic
  have hfpn := h.ram_own _ _ hown
  refine h.not_holds hne hown ?_
  rw [phyAddr_eq hn hfpn (hoffst addr), Int.toNat_natCast]
  exact (frame_addr hn hfpn (hoffst addr)).2

omit hoffst

include hm

/-- A page access writes to the frame of its own victim and to a free swap frame. -/
theorem Owned.page_isolated {g : ℕ} {r : Option ℕ} (hg : (s.ctx pr).page cl = some g)
    (hs : PageStep (s.ctx pr) g r c) : Isolated s p q c := by
  refine ⟨Function.update_of_ne (Ne.symm hne) _ _, fun a ha => ?_, fun a ha => ?_⟩
  · cases hs with
    | hit _ => rfl
    | full _ _ _ => rfl
    | @evict vic _ rest _ _ _ hnot hfifo hfree _ hram =>
        have hlast : vic ∈ pr.mm.fifoPgn.getLast? := by
          rw [show pr.mm.fifoPgn = rest ++ [vic] from hfifo]
          exact List.getLast?_concat
        apply hram a
        intro j hj he
        refine (h.own_victim hn hp hne hc hg hnot (hfree ▸ List.cons_ne_nil _ _) hlast hj).2 ?_
        rwa [show cellAddr (pagingPteFpn (pr.mm.pgd vic)) j = a from he, Int.toNat_natCast]
  · cases hs with
    | hit _ => rfl
    | full _ _ _ => rfl
    | @evict _ swpfpn _ _ _ _ hnot hfifo hfree hswp _ =>
        apply hswp a
        intro j hj he
        have hmem : swpfpn ∈ s.dev.mswp.freeFpList := hfree ▸ List.mem_cons_self
        have hlt := h.swp_free _ hmem
        rw [int32_fpn hm hlt (by omega)] at he
        have hdiv := cellAddr_div hm hlt hj
        rw [he, Int.toNat_natCast] at hdiv
        exact h.not_holds_free hmem hdiv ha

include hoffst

/-- A confined call that spares another process changes nothing of it. -/
theorem Owned.isolated (hsp : Spares s q cl) (hs : CallStep (s.ctx pr) cl c) :
    Isolated s p q c := by
  have hproc : ∀ c, (s.commit p c).procs q = s.procs q :=
    fun c => Function.update_of_ne (Ne.symm hne) _ _
  cases hs with
  | heap _ _ => exact ⟨hproc _, fun _ _ => rfl, fun _ _ => rfl⟩
  | grow _ _ _ _ => exact ⟨hproc _, fun _ _ => rfl, fun _ _ => rfl⟩
  | lock _ => exact ⟨hproc _, fun _ _ => rfl, fun _ _ => rfl⟩
  | access hg hstep => exact h.page_isolated hn hm hp hne hc hg hstep
  | write hg hstep _ =>
      have hpage := h.page_isolated hn hm hp hne hc hg hstep
      refine ⟨hproc _, fun a ha => ?_, hpage.swp⟩
      have hown := h.own_byte hn hoffst hp hne hc hg hstep
      rw [← hpage.ram a ha, Ctx.poke_storage]
      refine Function.update_of_ne (fun he => ?_) _ _
      rw [he] at ha
      exact hown ha
  | swap hop hst =>
      refine ⟨hproc _, fun _ _ => rfl, fun a ha => hst a fun j hj he => ?_⟩
      refine (hsp _ rfl).2 hop j hj ?_
      rwa [he, Int.toNat_natCast]
  | ioWrite hop _ =>
      refine ⟨hproc _, fun a ha => ?_, fun _ _ => rfl⟩
      rw [Ctx.poke_storage]
      refine Function.update_of_ne (fun he => ?_) _ _
      rw [he] at ha
      exact (hsp _ rfl).1 hop ha

/-- A confined page access copies and reads no byte of another process, but for swap frame 0. -/
theorem Owned.inView (hz : AbsentCleared s) {loads : Prop} (hl : Loads (s.ctx pr) cl → loads)
    {g : ℕ} (hg : (s.ctx pr).page cl = some g) : CallInView (s.others q loads) (s.ctx pr) cl := by
  refine ⟨fun g hg => ⟨fun hnot hfree vic hlast j hj => ?_, fun hnot hfree j hj _ => ?_⟩,
    fun source offset data₀ g hcl hg fpn c₁ hs => ?_, fun regs hcl _ => ?_⟩
  · obtain ⟨hfpn, hown⟩ := h.own_victim hn hp hne hc hg hnot hfree hlast hj
    have he : int32 (pagingPteFpn ((s.ctx pr).mm.pgd vic)) = pagingPteFpn (pr.mm.pgd vic) :=
      int32_fpn hn hfpn (by omega)
    rw [he]
    exact hown
  · obtain ⟨fpn, hmem⟩ := List.exists_mem_of_ne_nil _ hfree
    have hpos : 0 < m := Nat.zero_lt_of_lt (h.swp_free fpn hmem)
    have he : pagingPteSwp ((s.ctx pr).mm.pgd g) = 0 := by
      rw [show (s.ctx pr).mm.pgd g = 0 from hz p pr g hp hnot]
      exact pagingPteSwp_zero
    rw [he]
    exact ⟨hl ⟨g, hg, hnot⟩, cellAddr_div hm hpos hj⟩
  · subst hcl
    obtain rfl := Ctx.page_read_some hg
    exact h.own_byte hn hoffst hp hne hc hg hs
  · subst hcl
    cases hg

/-- On a machine that differs in the bytes of another process, a confined call has the same
result. -/
theorem Owned.sameResult (hz : AbsentCleared s) {loads : Prop}
    (hl : Loads (s.ctx pr) cl → loads) {c' : Ctx}
    (hagree : (s.ctx pr).Agree (s.others q loads) c') :
    Both (fun x y => y.1 = x.1 ∧ y.2.1 = x.2.1 ∧ y.2.2.mm = x.2.2.mm) ((s.ctx pr).call cl)
      (c'.call cl) := by
  have hcall : ∃ V, (s.ctx pr).Agree V c' ∧ CallInView V (s.ctx pr) cl := by
    cases hg : (s.ctx pr).page cl with
    | some g => exact ⟨_, hagree, h.inView hn hm hoffst hp hne hc hz hl hg⟩
    | none =>
        -- no byte has to be in view of a call that accesses no page
        refine ⟨fun _ _ => False, hagree.mono fun _ _ => False.elim, ?_, ?_, ?_⟩
        · intro g hg'
          rw [hg] at hg'
          cases hg'
        · intro _ _ _ g _ hg'
          rw [hg] at hg'
          cases hg'
        · exact fun _ _ _ _ _ => False.elim
  obtain ⟨V, hV, hview⟩ := hcall
  exact (hV.call hview).mono fun x y _ hxy => ⟨hxy.1, hxy.2.1, hxy.2.2.mm⟩

end moves

/-! ### Instructions -/

/-- The instruction is not system call 101, and its page access is confined. -/
structure Inst.Confined (c : Ctx) (ins : Inst) : Prop where
  killall : ¬ ins.Killall
  call : ∀ data₀ cl, ins.call data₀ = some cl → BtlOs.Confined c cl

def Inst.Spares (s : Sys) (q : ℕ) (ins : Inst) : Prop :=
  ∀ data₀ cl, ins.call data₀ = some cl → BtlOs.Spares s q cl

/-- The instruction loads a page from the swap device. -/
def Inst.Loads (c : Ctx) (ins : Inst) : Prop :=
  ∃ data₀ cl, ins.call data₀ = some cl ∧ BtlOs.Loads c cl

/-- The same status, value and `pc`, and the same memory map. -/
def SameOutcome (x y : ℤ × Option ℕ × ℕ × Ctx) : Prop :=
  y.1 = x.1 ∧ y.2.1 = x.2.1 ∧ y.2.2.1 = x.2.2.1 ∧ y.2.2.2.mm = x.2.2.2.mm

theorem Owned.exec [PteLaws] {n m : ℕ} {s : Sys} {p q : ℕ} {pr : Process}
    {killall : Ctx → ScRegs → Exec (ℤ × Ctx)} (h : Owned n m s) (hz : AbsentCleared s)
    (hn : n * pagingPagesz < 2 ^ 31) (hm : m * pagingPagesz < 2 ^ 31)
    (hoffst : ∀ a, pagingOffst a < pagingPagesz) (hp : s.procs p = some pr) (hne : p ≠ q)
    {ins : Inst} (hc : ins.Confined (s.ctx pr)) (data₀ : Byte) :
    (ins.Spares s q → ∀ st val c,
      exec killall (s.ctx pr) ins data₀ = .ok (st, val, c) → Isolated s p q c) ∧
    ∀ c', (s.ctx pr).Agree (s.others q (ins.Loads (s.ctx pr))) c' →
      Both (fun x y => y.1 = x.1 ∧ y.2.1 = x.2.1 ∧ y.2.2.mm = x.2.2.mm)
        (exec killall (s.ctx pr) ins data₀) (exec killall c' ins data₀) := by
  rcases exec_eq killall hc.killall data₀ with ⟨cl, hcl, he⟩ | ⟨_, stat, he⟩
  · have hconf := hc.call data₀ cl hcl
    simp only [he]
    refine ⟨fun hsp st val c hcall => ?_, fun c' hagree => ?_⟩
    · exact h.isolated hn hm hoffst hp hne hconf (hsp data₀ cl hcl) (callStep_of_ok hcall)
    · exact h.sameResult hn hm hoffst hp hne hconf hz (fun hl => ⟨data₀, cl, hcl, hl⟩) hagree
  · simp only [he]
    refine ⟨fun _ st val c hcall => ?_, fun c' hagree => .ok ⟨rfl, rfl, hagree.mm⟩⟩
    obtain ⟨rfl, rfl, rfl⟩ := by simpa using hcall
    exact ⟨Function.update_of_ne (Ne.symm hne) _ _, fun _ _ => rfl, fun _ _ => rfl⟩

end

/-- **Process isolation.**  Whatever instruction a process executes, it changes nothing of another
process, unless a raw operation of system call 17 names a byte of the other process as its target;
and its outcome does not depend on the bytes of the other process. -/
theorem isolation [Header] [PteLaws] (killall : Ctx → ScRegs → Exec (ℤ × Ctx)) {n m : ℕ}
    (hfpn : FpnFits n) (hswp : SwpoffFits m) (hoffst : ∀ a, pagingOffst a < pagingPagesz)
    {s₀ s : Sys} {es : List Event} (h₀ : Booted n m s₀)
    (hr : (memLts.restrict fun s e => Calls VictimResident s e ∧ Cleared e).Run s₀ es s)
    {p q : ℕ} (hne : p ≠ q) {pr : Process} (hp : s.procs p = some pr) {code : List Inst} {pc : ℕ}
    {ins : Inst} (hins : code[pc]? = some ins) (hc : ins.Confined (s.ctx pr)) (data₀ : Byte) :
    (ins.Spares s q → ∀ st val pc' c,
      run killall code pc (s.ctx pr) data₀ = .ok (st, val, pc', c) → Isolated s p q c) ∧
    ∀ c', (s.ctx pr).Agree (s.others q (ins.Loads (s.ctx pr))) c' →
      Both SameOutcome (run killall code pc (s.ctx pr) data₀) (run killall code pc c' data₀) := by
  have hn := h₀.ram_bytes
  have hm := h₀.swp_bytes
  have h : Owned n m s ∧ AbsentCleared s := by
    refine hr.invariant (I := fun s => Owned n m s ∧ AbsentCleared s) ?_ ⟨h₀.owned, ?_⟩
    · rintro s e s' ⟨ho, hz⟩ ⟨hs, hvic, hclear⟩
      exact ⟨ho.step hfpn hswp hs hvic hclear, hz.step hs hclear⟩
    · intro p pr g hp
      rw [h₀.procs p] at hp
      cases hp
  obtain ⟨hiso, hsame⟩ := h.1.exec h.2 hn hm hoffst hp hne hc data₀
  constructor
  · intro hsp st val pc' c hrun
    simp only [run, hins, bind_eq_ok] at hrun
    obtain ⟨⟨st', val', c₁⟩, he, hrun⟩ := hrun
    obtain ⟨rfl, rfl, rfl, rfl⟩ := by simpa using hrun
    exact hiso hsp _ _ _ he
  · intro c' hagree
    simp only [run, hins]
    refine (hsame c' hagree).bind ?_
    rintro ⟨st, val, c₁⟩ ⟨st', val', c₁'⟩ _ ⟨rfl, rfl, hmm⟩
    exact .ok ⟨rfl, rfl, rfl, hmm⟩

instance [Header] (c : Ctx) (cl : Call) : Decidable (VictimResident c cl) :=
  match h : c.page cl with
  | none => isTrue fun g hg => by
      rw [h] at hg
      cases hg
  | some g => decidable_of_iff (VictimAt c g) (by simp [VictimResident, h])

/-! ### Two processes -/

/-- Each process has one page and writes to it. -/
def neighbours : List Event :=
  [loadBlank 0, loadBlank 1, .call 0 (.alloc 256 1) 0 none, .call 1 (.alloc 256 1) 0 none,
    .call 0 (.write 7 1 5) 0 none, .call 1 (.write 9 1 5) 0 none]

/-- `READ` of the byte that the process wrote. -/
def readOwn : Inst := ⟨.read, 1, 5, 0, 0⟩

/-- `SYSCALL` 17 with `SYSMEM_IO_WRITE`, the physical address 261 and the byte 66. -/
def writeRaw : Inst := ⟨.syscall, 17, 5, 261, 66⟩

/-- A handler of system call 101, which the two instructions do not make. -/
def noKillall (c : Ctx) (_ : ScRegs) : Exec (ℤ × Ctx) := .ok (0, c)

theorem run_neighbours22 : ∃ s pr c c',
    ((@memLts header22).restrict (Calls (@VictimResident header22))).Run boot22 neighbours s ∧
    s.procs 0 = some pr ∧
    @Sys.own (@residentFrame header22) s (1, 0) = some 1 ∧
    (∀ data₀ g, (@Ctx.page header22 (s.ctx pr) (.read 1 5 data₀)) = some g →
      @pagingPagePresent header22 (pr.mm.pgd g) = true ∧
        @pagingPageSwapped header22 (pr.mm.pgd g) = false) ∧
    @run header22 noKillall [readOwn] 0 (s.ctx pr) 0 = .ok (0, some 7, 1, c) ∧
    @run header22 noKillall [writeRaw] 0 (s.ctx pr) 0 = .ok (0, none, 1, c') ∧
    c'.dev.mram.storage 261 ≠ s.dev.mram.storage 261 := by
  let := header22
  have hsome : (Lts.replay (Lts.guarded Sys.next (Calls VictimResident)) boot22 neighbours).any
      (fun s => (s.procs 0).any fun pr => s.own residentFrame (1, 0) = some 1 ∧
        ((s.ctx pr).page (.read 1 5 0)).any (fun g => pagingPagePresent (pr.mm.pgd g) = true ∧
          pagingPageSwapped (pr.mm.pgd g) = false) = true ∧
        (run noKillall [readOwn] 0 (s.ctx pr) 0).toOption.any (fun r =>
          r.1 = 0 ∧ r.2.1 = some 7 ∧ r.2.2.1 = 1) = true ∧
        (run noKillall [writeRaw] 0 (s.ctx pr) 0).toOption.any (fun r =>
          r.1 = 0 ∧ r.2.1 = none ∧ r.2.2.1 = 1 ∧
            r.2.2.2.dev.mram.storage 261 ≠ s.dev.mram.storage 261) = true) = true := by
    decide +kernel
  obtain ⟨s, hs, hx⟩ := (Option.any_eq_true _ _).mp hsome
  obtain ⟨pr, hp, hx⟩ := (Option.any_eq_true _ _).mp hx
  obtain ⟨hown, hpage, hread, hwrite⟩ := of_decide_eq_true hx
  obtain ⟨g, hg, hpage⟩ := (Option.any_eq_true _ _).mp hpage
  obtain ⟨⟨st, val, pc, c⟩, hc, hread⟩ := exists_ok_of_any hread
  obtain ⟨⟨st', val', pc', c'⟩, hc', hwrite⟩ := exists_ok_of_any hwrite
  obtain ⟨rfl, rfl, rfl⟩ := of_decide_eq_true hread
  obtain ⟨rfl, rfl, rfl, hbyte⟩ := of_decide_eq_true hwrite
  refine ⟨s, pr, c, c', Lts.Run.of_replay_guarded (fun _ _ _ => memStep_of_next) hs, hp, hown,
    ?_, hc, hc', hbyte⟩
  intro data₀ g' hg'
  obtain rfl : g = g' := Option.some.inj (hg.symm.trans hg')
  exact of_decide_eq_true hpage

/-- Whatever bytes process 1 has in its frame, process 0 reads its own byte and changes none of
them. -/
theorem isolation_sample : ∃ s pr c, (@memLts header22).Run boot22 neighbours s ∧
    s.procs 0 = some pr ∧
    @run header22 noKillall [readOwn] 0 (s.ctx pr) 0 = .ok (0, some 7, 1, c) ∧
    @Isolated header22 s 0 1 c ∧
    ∀ storage : ℕ → Byte, (∀ a, a / 256 ≠ 1 → storage a = s.dev.mram.storage a) →
      ∃ c', @run header22 noKillall [readOwn] 0
        { s.ctx pr with dev := { s.dev with mram := s.dev.mram.withStorage storage } } 0 =
          .ok (0, some 7, 1, c') := by
  let := header22
  let := header22_pteLaws
  obtain ⟨s, pr, c, _, hrun, hp, hown, hpage, hread, _⟩ := run_neighbours22
  have hc : readOwn.Confined (s.ctx pr) := by
    refine ⟨by simp [Inst.Killall, readOwn], fun data₀ cl hcl g hg => ?_⟩
    obtain rfl := Option.some.inj hcl
    obtain ⟨hpres, hsw⟩ := hpage data₀ g hg
    refine ⟨hsw, fun hnot => ?_⟩
    rw [show (s.ctx pr).mm.pgd g = pr.mm.pgd g from rfl, hpres] at hnot
    cases hnot
  have hoffst : ∀ a, pagingOffst a < pagingPagesz := by
    intro a
    show (a % 256).toNat < 256
    omega
  have hspares : readOwn.Spares s 1 := by
    rintro data₀ cl hcl regs rfl
    cases hcl
  have hins : [readOwn][0]? = some readOwn := rfl
  obtain ⟨hiso, hsame⟩ := isolation noKillall (by decide) (by decide) hoffst booted_boot22
    (hrun.restrict_and (by simp [neighbours, loadBlank, Cleared])) (by decide : 0 ≠ 1) hp
    hins hc 0
  refine ⟨s, pr, c, hrun.of_restrict, hp, hread, hiso hspares _ _ _ _ hread,
    fun storage hst => ?_⟩
  have hagree : (s.ctx pr).Agree (s.others 1 (readOwn.Loads (s.ctx pr)))
      { s.ctx pr with dev := { s.dev with mram := s.dev.mram.withStorage storage } } := by
    refine ⟨rfl, fun d => ?_, rfl, rfl⟩
    cases d with
    | mram =>
        refine Memphy.Agree.withStorage _ fun a ha => hst a fun hin => ha ⟨0, ?_⟩
        rw [hown]
        exact congrArg some hin.symm
    | mswp => exact ⟨fun _ _ => rfl, rfl, rfl, rfl, rfl⟩
  obtain ⟨⟨st, val, pc, c'⟩, hrun', hst, hval, hpc, _⟩ := (hsame _ hagree).of_ok hread
  obtain ⟨rfl, rfl, rfl⟩ : st = 0 ∧ val = some 7 ∧ pc = 1 := ⟨hst, hval, hpc⟩
  exact ⟨c', hrun'⟩

/-- A raw write changes a byte of process 1. -/
theorem isolation_raw : ∃ s pr c, (@memLts header22).Run boot22 neighbours s ∧
    s.procs 0 = some pr ∧
    @run header22 noKillall [writeRaw] 0 (s.ctx pr) 0 = .ok (0, none, 1, c) ∧
    ¬ @Isolated header22 s 0 1 c := by
  let := header22
  obtain ⟨s, pr, _, c, hrun, hp, hown, _, _, hwrite, hbyte⟩ := run_neighbours22
  exact ⟨s, pr, c, hrun.of_restrict, hp, hwrite, fun h => hbyte (h.ram 261 ⟨0, hown⟩)⟩

end BtlOs
