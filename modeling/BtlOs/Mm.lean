import BtlOs.Vma
import BtlOs.Memphy

/-! # Mapping pages (`mm.c`, `inc_vma_limit` of `mm-vm.c`, `sys_mem.c`)

`Ctx` is everything that a memory call of one process reaches: its own `mm`, the devices behind
`caller->mram` and `caller->active_mswp`, and the global lock of `libmem.c`.  A call is a function
from `Ctx` to its result and the `Ctx` it leaves.  `malloc` is assumed to succeed. -/

namespace BtlOs

open CLang Header

/-- What a memory call of one process reaches. -/
structure Ctx where
  mm : Mm
  dev : Devices
  activeMswpId : ℤ
  mmvmLock : Bool

/-- `struct sc_regs`: the fields `a1`, `a2`, `a3` (`uint32_t`). -/
structure ScRegs where
  a1 : ℕ
  a2 : ℕ
  a3 : ℕ
deriving DecidableEq, Repr

/-- A `BYTE` assigned to a `uint32_t`: `char` is signed. -/
def byteToUint32 (b : Byte) : ℕ := (b.signExtend 32).toNat

/-- A `uint32_t` assigned to a `BYTE`. -/
def uint32ToByte (n : ℕ) : Byte := BitVec.ofNat 8 n

theorem uint32ToByte_byteToUint32 (b : Byte) : uint32ToByte (byteToUint32 b) = b := by
  unfold uint32ToByte byteToUint32
  apply BitVec.eq_of_toNat_eq
  rw [BitVec.toNat_ofNat, BitVec.toNat_signExtend]
  have := b.isLt
  split_ifs <;> simp <;> omega

/-! ### Frames and page-table entries -/

/-- The roll-back of `alloc_pages_range`: the collected frames go back one by one. -/
def rollback (mp : Memphy) : List ℕ → Memphy
  | [] => mp
  | fpn :: next => rollback (mp.putFreefp fpn) next

/-- `alloc_pages_range`: the pages still to get and the frames collected so far; `none` is the
result `-3000`. -/
def allocPagesRange : ℕ → List ℕ → Memphy → Option (List ℕ) × Memphy
  | 0, frmLst, mp => (some frmLst, mp)
  | n + 1, frmLst, mp =>
      match mp.getFreefp with
      | some (fpn, mp) => allocPagesRange n (fpn :: frmLst) mp
      | none => (none, rollback mp frmLst)

/-- `enlist_pgn_node` on `fifo_pgn`. -/
def enlistPgnNode (mm : Mm) (pgn : ℕ) : Mm := { mm with fifoPgn := pgn :: mm.fifoPgn }

/-- The loop of `vmap_page_range`: the pages still to map, the next page and the frames left. -/
def vmapPages [Header] : ℕ → ℕ → List ℕ → Mm → Exec (ℤ × Mm)
  | 0, _, _, mm => .ok (0, mm)
  | _ + 1, _, [], mm => .ok (-1, mm)
  | n + 1, currPgn, fpn :: fpNext, mm => do
      let pte ← mm.pgdGet currPgn
      let mm ← mm.pgdSet currPgn (pteSetFpn pte fpn)
      vmapPages n (currPgn + 1) fpNext (enlistPgnNode mm currPgn)

/-- `vmap_page_range`: the result, `*ret_rg` and the new map. -/
def vmapPageRange [Header] (mm : Mm) (addr pgnum : ℤ) (frames : List ℕ) :
    Exec (ℤ × VmRg × Mm) := do
  let endAddr := int32 (addr + int32 (pgnum * pagingPagesz))
  let retRg : VmRg := ⟨ulong addr, ulong endAddr⟩
  let (st, mm) ← vmapPages pgnum.toNat (pagingPgn addr) frames mm
  .ok (st, retRg, mm)

/-! ### What the mapping loops compute -/

theorem rollback_eq (frmLst : List ℕ) : ∀ mp : Memphy,
    rollback mp frmLst = { mp with freeFpList := frmLst.reverse ++ mp.freeFpList } := by
  induction frmLst with
  | nil => intro mp; rfl
  | cons fpn next ih =>
      intro mp
      rw [rollback, ih]
      simp [Memphy.putFreefp]

/-- `alloc_pages_range` takes the first `n` free frames, the last one first in its result, or
leaves the free list as it was. -/
theorem allocPagesRange_eq (n : ℕ) (frmLst : List ℕ) (mp : Memphy) :
    allocPagesRange n frmLst mp =
      if n ≤ mp.freeFpList.length then
        (some ((mp.freeFpList.take n).reverse ++ frmLst),
          { mp with freeFpList := mp.freeFpList.drop n })
      else (none, { mp with freeFpList := frmLst.reverse ++ mp.freeFpList }) := by
  induction n generalizing frmLst mp with
  | zero => simp [allocPagesRange]
  | succ n ih =>
      unfold allocPagesRange
      rcases hl : mp.freeFpList with _ | ⟨fpn, rest⟩
      · simp only [Memphy.getFreefp, hl]
        simp [rollback_eq, hl]
      · simp only [Memphy.getFreefp, hl]
        rw [ih]
        by_cases h : n ≤ rest.length <;> simp [h]

section mapping

variable [Header]

/-- The page table after the pages from `a` on were given the frames of a list. -/
def mapPages (pgd : ℕ → Pte) : ℕ → List ℕ → ℕ → Pte
  | _, [] => pgd
  | a, fpn :: fpNext => mapPages (Function.update pgd a (pteSetFpn (pgd a) fpn)) (a + 1) fpNext

theorem mapPages_of_lt (frames : List ℕ) (pgd : ℕ → Pte) {a g : ℕ} (h : g < a) :
    mapPages pgd a frames g = pgd g := by
  induction frames generalizing pgd a with
  | nil => rfl
  | cons fpn fpNext ih =>
      rw [mapPages, ih _ (by omega), Function.update_of_ne (by omega)]

theorem mapPages_of_ge (frames : List ℕ) (pgd : ℕ → Pte) {a g : ℕ}
    (h : a + frames.length ≤ g) : mapPages pgd a frames g = pgd g := by
  induction frames generalizing pgd a with
  | nil => rfl
  | cons fpn fpNext ih =>
      rw [List.length_cons] at h
      rw [mapPages, ih _ (by omega), Function.update_of_ne (by omega)]

theorem mapPages_get : ∀ (frames : List ℕ) (pgd : ℕ → Pte) (a : ℕ) {i : ℕ}
    (h : i < frames.length), mapPages pgd a frames (a + i) = pteSetFpn (pgd (a + i)) frames[i]
  | fpn :: fpNext, pgd, a, 0, _ => by
      rw [mapPages, mapPages_of_lt fpNext _ (by omega)]
      simp
  | fpn :: fpNext, pgd, a, i + 1, h => by
      have e : a + (i + 1) = a + 1 + i := by omega
      rw [mapPages, e, mapPages_get fpNext _ (a + 1) (by simpa using h),
        Function.update_of_ne (by omega)]
      rfl

/-- Every entry is an old one or one that `pte_set_fpn` wrote over an old one. -/
theorem mapPages_cases (frames : List ℕ) (pgd : ℕ → Pte) (a g : ℕ) :
    mapPages pgd a frames g = pgd g ∨
      ∃ fpn ∈ frames, mapPages pgd a frames g = pteSetFpn (pgd g) fpn := by
  by_cases h₁ : g < a
  · exact .inl (mapPages_of_lt frames pgd h₁)
  · by_cases h₂ : g < a + frames.length
    · obtain ⟨i, rfl⟩ : ∃ i, g = a + i := ⟨g - a, by omega⟩
      have hi : i < frames.length := by omega
      exact .inr ⟨frames[i], List.getElem_mem hi, mapPages_get frames pgd a hi⟩
    · exact .inl (mapPages_of_ge frames pgd (by omega))

theorem resident_mapPages [PteLaws] (frames : List ℕ) (pgd : ℕ → Pte) (a g : ℕ) :
    Resident (mapPages pgd a frames g) ↔ Resident (pgd g) ∨ g ∈ List.range' a frames.length := by
  rw [List.mem_range'_1]
  by_cases h₁ : g < a
  · rw [mapPages_of_lt frames pgd h₁]
    simp [Nat.not_le_of_lt h₁]
  · by_cases h₂ : g < a + frames.length
    · obtain ⟨i, rfl⟩ : ∃ i, g = a + i := ⟨g - a, by omega⟩
      rw [mapPages_get frames pgd a (by omega)]
      simp [resident_pteSetFpn, h₂]
    · rw [mapPages_of_ge frames pgd (by omega)]
      simp [h₂]

/-- The map after `vmap_page_range` gave the pages from `a` on the frames of a list. -/
def Mm.mapped (mm : Mm) (a : ℕ) (frames : List ℕ) : Mm :=
  { mm with
    pgd := mapPages mm.pgd a frames
    fifoPgn := (List.range' a frames.length).reverse ++ mm.fifoPgn }

theorem vmapPages_eq (frames : List ℕ) (a : ℕ) (mm : Mm)
    (h : frames = [] ∨ a + frames.length ≤ pagingMaxPgn) :
    vmapPages frames.length a frames mm = .ok (0, mm.mapped a frames) := by
  induction frames generalizing a mm with
  | nil => rfl
  | cons fpn fpNext ih =>
      simp only [reduceCtorEq, false_or, List.length_cons] at h
      have ha : a < pagingMaxPgn := by omega
      rw [List.length_cons, vmapPages, Mm.pgdGet_eq_ok.mpr ⟨ha, rfl⟩, ok_bind,
        Mm.pgdSet_eq_ok.mpr ⟨ha, rfl⟩, ok_bind, ih (a + 1) _ (.inr (by omega))]
      simp [Mm.mapped, mapPages, enlistPgnNode, List.range'_succ]

theorem vmapPages_ok (frames : List ℕ) (a : ℕ) (mm : Mm) {r : ℤ × Mm}
    (h : vmapPages frames.length a frames mm = .ok r) :
    r = (0, mm.mapped a frames) ∧ (frames = [] ∨ a + frames.length ≤ pagingMaxPgn) := by
  induction frames generalizing a mm with
  | nil => exact ⟨(Except.ok.inj h).symm, .inl rfl⟩
  | cons fpn fpNext ih =>
      rw [List.length_cons, vmapPages] at h
      simp only [bind_eq_ok, Mm.pgdGet_eq_ok, Mm.pgdSet_eq_ok] at h
      obtain ⟨_, ⟨ha, rfl⟩, _, ⟨_, rfl⟩, h⟩ := h
      obtain ⟨hr, hle⟩ := ih (a + 1) _ h
      refine ⟨?_, .inr ?_⟩
      · simp [hr, Mm.mapped, mapPages, enlistPgnNode, List.range'_succ]
      · rcases hle with rfl | hle
        · rw [List.length_singleton]
          omega
        · rw [List.length_cons]
          omega

end mapping

section calls

variable [Header] (c : Ctx)

/-- `vm_map_ram`: the result, `*ret_rg` where it is assigned. -/
def vmMapRam (mapstart incpgnum : ℤ) : Exec (ℤ × Option VmRg × Ctx) :=
  match allocPagesRange incpgnum.toNat [] c.dev.mram with
  | (none, mram) => .ok (-1, none, { c with dev := { c.dev with mram } })
  | (some frmLst, mram) => do
      -- the result of `vmap_page_range` is not looked at
      let (_, retRg, mm) ← vmapPageRange c.mm mapstart incpgnum frmLst
      .ok (0, some retRg, { c with mm, dev := { c.dev with mram } })

/-- The first `n` free frames given to the pages from `a` on. -/
def Ctx.grown (a n : ℕ) : Ctx :=
  { c with
    mm := c.mm.mapped a (c.dev.mram.freeFpList.take n).reverse
    dev := { c.dev with
      mram := { c.dev.mram with freeFpList := c.dev.mram.freeFpList.drop n } } }

/-- `inc_vma_limit`. -/
def incVmaLimit (vmaid incSz : ℤ) : Exec (ℤ × Ctx) := do
  let incAmt := pagingPageAlignsz incSz
  let incnumpage := incAmt.tdiv pagingPagesz
  let region ← getVmAreaNodeAtBrk c.mm vmaid incSz pagingPagesz
  let curVma ← getVmaByNum c.mm vmaid
  match region with
  | none => .ok (-1, c)
  | some region => do
      let vma ← c.mm.area curVma
      let oldEnd := int32 vma.vmEnd
      if validateOverlapVmArea c.mm vmaid (int32 region.rgStart) (int32 region.rgEnd) = -1 then
        .ok (-1, c)
      else do
        let vmEnd := ulong (vma.vmEnd + incAmt)
        let mm := c.mm.setArea curVma { vma with vmEnd, sbrk := vmEnd }
        let (st, _, c) ← vmMapRam { c with mm } oldEnd incnumpage
        .ok (if st < 0 then -1 else 0, c)

/-- `__mm_swap_page`. -/
def mmSwapPage (vicfpn swpfpn : ℤ) : Exec (ℤ × Ctx) := do
  let dev ← swapCpPage c.dev .mram vicfpn .mswp swpfpn
  .ok (0, { c with dev })

/-- `__sys_memmap`. -/
def sysMemmap (regs : ScRegs) : Exec (ℤ × ScRegs × Ctx) :=
  let memop := int32 regs.a1
  if memop = sysmemMapOp then .ok (0, regs, c)
  else if memop = sysmemIncOp then do
    let (st, c) ← incVmaLimit c (int32 regs.a2) (int32 regs.a3)
    .ok (st, regs, c)
  else if memop = sysmemSwpOp then do
    let (st, c) ← mmSwapPage c (int32 regs.a2) (int32 regs.a3)
    .ok (st, regs, c)
  else if memop = sysmemIoRead then do
    let (value, mram) ← c.dev.mram.read (int32 regs.a2)
    let c := { c with dev := { c.dev with mram } }
    match value with
    | none => .ok (-1, regs, c)
    | some value => .ok (0, { regs with a3 := byteToUint32 value }, c)
  else if memop = sysmemIoWrite then do
    let (st, mram) ← c.dev.mram.write (int32 regs.a2) (uint32ToByte regs.a3)
    .ok (st, regs, { c with dev := { c.dev with mram } })
  else .ok (0, regs, c)  -- the operation code is printed

variable {c}

@[simp] theorem Ctx.grown_zero (a : ℕ) : c.grown a 0 = c := by
  simp [Ctx.grown, Mm.mapped, mapPages]

/-- `vm_map_ram` over enough frames. -/
theorem vmMapRam_eq (mapstart incpgnum : ℤ)
    (hn : incpgnum.toNat ≤ c.dev.mram.freeFpList.length)
    (ha : incpgnum.toNat = 0 ∨ pagingPgn mapstart + incpgnum.toNat ≤ pagingMaxPgn) :
    ∃ retRg, vmMapRam c mapstart incpgnum =
      .ok (0, retRg, c.grown (pagingPgn mapstart) incpgnum.toNat) := by
  have hlen : (c.dev.mram.freeFpList.take incpgnum.toNat).reverse.length = incpgnum.toNat := by
    simpa using hn
  have hmap := vmapPages_eq (c.dev.mram.freeFpList.take incpgnum.toNat).reverse
    (pagingPgn mapstart) c.mm (by rwa [hlen, ← List.length_eq_zero_iff, hlen])
  rw [hlen] at hmap
  unfold vmMapRam
  rw [allocPagesRange_eq, if_pos hn]
  simp only [List.append_nil, vmapPageRange, hmap, ok_bind]
  exact ⟨_, rfl⟩

theorem vmMapRam_oom {mapstart incpgnum : ℤ}
    (hn : c.dev.mram.freeFpList.length < incpgnum.toNat) :
    vmMapRam c mapstart incpgnum = .ok (-1, none, c) := by
  unfold vmMapRam
  rw [allocPagesRange_eq, if_neg (by omega)]
  simp

theorem vmMapRam_returns {mapstart incpgnum : ℤ}
    (h : c.dev.mram.freeFpList.length < incpgnum.toNat ∨
      incpgnum.toNat = 0 ∨ pagingPgn mapstart + incpgnum.toNat ≤ pagingMaxPgn) :
    ∃ r, vmMapRam c mapstart incpgnum = .ok r := by
  by_cases hlt : c.dev.mram.freeFpList.length < incpgnum.toNat
  · exact ⟨_, vmMapRam_oom hlt⟩
  · obtain ⟨retRg, hmap⟩ :=
      vmMapRam_eq mapstart incpgnum (Nat.le_of_not_lt hlt) (h.resolve_left hlt)
    exact ⟨_, hmap⟩

theorem vmMapRam_ok {mapstart incpgnum st : ℤ} {retRg : Option VmRg} {c' : Ctx}
    (h : vmMapRam c mapstart incpgnum = .ok (st, retRg, c')) :
    (st = -1 ∧ c.dev.mram.freeFpList.length < incpgnum.toNat ∧ c' = c) ∨
      (st = 0 ∧ incpgnum.toNat ≤ c.dev.mram.freeFpList.length ∧
        c' = c.grown (pagingPgn mapstart) incpgnum.toNat) := by
  by_cases hn : incpgnum.toNat ≤ c.dev.mram.freeFpList.length
  · have hlen : (c.dev.mram.freeFpList.take incpgnum.toNat).reverse.length = incpgnum.toNat := by
      simpa using hn
    unfold vmMapRam at h
    rw [allocPagesRange_eq, if_pos hn] at h
    simp only [List.append_nil, vmapPageRange, bind_eq_ok, Except.ok.injEq] at h
    obtain ⟨_, ⟨r, hr, rfl⟩, h⟩ := h
    obtain ⟨rfl, _⟩ := vmapPages_ok (c.dev.mram.freeFpList.take incpgnum.toNat).reverse _ _
      (by rw [hlen]; exact hr)
    obtain ⟨rfl, rfl, rfl⟩ := by simpa using h
    exact .inr ⟨rfl, hn, rfl⟩
  · rw [vmMapRam_oom (by omega)] at h
    obtain ⟨rfl, rfl, rfl⟩ := by simpa using h
    exact .inl ⟨rfl, by omega, rfl⟩

/-- The pages that an increase of the area `vmaid` by `incSz` bytes maps: `n` pages from `a` on. -/
def Growth (mm : Mm) (vmaid incSz : ℤ) (a n : ℕ) : Prop :=
  ∃ curVma vma, getVmaByNum mm vmaid = .ok curVma ∧ mm.area curVma = .ok vma ∧
    a = pagingPgn (int32 vma.vmEnd) ∧ n = ((pagingPageAlignsz incSz).tdiv pagingPagesz).toNat

/-- What a call of `inc_vma_limit` that returns has done: it may change the areas, and it maps
pages exactly where it succeeds. -/
theorem incVmaLimit_ok {vmaid incSz st : ℤ} {c' : Ctx}
    (h : incVmaLimit c vmaid incSz = .ok (st, c')) :
    ∃ mmap, (st = -1 ∧ c' = { c with mm := { c.mm with mmap } }) ∨ (st = 0 ∧ ∃ a n,
      Growth c.mm vmaid incSz a n ∧ n ≤ c.dev.mram.freeFpList.length ∧
        c' = { c with mm := { c.mm with mmap } }.grown a n) := by
  unfold incVmaLimit at h
  simp only [bind_eq_ok] at h
  obtain ⟨region, _, curVma, hcur, h⟩ := h
  cases region with
  | none =>
      obtain ⟨rfl, rfl⟩ := by simpa using h
      exact ⟨c.mm.mmap, .inl ⟨rfl, rfl⟩⟩
  | some region =>
      simp only [bind_eq_ok] at h
      obtain ⟨vma, hvma, h⟩ := h
      split_ifs at h
      · obtain ⟨rfl, rfl⟩ := by simpa using h
        exact ⟨c.mm.mmap, .inl ⟨rfl, rfl⟩⟩
      · obtain ⟨⟨st', retRg, c₁⟩, h₁, h⟩ := bind_eq_ok.mp h
        obtain ⟨rfl, rfl⟩ := by simpa using h
        rw [Mm.setArea_eq] at h₁
        rcases vmMapRam_ok h₁ with ⟨rfl, _, rfl⟩ | ⟨rfl, hn, rfl⟩
        · exact ⟨_, .inl ⟨rfl, rfl⟩⟩
        · exact ⟨_, .inr ⟨rfl, _, _, ⟨curVma, vma, hcur, hvma, rfl, rfl⟩, hn, rfl⟩⟩

/-! ### The operations of `__sys_memmap` -/

theorem memop_eq (op : ℤ)
    (h : op ∈ [sysmemMapOp, sysmemIncOp, sysmemSwpOp, sysmemIoRead, sysmemIoWrite]) :
    int32 (uint32 op) = op := by
  rw [int32_uint32, sysmemInt op h]

theorem sysMemmap_of_inc {regs : ScRegs} (h : int32 regs.a1 = sysmemIncOp) :
    sysMemmap c regs = (do
      let (st, c) ← incVmaLimit c (int32 regs.a2) (int32 regs.a3)
      .ok (st, regs, c)) := by
  have hn := sysmemNodup
  simp only [List.nodup_cons, List.mem_cons, not_or] at hn
  unfold sysMemmap
  rw [h, if_neg (Ne.symm hn.1.1), if_pos rfl]

theorem sysMemmap_inc (a b : ℤ) :
    sysMemmap c ⟨uint32 sysmemIncOp, uint32 a, uint32 b⟩ = (do
      let (st, c) ← incVmaLimit c (int32 a) (int32 b)
      .ok (st, ⟨uint32 sysmemIncOp, uint32 a, uint32 b⟩, c)) := by
  have hop : int32 (⟨uint32 sysmemIncOp, uint32 a, uint32 b⟩ : ScRegs).a1 = sysmemIncOp :=
    memop_eq sysmemIncOp (by simp)
  rw [sysMemmap_of_inc hop]
  simp only [int32_uint32]

theorem sysMemmap_swp (a b : ℤ) :
    sysMemmap c ⟨uint32 sysmemSwpOp, uint32 a, uint32 b⟩ = (do
      let (st, c) ← mmSwapPage c (int32 a) (int32 b)
      .ok (st, ⟨uint32 sysmemSwpOp, uint32 a, uint32 b⟩, c)) := by
  have hn := sysmemNodup
  simp only [List.nodup_cons, List.mem_cons, not_or] at hn
  unfold sysMemmap
  simp only [memop_eq sysmemSwpOp (by simp), int32_uint32]
  rw [if_neg (Ne.symm hn.1.2.1), if_neg (Ne.symm hn.2.1.1), if_true]

theorem sysMemmap_ioRead (a : ℤ) (b : ℕ) :
    sysMemmap c ⟨uint32 sysmemIoRead, uint32 a, b⟩ = (do
      let (value, mram) ← c.dev.mram.read (int32 a)
      let c := { c with dev := { c.dev with mram } }
      match value with
      | none => .ok (-1, ⟨uint32 sysmemIoRead, uint32 a, b⟩, c)
      | some value => .ok (0, ⟨uint32 sysmemIoRead, uint32 a, byteToUint32 value⟩, c)) := by
  have hn := sysmemNodup
  simp only [List.nodup_cons, List.mem_cons, not_or] at hn
  unfold sysMemmap
  simp only [memop_eq sysmemIoRead (by simp), int32_uint32]
  rw [if_neg (Ne.symm hn.1.2.2.1), if_neg (Ne.symm hn.2.1.2.1), if_neg (Ne.symm hn.2.2.1.1),
    if_true]

theorem sysMemmap_ioWrite (a : ℤ) (b : ℕ) :
    sysMemmap c ⟨uint32 sysmemIoWrite, uint32 a, b⟩ = (do
      let (st, mram) ← c.dev.mram.write (int32 a) (uint32ToByte b)
      .ok (st, ⟨uint32 sysmemIoWrite, uint32 a, b⟩, { c with dev := { c.dev with mram } })) := by
  have hn := sysmemNodup
  simp only [List.nodup_cons, List.mem_cons, not_or] at hn
  unfold sysMemmap
  simp only [memop_eq sysmemIoWrite (by simp), int32_uint32]
  rw [if_neg (Ne.symm hn.1.2.2.2.1), if_neg (Ne.symm hn.2.1.2.2.1), if_neg (Ne.symm hn.2.2.1.2.1),
    if_neg (Ne.symm hn.2.2.2.1.1), if_true]

end calls

end BtlOs
