import BtlOs.Heap
import BtlOs.Isolation
import BtlOs.Keeps
import BtlOs.Bypass
import BtlOs.Dispatch

/-! # Array accesses

An access outside `symrgtbl`, `pgd` or the storage of a device is undefined, so a call that is not
undefined has accessed these arrays in bounds.  `InBounds` is the condition on the operands and on
the state under which this is so: `Ctx.Bounded` is the invariant that it rests on, and every
function has one lemma, which says when it returns.

The condition is needed because some operands are not checked, or checked against the wrong bound:
`__alloc` takes every region id, the other calls one that is too large by one; nothing checks that
the new pages are inside the page table, or that the frame number of an entry is one (the bits of
a swapped page are not); and nothing checks a priority. -/

namespace BtlOs

open CLang Header SchedHeader Table

section

variable [Header]

/-! ### Devices -/

/-- A random-access device of `n` frames, addressed by `int`s. -/
structure DeviceBounded (n : ℕ) (mp : Memphy) : Prop where
  rdmflg : mp.rdmflg = true
  maxsz : (n * pagingPagesz : ℤ) ≤ mp.maxsz
  int : mp.maxsz < 2 ^ 31

/-- The cell `cellidx` of a frame is in the storage of a random-access device. -/
structure Devices.Cell (ds : Devices) (d : Dev) (fpn : ℤ) (cellidx : ℕ) : Prop where
  rdmflg : (ds.get d).rdmflg = true
  nonneg : 0 ≤ cellAddr fpn cellidx
  lt : cellAddr fpn cellidx < (ds.get d).maxsz

section devices

variable {n fpn : ℕ} {mp mp' : Memphy}

theorem DeviceBounded.of_same (h : DeviceBounded n mp) (hs : SameDevice mp mp') :
    DeviceBounded n mp' :=
  ⟨hs.1.trans h.rdmflg, hs.2 ▸ h.maxsz, hs.2 ▸ h.int⟩

@[simp] theorem deviceBounded_withStorage {storage : ℕ → Byte} :
    DeviceBounded n (mp.withStorage storage) ↔ DeviceBounded n mp :=
  ⟨fun h => ⟨h.rdmflg, h.maxsz, h.int⟩, fun h => ⟨h.rdmflg, h.maxsz, h.int⟩⟩

theorem DeviceBounded.bytes (h : DeviceBounded n mp) : n * pagingPagesz < 2 ^ 31 := by
  exact_mod_cast lt_of_le_of_lt h.maxsz h.int

theorem DeviceBounded.addr (h : DeviceBounded n mp) (hfpn : fpn < n) {j : ℕ}
    (hj : j < pagingPagesz) : 0 ≤ cellAddr fpn j ∧ cellAddr fpn j < mp.maxsz := by
  have hle : (fpn + 1) * pagingPagesz ≤ n * pagingPagesz := Nat.mul_le_mul_right _ hfpn
  rw [Nat.succ_mul] at hle
  have hmax := h.maxsz
  rw [cellAddr_eq h.bytes hfpn hj]
  push_cast
  zify at hle hj
  exact ⟨by positivity, by linarith⟩

theorem DeviceBounded.int32_fpn (h : DeviceBounded n mp) (hp : 0 < pagingPagesz)
    (hfpn : fpn < n) : int32 fpn = fpn :=
  BtlOs.int32_fpn h.bytes hfpn hp

omit [Header] in
theorem Memphy.read_eq (hr : mp.rdmflg = true) {addr : ℤ} (h₀ : 0 ≤ addr)
    (h₁ : addr < mp.maxsz) : mp.read addr = .ok (some (mp.storage addr.toNat), mp) := by
  obtain ⟨a, rfl⟩ := Int.eq_ofNat_of_zero_le h₀
  exact Memphy.read_of_rdmflg hr h₁

omit [Header] in
theorem Memphy.write_eq (hr : mp.rdmflg = true) {addr : ℤ} (h₀ : 0 ≤ addr)
    (h₁ : addr < mp.maxsz) (v : Byte) : mp.write addr v =
      .ok (0, { mp with storage := Function.update mp.storage addr.toNat v }) := by
  obtain ⟨a, rfl⟩ := Int.eq_ofNat_of_zero_le h₀
  exact Memphy.write_of_rdmflg hr h₁ v

end devices

section copy

variable {ds ds' : Devices} {s d : Dev} {sf df : ℤ}

theorem Devices.Cell.of_same {i : ℕ} (h : ds.Cell d df i) (hs : SameDevices ds ds') :
    ds'.Cell d df i := by
  cases d with
  | mram => exact ⟨hs.1.1.trans h.rdmflg, h.nonneg, hs.1.2 ▸ h.lt⟩
  | mswp => exact ⟨hs.2.1.trans h.rdmflg, h.nonneg, hs.2.2 ▸ h.lt⟩

theorem swapCpCell_eq {i : ℕ} (hs : ds.Cell s sf i) (hd : ds.Cell d df i) :
    swapCpCell ds s sf d df i = .ok (ds.set d ((ds.get d).withStorage (Function.update
      (ds.get d).storage (cellAddr df i).toNat ((ds.get s).storage (cellAddr sf i).toNat)))) := by
  unfold swapCpCell
  rw [Memphy.read_eq hs.rdmflg hs.nonneg hs.lt, ok_bind]
  simp only [Devices.set_get, assigned, ok_bind]
  rw [Memphy.write_eq hd.rdmflg hd.nonneg hd.lt, ok_bind]
  rfl

theorem swapCpCells_returns (n : ℕ) : ∀ (i : ℕ) (ds : Devices),
    (∀ j < i + n, i ≤ j → ds.Cell s sf j) → (∀ j < i + n, i ≤ j → ds.Cell d df j) →
    ∃ ds', swapCpCells s sf d df n i ds = .ok ds' := by
  induction n with
  | zero => exact fun _ ds _ _ => ⟨ds, rfl⟩
  | succ n ih =>
      intro i ds hs hd
      have h₁ := swapCpCell_eq (hs i (by omega) le_rfl) (hd i (by omega) le_rfl)
      have hsame := (ends_swapCpCell ds s d sf df i).of_ok h₁
      rw [swapCpCells, h₁, ok_bind]
      apply ih
      · exact fun j hj hij => (hs j (by omega) (by omega)).of_same hsame
      · exact fun j hj hij => (hd j (by omega) (by omega)).of_same hsame

theorem swapCpPage_returns {n m sfpn dfpn : ℕ} (hs : DeviceBounded n (ds.get s))
    (hsf : sfpn < n) (hd : DeviceBounded m (ds.get d)) (hdf : dfpn < m) :
    ∃ ds', swapCpPage ds s sfpn d dfpn = .ok ds' := by
  refine swapCpCells_returns pagingPagesz 0 ds (fun j hj _ => ?_) (fun j hj _ => ?_)
  · obtain ⟨h₀, h₁⟩ := hs.addr hsf (show j < pagingPagesz by omega)
    exact ⟨hs.rdmflg, h₀, h₁⟩
  · obtain ⟨h₀, h₁⟩ := hd.addr hdf (show j < pagingPagesz by omega)
    exact ⟨hd.rdmflg, h₀, h₁⟩

end copy

/-! ### The invariant -/

/-- The entries of a memory map over `n` RAM frames: the pages of `fifo_pgn` are pages of the
table, a page in RAM has one of the frames, and an entry without `PRESENT` is cleared. -/
structure PagesBounded (n : ℕ) (mm : Mm) : Prop where
  fifo : ∀ g ∈ mm.fifoPgn, g < pagingMaxPgn ∧ pagingPagePresent (mm.pgd g) = true
  frame : ∀ g, Resident (mm.pgd g) → pagingPteFpn (mm.pgd g) < n
  absent : ∀ g, pagingPagePresent (mm.pgd g) = false → mm.pgd g = 0

structure Ctx.Bounded (n m : ℕ) (c : Ctx) : Prop where
  area : OneArea c.mm
  pages : PagesBounded n c.mm
  mram : DeviceBounded n c.dev.mram
  mswp : DeviceBounded m c.dev.mswp
  ramFree : ∀ fpn ∈ c.dev.mram.freeFpList, fpn < n
  swpFree : ∀ fpn ∈ c.dev.mswp.freeFpList, fpn < m

/-- The bits that an entry has in the `FPN` field name one of `n` frames, also where the page is
swapped out and the bits are not a frame number. -/
def FpnBelow (n : ℕ) (pte : Pte) : Prop :=
  pagingPageSwapped pte = true → pagingPteFpn pte < n

/-- The page is a page of the table; an entry that is read as the entry of a page in RAM, its own
or that of the victim, names a frame; and where a victim is needed there is one. -/
structure Ctx.PageInBounds (n : ℕ) (c : Ctx) (g : ℕ) : Prop where
  lt : g < pagingMaxPgn
  hit : pagingPagePresent (c.mm.pgd g) = true → FpnBelow n (c.mm.pgd g)
  fifo : pagingPagePresent (c.mm.pgd g) = false → c.mm.fifoPgn ≠ []
  victim : pagingPagePresent (c.mm.pgd g) = false → c.dev.mswp.freeFpList ≠ [] →
    ∀ vic ∈ c.mm.fifoPgn.getLast?, FpnBelow n (c.mm.pgd vic)

variable {n m : ℕ} {c c' : Ctx} {g : ℕ}

theorem PagesBounded.fpn_lt {mm : Mm} (h : PagesBounded n mm)
    (hp : pagingPagePresent (mm.pgd g) = true) (hsw : FpnBelow n (mm.pgd g)) :
    pagingPteFpn (mm.pgd g) < n := by
  cases hs : pagingPageSwapped (mm.pgd g) with
  | true => exact hsw hs
  | false => exact h.frame g ⟨hp, hs⟩

theorem Ctx.Bounded.victim {vic : ℕ} (h : c.Bounded n m) (hg : c.PageInBounds n g)
    (hp : pagingPagePresent (c.mm.pgd g) = false) (hfree : c.dev.mswp.freeFpList ≠ [])
    (hvic : vic ∈ c.mm.fifoPgn.getLast?) : pagingPteFpn (c.mm.pgd vic) < n :=
  h.pages.fpn_lt (h.pages.fifo vic (List.mem_of_getLast? hvic)).2 (hg.victim hp hfree vic hvic)

theorem Ctx.Bounded.fpn_lt [PteLaws] {fpn : ℕ} (h : c.Bounded n m) (hg : c.PageInBounds n g)
    (hs : PageStep c g (some fpn) c') : fpn < n := by
  cases hs with
  | hit hp =>
      rw [PteLaws.pagingFpn_eq]
      exact h.pages.fpn_lt hp (hg.hit hp)
  | @evict vic swpfpn rest _ _ _ hp hfifo hfree _ _ =>
      rw [PteLaws.pagingFpn_eq, evictPgd, Function.update_self,
        pagingPteFpn_pteSetFpn_pagingPteFpn]
      refine h.victim hg hp (by simp [hfree]) ?_
      rw [hfifo]
      exact List.getLast?_concat

/-! ### Page access -/

section access

omit [Header] in
theorem findVictimPage_eq {mm : Mm} {vic : ℕ} {rest : List ℕ} (h : mm.fifoPgn = rest ++ [vic]) :
    findVictimPage mm = (some vic, { mm with fifoPgn := rest }) := by
  rcases hv : findVictimPage mm with ⟨v, mm'⟩
  cases v with
  | none =>
      unfold findVictimPage at hv
      split at hv
      · rename_i hnil
        rw [hnil] at h
        simp at h
      · cases hv
  | some v =>
      obtain ⟨rest', hf, rfl⟩ := findVictimPage_some hv
      obtain ⟨rfl, he⟩ := List.append_inj' (hf.symm.trans h) rfl
      obtain rfl := (List.cons.inj he).1
      rfl

theorem pgReturn_returns (h : g < pagingMaxPgn) (c : Ctx) : ∃ r, pgReturn c g = .ok r := by
  unfold pgReturn
  dsimp only
  rw [Mm.pgdGet_eq_ok.mpr ⟨h, rfl⟩, ok_bind]
  exact ⟨_, rfl⟩

theorem sysMemmap_swp_returns {vicfpn swpfpn : ℕ} (hp : 0 < pagingPagesz) (c : Ctx)
    (hram : DeviceBounded n c.dev.mram) (hswp : DeviceBounded m c.dev.mswp) (hvic : vicfpn < n)
    (hfree : swpfpn < m) : ∃ regs dev,
      sysMemmap c ⟨uint32 sysmemSwpOp, uint32 vicfpn, uint32 swpfpn⟩ =
        .ok (0, regs, { c with dev }) ∧ SameDevices c.dev dev := by
  obtain ⟨dev, hdev⟩ := swapCpPage_returns (s := .mram) (d := .mswp) hram hvic hswp hfree
  rw [sysMemmap_swp, hram.int32_fpn hp hvic, hswp.int32_fpn hp hfree]
  simp only [mmSwapPage, hdev, ok_bind]
  exact ⟨_, dev, rfl, (ends_swapCpCells _ _ _ _ _ _ _).of_ok hdev⟩

theorem pgGetpage_returns (hp : 0 < pagingPagesz) (h : c.Bounded n m) (hg : c.PageInBounds n g) :
    ∃ r, pgGetpage c g = .ok r := by
  unfold pgGetpage
  rw [Mm.pgdGet_eq_ok.mpr ⟨hg.lt, rfl⟩, ok_bind]
  cases hpres : pagingPagePresent (c.mm.pgd g) with
  | true =>
      rw [if_pos rfl]
      exact pgReturn_returns hg.lt c
  | false =>
      rw [if_neg (by decide)]
      obtain ⟨rest, vic, hfifo⟩ := (List.eq_nil_or_concat' _).resolve_left (hg.fifo hpres)
      have hlast : vic ∈ c.mm.fifoPgn.getLast? := by
        rw [hfifo]
        exact List.getLast?_concat
      have hvic := (h.pages.fifo vic (List.mem_of_getLast? hlast)).1
      simp only [findVictimPage_eq hfifo, assigned, ok_bind]
      rw [Mm.pgdGet_eq_ok.mpr ⟨hvic, rfl⟩, ok_bind]
      cases hfree : c.dev.mswp.freeFpList with
      | nil =>
          simp only [Memphy.getFreefp, hfree]
          exact ⟨_, rfl⟩
      | cons swpfpn swprest =>
          have hfpn := h.victim hg hpres (by simp [hfree]) hlast
          have hswpfpn := h.swpFree swpfpn (by simp [hfree])
          have hmswp : DeviceBounded m { c.dev.mswp with freeFpList := swprest } :=
            h.mswp.of_same ⟨rfl, rfl⟩
          simp only [Memphy.getFreefp, hfree]
          obtain ⟨regs, dev₁, hcopy, hsame⟩ := sysMemmap_swp_returns hp
            ⟨{ c.mm with fifoPgn := rest },
              { c.dev with mswp := { c.dev.mswp with freeFpList := swprest } },
              c.activeMswpId, c.mmvmLock⟩ h.mram hmswp hfpn hswpfpn
          have hzero : pagingPteSwp (c.mm.pgd g) = 0 := by
            rw [h.pages.absent g hpres]
            exact pagingPteSwp_zero
          -- the page comes from swap frame 0
          obtain ⟨dev₂, hload⟩ := swapCpPage_returns (s := .mswp) (d := .mram)
            (hmswp.of_same hsame.2) (Nat.zero_lt_of_lt hswpfpn) (h.mram.of_same hsame.1) hfpn
          rw [hcopy, ok_bind]
          dsimp only
          rw [if_neg (by decide), Mm.pgdGet_eq_ok.mpr ⟨hvic, rfl⟩, ok_bind,
            Mm.pgdSet_eq_ok.mpr ⟨hvic, rfl⟩, ok_bind, hzero, hload, ok_bind,
            Mm.pgdGet_eq_ok.mpr ⟨hg.lt, rfl⟩, ok_bind, Mm.pgdSet_eq_ok.mpr ⟨hg.lt, rfl⟩, ok_bind]
          exact pgReturn_returns hg.lt _

theorem DeviceBounded.phyAddr {mp : Memphy} {fpn : ℕ} (h : DeviceBounded n mp) (hfpn : fpn < n)
    (hoffst : ∀ a, pagingOffst a < pagingPagesz) (addr : ℤ) :
    0 ≤ int32 (phyAddr fpn (pagingOffst addr)) ∧
      int32 (phyAddr fpn (pagingOffst addr)) < mp.maxsz := by
  rw [int32_phyAddr]
  exact h.addr hfpn (hoffst addr)

variable [PteLaws] (hoffst : ∀ a, pagingOffst a < pagingPagesz) (h : c.Bounded n m)

include hoffst h

/-- The page access returns, and the address in the frame that it gives is in the RAM. -/
theorem pgGetpage_addr {addr : ℤ} (hg : c.PageInBounds n (pagingPgn addr)) :
    ∃ r c₁, pgGetpage c (pagingPgn addr) = .ok (r, c₁) ∧ c₁.dev.mram.rdmflg = true ∧
      ∀ fpn, r = some fpn → 0 ≤ int32 (phyAddr fpn (pagingOffst addr)) ∧
        int32 (phyAddr fpn (pagingOffst addr)) < c₁.dev.mram.maxsz := by
  obtain ⟨⟨r, c₁⟩, hpage⟩ := pgGetpage_returns (Nat.zero_lt_of_lt (hoffst 0)) h hg
  have hkeeps := (ends_pgGetpage c _).of_ok hpage
  refine ⟨r, c₁, hpage, hkeeps.mram.1.trans h.mram.rdmflg, ?_⟩
  rintro fpn rfl
  have hfpn := h.fpn_lt hg (pgGetpage_ok hpage).2
  exact (h.mram.of_same hkeeps.mram).phyAddr hfpn hoffst addr

theorem pgGetval_returns {addr : ℤ} (hg : c.PageInBounds n (pagingPgn addr)) :
    ∃ r, pgGetval c addr = .ok r := by
  obtain ⟨fpn, c₁, hpage, hrd, haddr⟩ := pgGetpage_addr hoffst h hg
  unfold pgGetval
  dsimp only
  rw [hpage, ok_bind]
  cases fpn with
  | none => exact ⟨_, rfl⟩
  | some fpn =>
      obtain ⟨h₀, h₁⟩ := haddr fpn rfl
      simp only [sysMemmap_ioRead, Memphy.read_eq hrd h₀ h₁, ok_bind]
      rw [if_neg (show ¬ (0 : ℤ) = -1 by decide)]
      exact ⟨_, rfl⟩

theorem pgSetval_returns {addr : ℤ} (hg : c.PageInBounds n (pagingPgn addr)) (value : Byte) :
    ∃ r, pgSetval c addr value = .ok r := by
  obtain ⟨fpn, c₁, hpage, hrd, haddr⟩ := pgGetpage_addr hoffst h hg
  unfold pgSetval
  dsimp only
  rw [hpage, ok_bind]
  cases fpn with
  | none => exact ⟨_, rfl⟩
  | some fpn =>
      obtain ⟨h₀, h₁⟩ := haddr fpn rfl
      simp only [sysMemmap_ioWrite, Memphy.write_eq hrd h₀ h₁, ok_bind]
      rw [if_neg (show ¬ (0 : ℤ) = -1 by decide)]
      exact ⟨_, rfl⟩

end access

/-! ### Allocation and release -/

/-- The index of an entry of the symbol table. -/
def SymId (rgid : ℤ) : Prop := 0 ≤ rgid ∧ rgid < pagingMaxSymtblSz

/-- Where no free region has `size` bytes: the first page above the area, and the number of pages
that its increase maps. -/
def Ctx.newPages (c : Ctx) (size : ℤ) : Option (ℕ × ℕ) :=
  match c.mm.mmap with
  | [] => none
  | vma :: _ =>
      match firstFit size vma.vmFreergList with
      | some _ => none
      | none => some (pagingPgn (int32 vma.vmEnd),
          ((pagingPageAlignsz size).tdiv pagingPagesz).toNat)

/-- The region id is that of an entry, and new pages are pages of the table; or there are too few
frames for them, and the call fails before it uses the id. -/
def Ctx.AllocInBounds (c : Ctx) (size rgid : ℤ) : Prop :=
  match c.newPages size with
  | none => SymId rgid
  | some (a, k) => c.dev.mram.freeFpList.length < k ∨
      SymId rgid ∧ (k = 0 ∨ a + k ≤ pagingMaxPgn)

section heap

variable {vma : VmArea}

omit [Header] in
theorem enlistVmFreergList_returns {mm : Mm} (h : OneArea mm) (rg : VmRg) :
    ∃ r, enlistVmFreergList mm rg = .ok r := by
  obtain ⟨vma, hm, _⟩ := h
  exact ⟨_, enlistVmFreergList_eq hm rg⟩

/-- The only area determines the pages of an increase. -/
theorem growth_single {mm : Mm} {size : ℤ} {a k : ℕ} (hm : mm.mmap = [vma]) (hid : vma.vmId = 0)
    (h : Growth mm 0 size a k) : a = pagingPgn (int32 vma.vmEnd) ∧
      k = ((pagingPageAlignsz size).tdiv pagingPagesz).toNat := by
  obtain ⟨curVma, vma', hcur, hvma, ha, hk⟩ := h
  rw [getVmaByNum_single hm hid] at hcur
  obtain rfl := Except.ok.inj hcur
  rw [Mm.area_single hm] at hvma
  obtain rfl := Except.ok.inj hvma
  exact ⟨ha, hk⟩

theorem incVmaLimit_returns (size : ℤ) (hm : c.mm.mmap = [vma]) (hid : vma.vmId = 0)
    (hk : c.dev.mram.freeFpList.length < ((pagingPageAlignsz size).tdiv pagingPagesz).toNat ∨
      ((pagingPageAlignsz size).tdiv pagingPagesz).toNat = 0 ∨
      pagingPgn (int32 vma.vmEnd) + ((pagingPageAlignsz size).tdiv pagingPagesz).toNat ≤
        pagingMaxPgn) : ∃ r, incVmaLimit c 0 size = .ok r := by
  rw [incVmaLimit_single hm hid]
  exact bind_returns (vmMapRam_returns hk) fun r _ => ⟨_, rfl⟩

theorem alloc_returns {rgid size : ℤ} (hlock : c.mmvmLock = false) (hm : c.mm.mmap = [vma])
    (hid : vma.vmId = 0) (hc : c.AllocInBounds (int32 size) rgid) :
    ∃ r, alloc c 0 rgid (int32 size) = .ok r := by
  unfold Ctx.AllocInBounds Ctx.newPages at hc
  simp only [hm] at hc
  cases hf : firstFit (int32 size) vma.vmFreergList with
  | some r =>
      rw [hf] at hc
      obtain ⟨rg, l, hfree⟩ := (getFreeVmrgArea_single hm hid (int32 size)).2 r hf
      unfold alloc
      rw [Ctx.lock_eq hlock, ok_bind]
      dsimp only
      rw [hfree, ok_bind]
      dsimp only
      rw [Mm.symSet_eq_ok.mpr ⟨hc, rfl⟩, ok_bind]
      exact ⟨_, rfl⟩
  | none =>
      rw [hf] at hc
      dsimp only at hc
      rw [alloc_of_none hm hid hlock hf, int32_int32]
      obtain ⟨⟨st, c₁⟩, hinc⟩ := incVmaLimit_returns (c := { c with mmvmLock := true })
        (int32 size) hm hid (hc.imp_right And.right)
      obtain ⟨vma₁, hm₁, hid₁⟩ := ((ends_incVmaLimit _ _ _).of_ok hinc).area ⟨vma, hm, hid⟩
      simp only [hinc, ok_bind, Mm.area_single hm₁]
      split_ifs with hst
      · exact ⟨_, rfl⟩
      · obtain ⟨_, ⟨rfl, _⟩ | ⟨_, a, k, hg, hk, _⟩⟩ := incVmaLimit_ok hinc
        · exact absurd (show (-1 : ℤ) < 0 by decide) hst
        · obtain ⟨_, rfl⟩ := growth_single hm hid hg
          have hrg := (hc.resolve_left (Nat.not_lt_of_le hk)).1
          rw [Mm.symSet_eq_ok.mpr ⟨hrg, rfl⟩, ok_bind]
          refine bind_returns (enlistVmFreergList_returns ?_ _) fun r _ => ⟨_, rfl⟩
          exact ⟨vma₁, hm₁, hid₁⟩

/-- The three ways in which an allocation on the only area ends: in a free node, with the old end
put back for want of frames, or in new pages. -/
inductive AllocEnd (c : Ctx) (vma : VmArea) (size : ℤ) : Option ℤ → Ctx → Prop
  | fit {addr : ℤ} {l : List VmRg} {symrgtbl : ℕ → VmRg} : c.newPages size = none →
      AllocEnd c vma size (some addr) (c.withHeap [{ vma with vmFreergList := l }] symrgtbl)
  | oom {a k : ℕ} : c.newPages size = some (a, k) → c.dev.mram.freeFpList.length < k →
      AllocEnd c vma size none (c.withHeap
        [{ vma with vmEnd := ulong (int32 vma.vmEnd), sbrk := ulong (int32 vma.sbrk) }]
        c.mm.symrgtbl)
  | grow {a k : ℕ} {addr : ℤ} {l : List VmRg} {symrgtbl : ℕ → VmRg} :
      c.newPages size = some (a, k) → k ≤ c.dev.mram.freeFpList.length →
      AllocEnd c vma size (some addr) ((c.withHeap
        [{ vma.raised (pagingPageAlignsz size) with vmFreergList := l }] symrgtbl).grown a k)

theorem allocEnd_of_ok {rgid size : ℤ} {r : Option ℤ} (hm : c.mm.mmap = [vma])
    (hid : vma.vmId = 0) (he : alloc c 0 rgid (int32 size) = .ok (r, c')) :
    c.mmvmLock = false ∧ AllocEnd c vma (int32 size) r c' := by
  have hlock := alloc_ok he |>.1
  refine ⟨hlock, ?_⟩
  have hdone := Ctx.unlock_withHeap hlock
  have hgrown : ∀ mmap symrgtbl mmap' symrgtbl' a k,
      ({ (({ c with mmvmLock := true } : Ctx).withHeap mmap symrgtbl).grown a k with
        mm := { ((({ c with mmvmLock := true } : Ctx).withHeap mmap symrgtbl).grown a k).mm with
          mmap := mmap', symrgtbl := symrgtbl' } } : Ctx).unlock =
        (c.withHeap mmap' symrgtbl').grown a k := by
    intro mmap symrgtbl mmap' symrgtbl' a k
    simp [Ctx.unlock, Ctx.withHeap, Ctx.grown, Mm.mapped, hlock]
  cases hf : firstFit (int32 size) vma.vmFreergList with
  | some x =>
      obtain ⟨rg, l, hfree⟩ := (getFreeVmrgArea_single hm hid (int32 size)).2 x hf
      have hnew : c.newPages (int32 size) = none := by simp [Ctx.newPages, hm, hf]
      unfold alloc at he
      rw [Ctx.lock_eq hlock, ok_bind] at he
      dsimp only at he
      rw [hfree, ok_bind] at he
      simp only [bind_eq_ok, Mm.symSet_eq_ok, Except.ok.injEq, Prod.mk.injEq] at he
      obtain ⟨_, ⟨_, rfl⟩, rfl, rfl⟩ := he
      rw [hdone]
      exact .fit hnew
  | none =>
      have hnew : c.newPages (int32 size) = some (pagingPgn (int32 vma.vmEnd),
          ((pagingPageAlignsz (int32 size)).tdiv pagingPagesz).toNat) := by
        simp [Ctx.newPages, hm, hf]
      rw [alloc_of_none hm hid hlock hf, int32_int32] at he
      obtain ⟨⟨st, c₁⟩, hinc, he⟩ := bind_eq_ok.mp he
      obtain ⟨vma₁, hvma₁, he⟩ := bind_eq_ok.mp he
      dsimp only at hvma₁ he
      rcases incVmaLimit_single_ok (c := { c with mmvmLock := true }) hm hid hinc with
        ⟨rfl, hk, rfl⟩ | ⟨rfl, hk, rfl⟩
      · rw [Mm.area_single rfl] at hvma₁
        obtain rfl := Except.ok.inj hvma₁
        rw [if_pos (by decide), Mm.setArea_single rfl] at he
        obtain ⟨rfl, rfl⟩ := Prod.mk.inj (Except.ok.inj he)
        have hend : AllocEnd c vma (int32 size) none _ := .oom hnew hk
        rw [← hdone] at hend
        exact hend
      · rw [Mm.area_single rfl] at hvma₁
        obtain rfl := Except.ok.inj hvma₁
        rw [if_neg (by decide)] at he
        simp only [bind_eq_ok, Mm.symSet_eq_ok, Except.ok.injEq, Prod.mk.injEq] at he
        obtain ⟨_, ⟨_, rfl⟩, ⟨_, mm⟩, henl, rfl, rfl⟩ := he
        rw [enlistVmFreergList_eq rfl] at henl
        obtain ⟨_, rfl⟩ := Prod.mk.inj (Except.ok.inj henl)
        rw [hgrown]
        exact .grow hnew hk

theorem free_returns {rgid : ℤ} (hlock : c.mmvmLock = false) (hm : c.mm.mmap = [vma])
    (hvma : vma.vmId = 0) (hrg : rgid ≠ pagingMaxSymtblSz) : ∃ r, free c rgid = .ok r := by
  unfold free
  rw [Ctx.lock_eq hlock, ok_bind]
  split_ifs with hid
  · exact ⟨_, rfl⟩
  · have hsym : 0 ≤ rgid ∧ rgid < pagingMaxSymtblSz := by omega
    rw [Mm.symGet_eq_ok.mpr ⟨hsym, rfl⟩, ok_bind]
    dsimp only
    rw [hm]
    dsimp only
    refine bind_returns (enlistVmFreergList_returns ?_ _) ?_
    · exact ⟨_, rfl, hvma⟩
    · rintro ⟨st, mm⟩ _
      dsimp only
      split_ifs
      · exact ⟨_, rfl⟩
      · rw [Mm.symSet_eq_ok.mpr ⟨hsym, rfl⟩, ok_bind]
        exact ⟨_, rfl⟩

end heap

/-! ### The calls -/

/-- Under this condition the call accesses the arrays in bounds.  An id that is refused is one. -/
def InBounds (n : ℕ) (c : Ctx) : Call → Prop
  | .alloc size regIndex => c.AllocInBounds (int32 size) (int32 regIndex)
  | .free regIndex => int32 regIndex ≠ pagingMaxSymtblSz
  | .read source offset _ => NamedRg (int32 source) →
      int32 source ≠ pagingMaxSymtblSz ∧ c.PageInBounds n (pagingPgn (c.addr source offset))
  | .write _ destination offset => NamedRg (int32 destination) →
      int32 destination ≠ pagingMaxSymtblSz ∧
        c.PageInBounds n (pagingPgn (c.addr destination offset))
  | .memmap _ => False

theorem InBounds.ne_memmap {cl : Call} (hin : InBounds n c cl) : ∀ regs, cl ≠ .memmap regs := by
  rintro regs rfl
  exact hin

section calls

variable [PteLaws] {cl : Call} (hoffst : ∀ a, pagingOffst a < pagingPagesz)
  (h : c.Bounded n m) (hin : InBounds n c cl)

include hoffst h hin

theorem Ctx.Bounded.call_returns (hlock : c.mmvmLock = false) : ∃ r, c.call cl = .ok r := by
  obtain ⟨vma, hm, hid⟩ := h.area
  cases cl with
  | alloc size regIndex =>
      unfold Ctx.call liballoc
      refine bind_returns (bind_returns ?_ fun r _ => ⟨_, rfl⟩) fun r _ => ⟨_, rfl⟩
      exact alloc_returns hlock hm hid hin
  | free regIndex =>
      exact bind_returns (free_returns hlock hm hid hin) fun r _ => ⟨_, rfl⟩
  | read source offset data₀ =>
      by_cases hrg : NamedRg (int32 source)
      · obtain ⟨hne, hpage⟩ := hin hrg
        have hsym : 0 ≤ int32 source ∧ int32 source < pagingMaxSymtblSz := by
          unfold NamedRg at hrg
          omega
        unfold Ctx.call libread
        refine bind_returns (bind_returns ?_ fun r _ => ⟨_, rfl⟩) fun r _ => ⟨_, rfl⟩
        rw [read_named hlock h.area hrg, Mm.symGet_eq_ok.mpr ⟨hsym, rfl⟩, ok_bind]
        refine bind_returns (pgGetval_returns hoffst (n := n) (m := m) ?_ ?_) fun r _ => ⟨_, rfl⟩
        · exact ⟨h.area, h.pages, h.mram, h.mswp, h.ramFree, h.swpFree⟩
        · exact ⟨hpage.lt, hpage.hit, hpage.fifo, hpage.victim⟩
      · have hrg : ¬ (Call.read source offset data₀).Named := hrg
        obtain ⟨val, he⟩ := Ctx.call_not_named hlock h.area hrg
        exact ⟨_, he⟩
  | write data destination offset =>
      by_cases hrg : NamedRg (int32 destination)
      · obtain ⟨hne, hpage⟩ := hin hrg
        have hsym : 0 ≤ int32 destination ∧ int32 destination < pagingMaxSymtblSz := by
          unfold NamedRg at hrg
          omega
        unfold Ctx.call libwrite
        refine bind_returns ?_ fun r _ => ⟨_, rfl⟩
        rw [write_named hlock h.area hrg, Mm.symGet_eq_ok.mpr ⟨hsym, rfl⟩, ok_bind]
        refine bind_returns (pgSetval_returns hoffst (n := n) (m := m) ?_ ?_ data)
          fun r _ => ⟨_, rfl⟩
        · exact ⟨h.area, h.pages, h.mram, h.mswp, h.ramFree, h.swpFree⟩
        · exact ⟨hpage.lt, hpage.hit, hpage.fifo, hpage.victim⟩
      · have hrg : ¬ (Call.write data destination offset).Named := hrg
        obtain ⟨val, he⟩ := Ctx.call_not_named hlock h.area hrg
        exact ⟨_, he⟩
  | memmap regs => exact absurd hin id

/-- A call in bounds returns, or it waits for the lock. -/
theorem Ctx.Bounded.call_defined : c.call cl ≠ .error .undefined := by
  cases hlock : c.mmvmLock with
  | true =>
      rw [Ctx.call_locked hlock hin.ne_memmap]
      simp
  | false =>
      obtain ⟨r, hr⟩ := h.call_returns hoffst hin hlock
      rw [hr]
      simp

end calls

/-! ### What a call keeps -/

section keeps

variable [PteLaws]

theorem PageStep.pagesBounded {r : Option ℕ} (h : c.Bounded n m) (hg : c.PageInBounds n g)
    (hs : PageStep c g r c') : PagesBounded n c'.mm := by
  have habs : ∀ g', pagingPagePresent (c'.mm.pgd g') = false → c'.mm.pgd g' = c.mm.pgd g' :=
    fun g' => hs.pgd_of_absent
  have hpres : ∀ g', pagingPagePresent (c.mm.pgd g') = true →
      pagingPagePresent (c'.mm.pgd g') = true := by
    intro g' hp
    by_contra hp'
    rw [Bool.not_eq_true] at hp'
    rw [habs g' hp', hp] at hp'
    cases hp'
  refine ⟨?_, ?_, fun g' ha => ?_⟩
  · intro g' hmem
    cases hs with
    | hit hp =>
        cases List.mem_cons.mp hmem with
        | inl he =>
            subst he
            exact ⟨hg.lt, hp⟩
        | inr hmem => exact h.pages.fifo g' hmem
    | full _ hfifo _ =>
        apply h.pages.fifo g'
        rw [hfifo]
        exact List.mem_append_left _ hmem
    | @evict vic swpfpn rest _ _ _ _ hfifo _ _ _ =>
        cases List.mem_cons.mp hmem with
        | inl he =>
            subst he
            exact ⟨hg.lt, (resident_evictPgd g').1⟩
        | inr hmem =>
            have hold := h.pages.fifo g' (by
              rw [hfifo]
              exact List.mem_append_left _ hmem)
            exact ⟨hold.1, hpres g' hold.2⟩
  · intro g' hres
    cases hs with
    | hit _ => exact h.pages.frame g' hres
    | full _ _ _ => exact h.pages.frame g' hres
    | @evict vic swpfpn rest _ _ _ hp hfifo hfree _ _ =>
        by_cases he : g' = g
        · subst he
          have hlast : vic ∈ c.mm.fifoPgn.getLast? := by
            rw [hfifo]
            exact List.getLast?_concat
          have hvic := h.victim hg hp (by simp [hfree]) hlast
          show pagingPteFpn (evictPgd c g' vic swpfpn g') < n
          rw [evictPgd, Function.update_self, pagingPteFpn_pteSetFpn_pagingPteFpn]
          exact hvic
        · simp only [evictPgd_of_ne he] at hres ⊢
          split_ifs at hres ⊢
          · exact absurd hres (not_resident_pteSetSwap _ _ _)
          · exact h.pages.frame g' hres
  · have he := habs g' ha
    rw [he] at ha ⊢
    exact h.pages.absent g' ha

omit [PteLaws] in
/-- A page access takes no RAM frame and at most one swap frame. -/
theorem PageStep.freeFpList {r : Option ℕ} (hs : PageStep c g r c') :
    c'.dev.mram.freeFpList = c.dev.mram.freeFpList ∧
      ∀ fpn ∈ c'.dev.mswp.freeFpList, fpn ∈ c.dev.mswp.freeFpList := by
  cases hs with
  | hit _ => exact ⟨rfl, fun _ => id⟩
  | full _ _ _ => exact ⟨rfl, fun _ => id⟩
  | evict _ _ hfree _ _ =>
      refine ⟨rfl, fun fpn hmem => ?_⟩
      rw [hfree]
      exact List.mem_cons_of_mem _ hmem

theorem PagesBounded.mapped {mm : Mm} {a : ℕ} {frames : List ℕ} (h : PagesBounded n mm)
    (ha : frames = [] ∨ a + frames.length ≤ pagingMaxPgn) (hfree : ∀ fpn ∈ frames, fpn < n) :
    PagesBounded n (mm.mapped a frames) := by
  refine ⟨?_, ?_, ?_⟩
  · intro g' hmem
    cases List.mem_append.mp hmem with
    | inl hmem =>
        rw [List.mem_reverse, List.mem_range'_1] at hmem
        obtain ⟨i, rfl⟩ : ∃ i, g' = a + i := ⟨g' - a, by omega⟩
        have hi : i < frames.length := by omega
        refine ⟨?_, ?_⟩
        · rcases ha with rfl | ha
          · exact absurd hi (Nat.not_lt_zero _)
          · omega
        · show pagingPagePresent (mapPages mm.pgd a frames (a + i)) = true
          rw [mapPages_get frames mm.pgd a hi]
          exact present_pteSetFpn _ _
    | inr hmem =>
        obtain ⟨hlt, hp⟩ := h.fifo g' hmem
        refine ⟨hlt, ?_⟩
        show pagingPagePresent (mapPages mm.pgd a frames g') = true
        rcases mapPages_cases frames mm.pgd a g' with he | ⟨_, _, he⟩
        · rw [he]
          exact hp
        · rw [he]
          exact present_pteSetFpn _ _
  · intro g' hres
    change Resident (mapPages mm.pgd a frames g') at hres
    show pagingPteFpn (mapPages mm.pgd a frames g') < n
    rcases mapPages_cases frames mm.pgd a g' with he | ⟨fpn, hmem, he⟩
    · rw [he] at hres ⊢
      exact h.frame g' hres
    · rw [he]
      exact lt_of_le_of_lt (pagingPteFpn_pteSetFpn_le _ _) (hfree fpn hmem)
  · intro g' habs
    change pagingPagePresent (mapPages mm.pgd a frames g') = false at habs
    show mapPages mm.pgd a frames g' = 0
    rcases mapPages_cases frames mm.pgd a g' with he | ⟨fpn, _, he⟩
    · rw [he] at habs ⊢
      exact h.absent g' habs
    · rw [he, present_pteSetFpn] at habs
      cases habs

omit [PteLaws] in
/-- The pages that an allocation in bounds maps are pages of the table. -/
theorem Ctx.AllocInBounds.grows {size regIndex a k : ℕ} {rgid : ℤ}
    (hc : c.AllocInBounds (int32 size) rgid) (harea : OneArea c.mm)
    (hg : c.Grows (.alloc size regIndex) a k) (hk : k ≤ c.dev.mram.freeFpList.length) :
    k = 0 ∨ a + k ≤ pagingMaxPgn := by
  obtain ⟨vma, hm, hid⟩ := harea
  obtain ⟨hnone, hgrow⟩ := hg
  obtain ⟨rfl, rfl⟩ := growth_single hm hid hgrow
  unfold Ctx.AllocInBounds Ctx.newPages at hc
  simp only [hm] at hc
  cases hf : firstFit (int32 size) vma.vmFreergList with
  | some r =>
      obtain ⟨rg, l, hsome⟩ := (getFreeVmrgArea_single hm hid (int32 size)).2 r hf
      rw [hsome] at hnone
      cases hnone
  | none =>
      rw [hf] at hc
      exact (hc.resolve_left (Nat.not_lt_of_le hk)).2

omit [PteLaws] in
theorem InBounds.page {cl : Call} (hin : InBounds n c cl) (hcl : cl.Named)
    (hg : c.page cl = some g) : c.PageInBounds n g := by
  cases cl with
  | alloc _ _ => cases hg
  | free _ => cases hg
  | memmap _ => cases hg
  | read source offset data₀ =>
      obtain rfl := Ctx.page_read_some hg
      exact (hin hcl).2
  | write data destination offset =>
      obtain rfl := Ctx.page_write_some hg
      exact (hin hcl).2

theorem Ctx.Bounded.step {cl : Call} {st : ℤ} {val : Option ℕ} (h : c.Bounded n m)
    (hin : InBounds n c cl) (hcall : c.call cl = .ok (st, val, c')) : c'.Bounded n m := by
  have hk := Ctx.kept_of_ok h.area hcall
  have hdone : PagesBounded n c'.mm → (∀ fpn ∈ c'.dev.mram.freeFpList, fpn < n) →
      (∀ fpn ∈ c'.dev.mswp.freeFpList, fpn < m) → c'.Bounded n m := fun hpages hram hswp =>
    ⟨hk.area h.area, hpages, h.mram.of_same hk.mram, h.mswp.of_same hk.mswp, hram, hswp⟩
  by_cases hcl : cl.Named
  · cases callStep_of_ok hcall with
    | heap mmap symrgtbl =>
        exact hdone ⟨h.pages.fifo, h.pages.frame, h.pages.absent⟩ h.ramFree h.swpFree
    | @grow _ mmap symrgtbl a k hg hle =>
        have ha : k = 0 ∨ a + k ≤ pagingMaxPgn := by
          cases cl with
          | alloc size regIndex => exact hin.grows h.area hg hle
          | memmap regs => exact absurd hin id
          | free _ => exact absurd hg id
          | read _ _ _ => exact absurd hg id
          | write _ _ _ => exact absurd hg id
        have hlen : (c.dev.mram.freeFpList.take k).reverse.length = k := by simpa using hle
        have hpages : PagesBounded n (c.withHeap mmap symrgtbl).mm :=
          ⟨h.pages.fifo, h.pages.frame, h.pages.absent⟩
        refine hdone (hpages.mapped ?_ fun fpn hmem => ?_) (fun fpn hmem => ?_) h.swpFree
        · show (c.dev.mram.freeFpList.take k).reverse = [] ∨
            a + (c.dev.mram.freeFpList.take k).reverse.length ≤ pagingMaxPgn
          rwa [← List.length_eq_zero_iff, hlen]
        · exact h.ramFree fpn (List.mem_of_mem_take (List.mem_reverse.mp hmem))
        · exact h.ramFree fpn (List.mem_of_mem_drop hmem)
    | lock _ => exact hdone h.pages h.ramFree h.swpFree
    | access hg hs =>
        obtain ⟨hram, hswp⟩ := hs.freeFpList
        exact hdone (hs.pagesBounded h (hin.page hcl hg)) (hram ▸ h.ramFree)
          fun fpn hmem => h.swpFree fpn (hswp fpn hmem)
    | write hg hs _ =>
        obtain ⟨hram, hswp⟩ := hs.freeFpList
        have hpages := hs.pagesBounded h (hin.page hcl hg)
        exact hdone ⟨hpages.fifo, hpages.frame, hpages.absent⟩
          (fun fpn hmem => h.ramFree fpn (hram ▸ hmem))
          fun fpn hmem => h.swpFree fpn (hswp fpn hmem)
    | swap _ _ => exact absurd hin id
    | ioWrite _ _ => exact absurd hin id
  · -- the id is refused, and nothing but the lock has changed
    cases hlock : c.mmvmLock with
    | true =>
        rw [Ctx.call_locked hlock hin.ne_memmap] at hcall
        cases hcall
    | false =>
        obtain ⟨val', he⟩ := Ctx.call_not_named hlock h.area hcl
        rw [he] at hcall
        obtain ⟨_, hres⟩ := Prod.mk.inj (Except.ok.inj hcall)
        obtain ⟨_, rfl⟩ := Prod.mk.inj hres
        exact ⟨h.area, h.pages, h.mram, h.mswp, h.ramFree, h.swpFree⟩

end keeps

/-! ### The memory system -/

structure Sys.Bounded (n m : ℕ) (s : Sys) : Prop where
  procs : ∀ p pr, s.procs p = some pr → OneArea pr.mm ∧ PagesBounded n pr.mm
  mram : DeviceBounded n s.dev.mram
  mswp : DeviceBounded m s.dev.mswp
  ramFree : ∀ fpn ∈ s.dev.mram.freeFpList, fpn < n
  swpFree : ∀ fpn ∈ s.dev.mswp.freeFpList, fpn < m

theorem Booted.bounded {s : Sys} (h : Booted n m s) : s.Bounded n m where
  procs := by simp [h.procs]
  mram := ⟨h.ram_rdmflg, h.ram_maxsz, h.ram_int⟩
  mswp := ⟨h.swp_rdmflg, h.swp_maxsz, h.swp_int⟩
  ramFree := by simp [h.ram]
  swpFree := by simp [h.swp]

theorem Sys.Bounded.ctx {s : Sys} {p : ℕ} {pr : Process} (h : s.Bounded n m)
    (hp : s.procs p = some pr) : (s.ctx pr).Bounded n m :=
  ⟨(h.procs p pr hp).1, (h.procs p pr hp).2, h.mram, h.mswp, h.ramFree, h.swpFree⟩

theorem Sys.Bounded.step [PteLaws] {s s' : Sys} {e : Event} (h : s.Bounded n m)
    (hs : MemStep s e s') (hin : Calls (InBounds n) s e) (hclear : Cleared e) :
    s'.Bounded n m := by
  cases hs with
  | call hp hc =>
      have hb := (h.ctx hp).step (hin _ hp) hc
      refine ⟨?_, hb.mram, hb.mswp, hb.ramFree, hb.swpFree⟩
      apply forall_enter
      · exact ⟨hb.area, hb.pages⟩
      · exact fun q qr _ => h.procs q qr
  | load mm₀ pgd₀ activeMswpId _ =>
      have hzero : ∀ g, pgd₀ g = 0 := hclear
      refine ⟨?_, h.mram, h.mswp, h.ramFree, h.swpFree⟩
      apply forall_enter
      · refine ⟨⟨_, rfl, rfl⟩, fun g hg => absurd hg List.not_mem_nil, fun g hres => ?_,
          fun g _ => hzero g⟩
        have hp := hres.1
        rw [show (initMm mm₀ pgd₀).pgd g = 0#32 from hzero g, present_zero] at hp
        cases hp
      · exact fun q qr _ => h.procs q qr
  | release _ => exact ⟨forall_remove h.procs, h.mram, h.mswp, h.ramFree, h.swpFree⟩

end

/-! ### The ready queues -/

section queues

variable [SchedHeader]

/-- The queues that one attempt of `get_mlq_proc` looks at: up to the one that it serves. -/
def Sched.attemptIndices (s : Sched) : List ℕ :=
  match (Sched.getAttempt 0 maxPrio s).1 with
  | some (i, _) => List.range (i + 1)
  | none => List.range maxPrio

/-- The queues that `get_mlq_proc` looks at. -/
def Sched.getIndices (s : Sched) : List ℕ :=
  match Sched.getAttempt 0 maxPrio s with
  | (some _, _) => s.attemptIndices
  | (none, s') => s.attemptIndices ++ s'.resetSlots.attemptIndices

/-- The indices into `mlq_ready_queue` that an event uses. -/
inductive Cpus.Uses (s : Cpus) : CpuEvent → ℕ → Prop
  | add {proc : Pcb} : Uses s (.add proc) proc.prio
  | get {cpu i : ℕ} : i ∈ s.sched.getIndices → Uses s (.get cpu) i
  | put {cpu : ℕ} {proc : Pcb} : s.held cpu = some proc → Uses s (.put cpu) proc.prio
  | killall {prio : ℕ} {procName : String} : prio < maxPrio →
      Uses s (.killall prio procName) prio

/-- The steps of the CPUs when the loader adds processes of any priority, as the code does. -/
inductive AnyPrioStep (s : Cpus) : CpuEvent → Cpus → Prop
  | add {proc : Pcb} : AnyPrioStep s (.add proc) { s.enlist proc with added := proc :: s.added }
  | cpu {e : CpuEvent} {s' : Cpus} : CpuStep s e s' → AnyPrioStep s e s'

def anyPrioLts : Lts Cpus CpuEvent := ⟨AnyPrioStep⟩

/-- A process that the loader adds has a priority below `MAX_PRIO`. -/
def PrioInRange : CpuEvent → Prop
  | .add proc => proc.prio < maxPrio
  | .get _ => True
  | .put _ => True
  | .finish _ => True
  | .killall _ _ => True

/-- The processes of the ready queues and of the CPUs have a queue. -/
structure PrioBounded (s : Cpus) : Prop where
  ready : ∀ i, ∀ proc ∈ s.sched.ready i, proc.prio < maxPrio
  held : ∀ cpu proc, s.held cpu = some proc → proc.prio < maxPrio

variable {s s' : Cpus} {e : CpuEvent}

theorem PrioBounded.enlist {proc : Pcb} (h : PrioBounded s) (hprio : proc.prio < maxPrio) :
    ∀ i, ∀ q ∈ (s.sched.requeue proc).ready i, q.prio < maxPrio := by
  intro i q hq
  cases mem_ready_enlist hq with
  | inl hq => exact h.ready i q hq
  | inr hq => exact hq.1 ▸ hprio

theorem PrioBounded.get (h : PrioBounded s) (cpu : ℕ) : PrioBounded { s with
    sched := s.sched.getProc.2
    held := Function.update s.held cpu s.sched.getProc.1 } := by
  cases Sched.getProc_cases (s := s.sched) with
  | inl hidle =>
      rw [hidle]
      exact ⟨h.ready, forall_remove h.held⟩
  | inr hget =>
      obtain ⟨i, proc, rest, hproc, hcons, hready, _⟩ := hget
      have hsub : ∀ j, ∀ q ∈ s.sched.getProc.2.ready j, q ∈ s.sched.ready j := by
        intro j q hq
        rw [hready, Function.update_apply] at hq
        split_ifs at hq with he
        · rw [he, hcons]
          exact List.mem_cons_of_mem proc hq
        · exact hq
      refine ⟨fun j q hq => h.ready j q (hsub j q hq), ?_⟩
      rw [hproc]
      apply forall_enter
      · apply h.ready i
        rw [hcons]
        exact List.mem_cons_self
      · exact fun cpu' q _ => h.held cpu' q

theorem PrioBounded.step (h : PrioBounded s) (hs : AnyPrioStep s e s') (hprio : PrioInRange e) :
    PrioBounded s' := by
  cases hs with
  | add => exact ⟨h.enlist hprio, h.held⟩
  | cpu hs =>
      cases hs with
      | add hlt _ => exact ⟨h.enlist hlt, h.held⟩
      | get _ => exact h.get _
      | put hheld => exact ⟨h.enlist (h.held _ _ hheld), forall_remove h.held⟩
      | finish _ => exact ⟨h.ready, forall_remove h.held⟩
      | @killall prio _ _ _ _ =>
          refine ⟨fun j q hq => ?_, h.held⟩
          unfold Cpus.kill at hq
          rw [Sched.ready_update, Function.update_apply] at hq
          split_ifs at hq with he
          · rw [QueueT.toList_dequeueRunning] at hq
            exact h.ready prio q (List.mem_of_mem_eraseP hq)
          · exact h.ready j q hq

theorem mem_attemptIndices {t : Sched} {i : ℕ} (hi : i ∈ t.attemptIndices) :
    i < maxPrio := by
  unfold Sched.attemptIndices at hi
  cases Sched.getAttempt_cases (s := t) maxPrio 0 with
  | inl hget =>
      obtain ⟨j, proc, _, _, hlt, _, _, _, hget⟩ := hget
      rw [hget] at hi
      have := List.mem_range.mp hi
      omega
  | inr hget =>
      rw [hget.2] at hi
      exact List.mem_range.mp hi

theorem PrioBounded.uses {i : ℕ} (h : PrioBounded s) (hprio : PrioInRange e) (hu : s.Uses e i) :
    i < maxPrio := by
  cases hu with
  | add => exact hprio
  | get hi =>
      unfold Sched.getIndices at hi
      split at hi
      · exact mem_attemptIndices hi
      · cases List.mem_append.mp hi with
        | inl hi => exact mem_attemptIndices hi
        | inr hi => exact mem_attemptIndices hi
  | put hheld => exact h.held _ _ hheld
  | killall hlt => exact hlt

theorem prioBounded_start : PrioBounded Cpus.start := by
  constructor <;> simp [Cpus.start, Sched.initScheduler, Sched.zero, Sched.ready,
    Sched.resetSlots]

end queues

/-! ### Runs -/

/-- **Array bounds.**  In every state that is reached by calls in bounds, by processes that are
loaded into cleared memory and by priorities in range, the next call in bounds accesses the arrays
of the memory system in bounds, and the next event the ready queues. -/
theorem accesses_in_bounds [Header] [PteLaws] [SchedHeader]
    (hoffst : ∀ a, pagingOffst a < pagingPagesz) {n m : ℕ} {s₀ s : Sys} {es : List Event}
    (h₀ : Booted n m s₀)
    (hr : (memLts.restrict fun s e => Calls (InBounds n) s e ∧ Cleared e).Run s₀ es s) {t : Cpus}
    {es' : List CpuEvent} (hr' : (anyPrioLts.restrict fun _ e => PrioInRange e).Run .start es' t) :
    (∀ p pr cl, s.procs p = some pr → InBounds n (s.ctx pr) cl →
      (s.ctx pr).call cl ≠ .error .undefined) ∧
    ∀ e i, PrioInRange e → t.Uses e i → i < maxPrio := by
  have h : s.Bounded n m :=
    hr.invariant (fun _ _ _ h hs => h.step hs.1 hs.2.1 hs.2.2) h₀.bounded
  have h' : PrioBounded t :=
    hr'.invariant (fun _ _ _ h hs => h.step hs.1 hs.2) prioBounded_start
  exact ⟨fun p pr cl hp hin => (h.ctx hp).call_defined hoffst hin,
    fun e i hprio hu => h'.uses hprio hu⟩

section decidable

variable [Header]

instance (rgid : ℤ) : Decidable (SymId rgid) := inferInstanceAs (Decidable (_ ∧ _))

instance (c : Ctx) (size rgid : ℤ) : Decidable (c.AllocInBounds size rgid) :=
  match h : c.newPages size with
  | none => decidable_of_iff (SymId rgid) (by simp [Ctx.AllocInBounds, h])
  | some (a, k) => decidable_of_iff (c.dev.mram.freeFpList.length < k ∨
      SymId rgid ∧ (k = 0 ∨ a + k ≤ pagingMaxPgn)) (by simp [Ctx.AllocInBounds, h])

instance (n : ℕ) (pte : Pte) : Decidable (FpnBelow n pte) := inferInstanceAs (Decidable (_ → _))

instance (n : ℕ) (c : Ctx) (g : ℕ) : Decidable (c.PageInBounds n g) :=
  decidable_of_iff (g < pagingMaxPgn ∧
      (pagingPagePresent (c.mm.pgd g) = true → FpnBelow n (c.mm.pgd g)) ∧
      (pagingPagePresent (c.mm.pgd g) = false → c.mm.fifoPgn ≠ []) ∧
      (pagingPagePresent (c.mm.pgd g) = false → c.dev.mswp.freeFpList ≠ [] →
        (c.mm.fifoPgn.getLast?).all (fun vic => FpnBelow n (c.mm.pgd vic)) = true))
    ⟨fun h => ⟨h.1, h.2.1, h.2.2.1, by simpa [Option.all_eq_true] using h.2.2.2⟩,
      fun h => ⟨h.lt, h.hit, h.fifo, by simpa [Option.all_eq_true] using h.victim⟩⟩

instance (n : ℕ) (c : Ctx) : ∀ cl, Decidable (InBounds n c cl)
  | .alloc size regIndex =>
      inferInstanceAs (Decidable (c.AllocInBounds (int32 size) (int32 regIndex)))
  | .free regIndex => inferInstanceAs (Decidable (int32 regIndex ≠ pagingMaxSymtblSz))
  | .read source _ _ => inferInstanceAs (Decidable (NamedRg (int32 source) → _ ∧ _))
  | .write _ destination _ => inferInstanceAs (Decidable (NamedRg (int32 destination) → _ ∧ _))
  | .memmap _ => inferInstanceAs (Decidable False)

end decidable

/-- An allocation, a write, a release that is refused, and an allocation for an id outside the
symbol table that fails for want of frames. -/
def boundsSample : List Event :=
  [loadBlank 0, .call 0 (.alloc 256 1) 0 none, .call 0 (.write 7 1 5) 0 none,
    .call 0 (.free 31) (-1) none, .call 0 (.alloc 600 30) (-1) none]

theorem accesses_in_bounds_sample : ∃ s pr t,
    (@memLts header22).Run boot22 boundsSample s ∧ s.procs 0 = some pr ∧
    (@anyPrioLts sched22).Run (@Cpus.start sched22) [.add ⟨1, 0, "p1"⟩] t ∧
    @Ctx.call header22 (s.ctx pr) (.read 1 5 0) ≠ .error .undefined ∧
    ∀ i, @Cpus.Uses sched22 t (.get 0) i → i < @SchedHeader.maxPrio sched22 := by
  let := header22
  let := header22_pteLaws
  let := sched22
  have hsome : (Lts.replay (Lts.guarded Sys.next (Calls (InBounds 2))) boot22 boundsSample).any
      (fun s => (s.procs 0).any fun pr => InBounds 2 (s.ctx pr) (.read 1 5 0)) = true := by
    decide +kernel
  obtain ⟨s, hs, hx⟩ := (Option.any_eq_true _ _).mp hsome
  obtain ⟨pr, hp, hx⟩ := (Option.any_eq_true _ _).mp hx
  have hrun : (memLts.restrict (Calls (InBounds 2))).Run boot22 boundsSample s :=
    Lts.Run.of_replay_guarded (fun _ _ _ => memStep_of_next) hs
  have hoffst : ∀ a, pagingOffst a < pagingPagesz := by
    intro a
    show (a % 256).toNat < 256
    omega
  have hrun' : (anyPrioLts.restrict fun _ e => PrioInRange e).Run .start [.add ⟨1, 0, "p1"⟩]
      { Cpus.start.enlist ⟨1, 0, "p1"⟩ with added := [⟨1, 0, "p1"⟩] } :=
    Lts.Run.nil.snoc ⟨.add, show 0 < maxPrio by decide⟩
  obtain ⟨hmem, huses⟩ := accesses_in_bounds hoffst booted_boot22
    (hrun.restrict_and (by simp [boundsSample, loadBlank, Cleared])) hrun'
  exact ⟨s, pr, _, hrun.of_restrict, hp, hrun'.of_restrict,
    hmem 0 pr _ hp (of_decide_eq_true hx), fun i hu => huses (.get 0) i trivial hu⟩

/-- `FREE` with the region id `PAGING_MAX_SYMTBL_SZ`, the first call of a process: the entry is
read behind the end of the symbol table. -/
theorem access_out_of_bounds : ∃ s pr,
    (@memLts header22).Run boot22 [loadBlank 0] s ∧ s.procs 0 = some pr ∧
    @Mm.symGet header22 pr.mm 30 = .error .undefined ∧
    @Ctx.call header22 (s.ctx pr) (.free 30) = .error .undefined := by
  let := header22
  refine ⟨_, _, Lts.Run.nil.snoc (.load blankMm (fun _ => 0) 0 rfl), rfl, ?_, ?_⟩
  · rfl
  · rfl

end BtlOs
