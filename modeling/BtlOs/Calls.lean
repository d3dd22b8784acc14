import BtlOs.System

/-! # What a call does

`CallStep` lists the effects that a memory call may have on its process and on the devices, for
arbitrary operands.  Every invariant of the memory system is proved from it, by one case for each
effect: the functions of `libmem.c`, `mm.c` and `mm-vm.c` are not unfolded again. -/

namespace BtlOs

open CLang Header

variable [Header]

/-- What `__sys_memmap` does for arbitrary registers: nothing but a change of the areas, an
increase of an area, a copy of a RAM frame over a swap frame, or a write to one byte of the RAM. -/
theorem sysMemmap_ok {c c' : Ctx} {regs regs' : ScRegs} {st : ℤ}
    (h : sysMemmap c regs = .ok (st, regs', c')) :
    (∃ mmap, c' = c.withHeap mmap c.mm.symrgtbl) ∨
    (int32 regs.a1 = sysmemIncOp ∧ ∃ mmap a n, Growth c.mm (int32 regs.a2) (int32 regs.a3) a n ∧
      n ≤ c.dev.mram.freeFpList.length ∧ c' = (c.withHeap mmap c.mm.symrgtbl).grown a n) ∨
    (int32 regs.a1 = sysmemSwpOp ∧ ∃ storage,
      (∀ a : ℕ, (∀ j < pagingPagesz, cellAddr (int32 regs.a3) j ≠ a) →
        storage a = c.dev.mswp.storage a) ∧
      c' = { c with dev := { c.dev with mswp := c.dev.mswp.withStorage storage } }) ∨
    (int32 regs.a1 = sysmemIoWrite ∧ 0 ≤ int32 regs.a2 ∧
      c' = c.poke (int32 regs.a2).toNat (uint32ToByte regs.a3)) := by
  unfold sysMemmap at h
  simp only at h
  split_ifs at h with h₁ h₂ h₃ h₄ h₅
  · obtain ⟨rfl, rfl, rfl⟩ := by simpa using h
    exact .inl ⟨c.mm.mmap, rfl⟩
  · obtain ⟨⟨st', c₁⟩, hi, h⟩ := bind_eq_ok.mp h
    obtain ⟨rfl, rfl, rfl⟩ := by simpa using h
    obtain ⟨mmap, ⟨_, rfl⟩ | ⟨_, a, n, hg, hn, rfl⟩⟩ := incVmaLimit_ok hi
    · exact .inl ⟨mmap, rfl⟩
    · exact .inr (.inl ⟨h₂, mmap, a, n, hg, hn, rfl⟩)
  · obtain ⟨⟨st', c₁⟩, hi, h⟩ := bind_eq_ok.mp h
    obtain ⟨rfl, rfl, rfl⟩ := by simpa using h
    unfold mmSwapPage at hi
    obtain ⟨dev, hd, hi⟩ := bind_eq_ok.mp hi
    obtain ⟨rfl, rfl⟩ := by simpa using hi
    obtain ⟨storage, rfl, hst⟩ := swapCpPage_ok hd
    exact .inr (.inr (.inl ⟨h₃, storage, hst, rfl⟩))
  · obtain ⟨⟨value, mram⟩, hr, h⟩ := bind_eq_ok.mp h
    obtain ⟨rfl, _⟩ := Memphy.read_ok hr
    cases value with
    | none =>
        obtain ⟨rfl, rfl, rfl⟩ := by simpa using h
        exact .inl ⟨c.mm.mmap, rfl⟩
    | some value =>
        obtain ⟨rfl, rfl, rfl⟩ := by simpa using h
        exact .inl ⟨c.mm.mmap, rfl⟩
  · obtain ⟨⟨st', mram⟩, hw, h⟩ := bind_eq_ok.mp h
    obtain ⟨rfl, rfl, rfl⟩ := by simpa using h
    rcases Memphy.write_ok hw with ⟨_, rfl, _⟩ | ⟨_, ha, _, rfl⟩
    · exact .inl ⟨c.mm.mmap, rfl⟩
    · exact .inr (.inr (.inr ⟨h₅, ha.1, rfl⟩))
  · obtain ⟨rfl, rfl, rfl⟩ := by simpa using h
    exact .inl ⟨c.mm.mmap, rfl⟩

/-! ### The operands of a call -/

/-- The address that a read or write of a region accesses. -/
def Ctx.addr (c : Ctx) (regIndex offset : ℕ) : ℤ :=
  rgAddr (c.mm.symrgtbl (int32 regIndex).toNat) (int32 offset)

/-- The page that a call accesses; none, where `get_symrg_byid` refuses the id. -/
def Ctx.page (c : Ctx) : Call → Option ℕ
  | .read source offset _ =>
      (getSymrgByid (int32 source)).map fun _ => pagingPgn (c.addr source offset)
  | .write _ destination offset =>
      (getSymrgByid (int32 destination)).map fun _ => pagingPgn (c.addr destination offset)
  | _ => none

theorem Ctx.page_read (c : Ctx) {source : ℕ} {rgid : ℤ}
    (h : getSymrgByid (int32 source) = some rgid) (offset : ℕ) (data₀ : Byte) :
    c.page (.read source offset data₀) = some (pagingPgn (c.addr source offset)) := by
  rw [Ctx.page, h, Option.map_some]

theorem Ctx.page_write (c : Ctx) {destination : ℕ} {rgid : ℤ}
    (h : getSymrgByid (int32 destination) = some rgid) (data : Byte) (offset : ℕ) :
    c.page (.write data destination offset) = some (pagingPgn (c.addr destination offset)) := by
  rw [Ctx.page, h, Option.map_some]

theorem Ctx.page_read_some {c : Ctx} {source offset g : ℕ} {data₀ : Byte}
    (h : c.page (.read source offset data₀) = some g) : g = pagingPgn (c.addr source offset) := by
  simp only [Ctx.page, Option.map_eq_some_iff] at h
  obtain ⟨_, _, rfl⟩ := h
  rfl

theorem Ctx.page_write_some {c : Ctx} {destination offset g : ℕ} {data : Byte}
    (h : c.page (.write data destination offset) = some g) :
    g = pagingPgn (c.addr destination offset) := by
  simp only [Ctx.page, Option.map_eq_some_iff] at h
  obtain ⟨_, _, rfl⟩ := h
  rfl

/-- The call maps `n` pages from `a` on, if so many frames are free. -/
def Ctx.Grows (c : Ctx) : Call → ℕ → ℕ → Prop
  | .alloc size _, a, n => getFreeVmrgArea c.mm 0 (int32 size) = .ok (none, c.mm) ∧
      Growth c.mm 0 (int32 size) a n
  | .memmap regs, a, n => int32 regs.a1 = sysmemIncOp ∧
      Growth c.mm (int32 regs.a2) (int32 regs.a3) a n
  | _, _, _ => False

/-! ### The effects -/

inductive CallStep (c : Ctx) : Call → Ctx → Prop
  | heap {cl : Call} (mmap : List VmArea) (symrgtbl : ℕ → VmRg) :
      CallStep c cl (c.withHeap mmap symrgtbl)
  | grow {cl : Call} (mmap : List VmArea) (symrgtbl : ℕ → VmRg) {a n : ℕ} : c.Grows cl a n →
      n ≤ c.dev.mram.freeFpList.length → CallStep c cl ((c.withHeap mmap symrgtbl).grown a n)
  | lock {cl : Call} : c.mmvmLock = false → CallStep c cl { c with mmvmLock := true }
  | access {cl : Call} {g : ℕ} {r : Option ℕ} {c' : Ctx} : c.page cl = some g →
      PageStep c g r c' → CallStep c cl c'
  | write {data : Byte} {destination offset fpn : ℕ} {c₁ : Ctx} :
      c.page (.write data destination offset) = some (pagingPgn (c.addr destination offset)) →
      PageStep c (pagingPgn (c.addr destination offset)) (some fpn) c₁ →
      0 ≤ phyAddr fpn (pagingOffst (c.addr destination offset)) →
      CallStep c (.write data destination offset)
        (c₁.poke (phyAddr fpn (pagingOffst (c.addr destination offset))).toNat data)
  | swap {regs : ScRegs} {storage : ℕ → Byte} : int32 regs.a1 = sysmemSwpOp →
      (∀ a : ℕ, (∀ j < pagingPagesz, cellAddr (int32 regs.a3) j ≠ a) →
        storage a = c.dev.mswp.storage a) →
      CallStep c (.memmap regs)
        { c with dev := { c.dev with mswp := c.dev.mswp.withStorage storage } }
  | ioWrite {regs : ScRegs} : int32 regs.a1 = sysmemIoWrite → 0 ≤ int32 regs.a2 →
      CallStep c (.memmap regs) (c.poke (int32 regs.a2).toNat (uint32ToByte regs.a3))

section returns

variable {c c' : Ctx} {st : ℤ} {val : Option ℕ}

theorem Ctx.call_alloc_ok {size regIndex : ℕ}
    (h : c.call (.alloc size regIndex) = .ok (st, val, c')) : ∃ addr,
      alloc c 0 (int32 regIndex) (int32 size) = .ok (addr, c') ∧
        st = if addr = none then -1 else 0 := by
  simp only [Ctx.call, bind_eq_ok] at h
  obtain ⟨⟨_, _⟩, ha, h⟩ := h
  obtain ⟨rfl, rfl, rfl⟩ := by simpa using h
  exact liballoc_eq_ok ha

theorem Ctx.call_free_ok {regIndex : ℕ} (h : c.call (.free regIndex) = .ok (st, val, c')) :
    free c (int32 regIndex) = .ok (st, c') := by
  simp only [Ctx.call, libfree, bind_eq_ok] at h
  obtain ⟨⟨_, _⟩, hf, h⟩ := h
  obtain ⟨rfl, rfl, rfl⟩ := by simpa using h
  exact hf

theorem Ctx.call_read_ok {source offset : ℕ} {data₀ : Byte}
    (h : c.call (.read source offset data₀) = .ok (st, val, c')) :
    ∃ data, read c 0 (int32 source) (int32 offset) = .ok (st, data, c') := by
  simp only [Ctx.call, bind_eq_ok] at h
  obtain ⟨⟨_, _, _⟩, hr, h⟩ := h
  obtain ⟨rfl, rfl, rfl⟩ := by simpa using h
  obtain ⟨data, hr, _⟩ := libread_eq_ok hr
  exact ⟨data, hr⟩

theorem Ctx.call_write_ok {data : Byte} {destination offset : ℕ}
    (h : c.call (.write data destination offset) = .ok (st, val, c')) :
    write c 0 (int32 destination) (int32 offset) data = .ok (st, c') := by
  simp only [Ctx.call, libwrite, bind_eq_ok] at h
  obtain ⟨⟨_, _⟩, hw, h⟩ := h
  obtain ⟨rfl, rfl, rfl⟩ := by simpa using h
  exact hw

end returns

/-- Every call that returns has one of the effects. -/
theorem callStep_of_ok {c c' : Ctx} {cl : Call} {st : ℤ} {val : Option ℕ}
    (h : c.call cl = .ok (st, val, c')) : CallStep c cl c' := by
  cases cl with
  | alloc size regIndex =>
      obtain ⟨_, ha, _⟩ := Ctx.call_alloc_ok h
      obtain ⟨_, mmap, symrgtbl, rfl | ⟨a, n, hf, hg, hn, rfl⟩⟩ := alloc_ok ha
      · exact .heap mmap symrgtbl
      · rw [int32_zero, int32_int32] at hg
        exact .grow mmap symrgtbl ⟨hf, hg⟩ hn
  | free regIndex =>
      obtain ⟨_, mmap, symrgtbl, rfl⟩ := free_ok (Ctx.call_free_ok h)
      exact .heap mmap symrgtbl
  | read source offset data₀ =>
      obtain ⟨_, ha⟩ := Ctx.call_read_ok h
      rcases read_ok ha with ⟨hl, ⟨_, _, rfl⟩ | ⟨_, ⟨h₀, h₁⟩, r, hs, _⟩⟩
      · exact .lock hl
      · exact .access (c.page_read (getSymrgByid_of_range h₀ h₁.le) offset data₀) hs
  | write data destination offset =>
      have ha := Ctx.call_write_ok h
      rcases write_ok ha with ⟨hl, ⟨_, rfl⟩ | ⟨_, ⟨h₀, h₁⟩, r, c₁, hs, hc⟩⟩
      · exact .lock hl
      · have hg := c.page_write (getSymrgByid_of_range h₀ h₁.le) data offset
        rcases hc with rfl | ⟨fpn, rfl, h0, rfl⟩
        · exact .access hg hs
        · exact .write hg hs h0
  | memmap regs =>
      simp only [Ctx.call, bind_eq_ok] at h
      obtain ⟨⟨_, _, _⟩, ha, h⟩ := h
      obtain ⟨rfl, rfl, rfl⟩ := by simpa using h
      rcases sysMemmap_ok ha with ⟨mmap, rfl⟩ | ⟨ho, mmap, a, n, hg, hn, rfl⟩ |
        ⟨ho, storage, hst, rfl⟩ | ⟨ho, h0, rfl⟩
      · exact .heap mmap _
      · exact .grow mmap _ ⟨ho, hg⟩ hn
      · exact .swap ho hst
      · exact .ioWrite ho h0

/-- A read or a write returns at once with the lock held, or after one page access. -/
theorem page_of_ok {c c' : Ctx} {cl : Call} {st : ℤ} {val : Option ℕ} {g : ℕ}
    (h : c.call cl = .ok (st, val, c')) (hg : c.page cl = some g) :
    st = -1 ∧ c'.mm = c.mm ∨ st = 0 ∧ ∃ r c₁, PageStep c g r c₁ ∧ c'.mm = c₁.mm := by
  cases cl with
  | alloc _ _ => cases hg
  | free _ => cases hg
  | memmap _ => cases hg
  | read source offset data₀ =>
      obtain ⟨_, ha⟩ := Ctx.call_read_ok h
      obtain rfl := Ctx.page_read_some hg
      rcases read_ok ha with ⟨_, ⟨rfl, _, rfl⟩ | ⟨rfl, _, r, hs, _⟩⟩
      · exact .inl ⟨rfl, rfl⟩
      · exact .inr ⟨rfl, r, _, hs, rfl⟩
  | write data destination offset =>
      have ha := Ctx.call_write_ok h
      obtain rfl := Ctx.page_write_some hg
      rcases write_ok ha with ⟨_, ⟨rfl, rfl⟩ | ⟨rfl, _, r, c₁, hs, rfl | ⟨fpn, rfl, h0, rfl⟩⟩⟩
      · exact .inl ⟨rfl, rfl⟩
      · exact .inr ⟨rfl, r, _, hs, rfl⟩
      · exact .inr ⟨rfl, some fpn, c₁, hs, rfl⟩

/-- A call that accesses no page replaces none: it may map pages, and changes no other entry. -/
theorem pgd_of_ok {c c' : Ctx} {cl : Call} {st : ℤ} {val : Option ℕ}
    (h : c.call cl = .ok (st, val, c')) (hg : c.page cl = none) :
    ∃ a frames, c'.mm.pgd = mapPages c.mm.pgd a frames := by
  cases callStep_of_ok h with
  | heap _ _ => exact ⟨0, [], rfl⟩
  | grow _ _ _ _ => exact ⟨_, _, rfl⟩
  | lock _ => exact ⟨0, [], rfl⟩
  | access hg' _ =>
      rw [hg] at hg'
      cases hg'
  | write hg' _ _ =>
      rw [hg] at hg'
      cases hg'
  | swap _ _ => exact ⟨0, [], rfl⟩
  | ioWrite _ _ => exact ⟨0, [], rfl⟩

end BtlOs
