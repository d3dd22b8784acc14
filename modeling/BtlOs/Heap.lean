import BtlOs.System
import BtlOs.FreeList

/-! # The heap of a process

The region lists of one process, `vm_freerg_list` and `symrgtbl`, under `liballoc` and `libfree`.

`HeapOk` is the heap invariant: the free list is separated, the live regions are disjoint from it
and from each other (`RegionsOk`), everything lies below `sbrk = vm_end`, a multiple of the page
size, and every page below `vm_end` is mapped.  `HeapOk.update` is the one rule by which it is
kept; an allocation ends in one of three ways (`liballoc_fit`, `liballoc_grow`, `liballoc_oom`), a
release in one (`libfree_eq`). -/

namespace BtlOs

open CLang Header Segments Table

/-! ### The heap invariant -/

section heap

variable [Header]

/-- An entry of the symbol table without bytes. -/
def VmRg.Empty (rg : VmRg) : Prop := rg.rgStart = rg.rgEnd

/-- The heap of a process whose only area is `vma`. -/
structure HeapOk (mm : Mm) (vma : VmArea) : Prop where
  mmap : mm.mmap = [vma]
  vmId : vma.vmId = 0
  sbrk : vma.sbrk = vma.vmEnd
  aligned : pagingPagesz ∣ vma.vmEnd
  free : SeparatedRg vma.vmFreergList
  free_le : ∀ t ∈ vma.vmFreergList, t.rgEnd ≤ vma.sbrk
  live : ∀ id < pagingMaxSymtblSz, (mm.symrgtbl id).rgStart ≤ (mm.symrgtbl id).rgEnd
  live_le : ∀ id < pagingMaxSymtblSz, ∀ a, (mm.symrgtbl id).Inside a → a < vma.sbrk
  live_free : ∀ id < pagingMaxSymtblSz, ∀ a, (mm.symrgtbl id).Inside a →
    ¬ Covered vma.vmFreergList a
  live_live : ∀ id < pagingMaxSymtblSz, ∀ id' < pagingMaxSymtblSz, id ≠ id' → ∀ a,
    (mm.symrgtbl id).Inside a → ¬ (mm.symrgtbl id').Inside a
  mapped : ∀ g, g * pagingPagesz < vma.vmEnd → ∃ pte fpn, mm.pgd g = pteSetFpn pte fpn

/-- The part of it that is about the regions alone. -/
structure RegionsOk (mm : Mm) (vma : VmArea) : Prop where
  mmap : mm.mmap = [vma]
  vmId : vma.vmId = 0
  free : SeparatedRg vma.vmFreergList
  live : ∀ id < pagingMaxSymtblSz, (mm.symrgtbl id).rgStart ≤ (mm.symrgtbl id).rgEnd
  live_free : ∀ id < pagingMaxSymtblSz, ∀ a, (mm.symrgtbl id).Inside a →
    ¬ Covered vma.vmFreergList a
  live_live : ∀ id < pagingMaxSymtblSz, ∀ id' < pagingMaxSymtblSz, id ≠ id' → ∀ a,
    (mm.symrgtbl id).Inside a → ¬ (mm.symrgtbl id').Inside a

theorem HeapOk.regions {mm : Mm} {vma : VmArea} (h : HeapOk mm vma) : RegionsOk mm vma :=
  ⟨h.mmap, h.vmId, h.free, h.live, h.live_free, h.live_live⟩

theorem heapOk_initMm {mm₀ : Mm} (pgd₀ : ℕ → Pte)
    (h : ∀ id < pagingMaxSymtblSz, (mm₀.symrgtbl id).Empty) :
    HeapOk (initMm mm₀ pgd₀) ⟨0, 0, 0, 0, []⟩ := by
  have hempty : ∀ id < pagingMaxSymtblSz, ((initMm mm₀ pgd₀).symrgtbl id).Empty := by
    intro id hid
    by_cases e : id = 0
    · subst e
      rfl
    · show (Function.update mm₀.symrgtbl 0 ⟨0, 0⟩ id).Empty
      rw [Function.update_of_ne e]
      exact h id hid
  have hin : ∀ id < pagingMaxSymtblSz, ∀ a, ¬ ((initMm mm₀ pgd₀).symrgtbl id).Inside a := by
    rintro id hid a ⟨h₁, h₂⟩
    have := hempty id hid
    unfold VmRg.Empty at this
    omega
  exact
    { mmap := rfl
      vmId := rfl
      sbrk := rfl
      aligned := Nat.dvd_zero _
      free := separated_nil
      free_le := by simp
      live := fun id hid => le_of_eq (hempty id hid)
      live_le := fun id hid a ha => absurd ha (hin id hid a)
      live_free := fun id hid a ha => absurd ha (hin id hid a)
      live_live := fun id hid _ _ _ a ha => absurd ha (hin id hid a)
      mapped := by simp }

/-- The bytes that no region but `id` has: free, of `id` itself, or above the heap. -/
def Spare (mm : Mm) (vma : VmArea) (id a : ℕ) : Prop :=
  Covered vma.vmFreergList a ∨ (mm.symrgtbl id).Inside a ∨ vma.vmEnd ≤ a

theorem HeapOk.not_spare {mm : Mm} {vma : VmArea} {id id' a : ℕ} (h : HeapOk mm vma)
    (hid : id < pagingMaxSymtblSz) (hid' : id' < pagingMaxSymtblSz) (hne : id' ≠ id)
    (ha : (mm.symrgtbl id').Inside a) : ¬ Spare mm vma id a := by
  rintro (hf | hl | he)
  · exact h.live_free id' hid' a ha hf
  · exact h.live_live id' hid' id hid hne a ha hl
  · have := h.live_le id' hid' a ha
    rw [h.sbrk] at this
    omega

/-- **The update rule.**  A call may change the region `id` to `rg` and the free list where both
take spare bytes only and are disjoint, and may move the end of the heap up. -/
theorem HeapOk.update {mm mm' : Mm} {vma vma' : VmArea} {id : ℕ} {rg : VmRg} (h : HeapOk mm vma)
    (hid : id < pagingMaxSymtblSz) (hmmap : mm'.mmap = [vma']) (hvmId : vma'.vmId = 0)
    (hsbrk : vma'.sbrk = vma'.vmEnd) (hle : vma.vmEnd ≤ vma'.vmEnd)
    (hdvd : pagingPagesz ∣ vma'.vmEnd) (hsym : mm'.symrgtbl = Function.update mm.symrgtbl id rg)
    (hfree : SeparatedRg vma'.vmFreergList)
    (hfree_spare : ∀ a, Covered vma'.vmFreergList a → Spare mm vma id a ∧ a < vma'.vmEnd)
    (hrg : rg.rgStart ≤ rg.rgEnd)
    (hrg_spare : ∀ a, rg.Inside a →
      Spare mm vma id a ∧ a < vma'.vmEnd ∧ ¬ Covered vma'.vmFreergList a)
    (hmap : ∀ g, g * pagingPagesz < vma'.vmEnd → ∃ pte fpn, mm'.pgd g = pteSetFpn pte fpn) :
    HeapOk mm' vma' := by
  have hself : mm'.symrgtbl id = rg := by rw [hsym, Function.update_self]
  have hother : ∀ id', id' ≠ id → mm'.symrgtbl id' = mm.symrgtbl id' := by
    intro id' hne
    rw [hsym, Function.update_of_ne hne]
  refine
    { mmap := hmmap
      vmId := hvmId
      sbrk := hsbrk
      aligned := hdvd
      free := hfree
      free_le := hsbrk ▸ rgEnd_le_of_covered hfree fun a ha => (hfree_spare a ha).2
      mapped := hmap
      live := ?_
      live_le := ?_
      live_free := ?_
      live_live := ?_ }
  · intro i hi
    by_cases hne : i = id
    · subst hne
      rw [hself]
      exact hrg
    · rw [hother i hne]
      exact h.live i hi
  · intro i hi a ha
    rw [hsbrk]
    by_cases hne : i = id
    · subst hne
      rw [hself] at ha
      exact (hrg_spare a ha).2.1
    · rw [hother i hne] at ha
      have := h.live_le i hi a ha
      rw [h.sbrk] at this
      omega
  · intro i hi a ha hc
    by_cases hne : i = id
    · subst hne
      rw [hself] at ha
      exact (hrg_spare a ha).2.2 hc
    · rw [hother i hne] at ha
      exact h.not_spare hid hi hne ha (hfree_spare a hc).1
  · intro i hi j hj hij a hia hja
    by_cases hi' : i = id
    · subst hi'
      rw [hself] at hia
      rw [hother j hij.symm] at hja
      exact h.not_spare hi hj hij.symm hja (hrg_spare a hia).1
    · rw [hother i hi'] at hia
      by_cases hj' : j = id
      · subst hj'
        rw [hself] at hja
        exact h.not_spare hj hi hi' hia (hrg_spare a hja).1
      · rw [hother j hj'] at hja
        exact h.live_live i hi j hj hij a hia hja

/-! ### The functions below the calls, on a heap -/

section functions

variable {mm : Mm} {vma : VmArea} (h : HeapOk mm vma)

include h

theorem HeapOk.getVmaByNum : getVmaByNum mm 0 = .ok (some 0) :=
  getVmaByNum_single h.mmap h.vmId

theorem HeapOk.area : mm.area (some 0) = .ok vma :=
  Mm.area_single h.mmap

end functions

omit [Header] in
theorem enlistVmFreergList_eq {mm : Mm} {vma : VmArea} (hm : mm.mmap = [vma]) (rg : VmRg) :
    enlistVmFreergList mm rg = .ok (if rg.rgStart ≥ rg.rgEnd then -1 else 0,
      { mm with mmap := [{ vma with vmFreergList := enlist rg vma.vmFreergList }] }) := by
  unfold enlistVmFreergList enlist
  rw [hm]
  split_ifs
  · simp [← hm]
  · rfl

omit [Header] in
theorem getFreeVmrgArea_single {mm : Mm} {vma : VmArea} (hm : mm.mmap = [vma])
    (hid : vma.vmId = 0) (size : ℤ) :
    (firstFit size vma.vmFreergList = none → getFreeVmrgArea mm 0 size = .ok (none, mm)) ∧
    ∀ r, firstFit size vma.vmFreergList = some r → ∃ rg l, getFreeVmrgArea mm 0 size =
      .ok (some rg, { mm with mmap := [{ vma with vmFreergList := l }] }) := by
  unfold getFreeVmrgArea
  rw [getVmaByNum_single hm hid, ok_bind, Mm.area_single hm, ok_bind]
  constructor
  · intro hf
    rw [hf]
  · intro r hf
    rw [hf]
    dsimp only
    rw [Mm.setArea_single hm, enlistVmFreergList_eq rfl, ok_bind]
    exact ⟨_, _, rfl⟩

theorem HeapOk.rgEnd_lt {mm : Mm} {vma : VmArea} (h : HeapOk mm vma) (hb : vma.vmEnd < 2 ^ 31) :
    ∀ t ∈ vma.vmFreergList, t.rgEnd < 2 ^ 64 := by
  intro t ht
  have hend := h.free_le t ht
  rw [h.sbrk] at hend
  omega

theorem HeapOk.firstFit {mm : Mm} {vma : VmArea} {size : ℕ} {rgit : VmRg} {rest : List VmRg}
    (h : HeapOk mm vma) (hb : vma.vmEnd < 2 ^ 31) (hsz : size < 2 ^ 31)
    (hf : firstFit size vma.vmFreergList = some (rgit, rest)) :
    ∃ l₁ l₂, vma.vmFreergList = l₁ ++ rgit :: l₂ ∧ rest = l₁ ++ l₂ ∧
      rgit.rgStart + size ≤ rgit.rgEnd ∧ rgit.rgEnd ≤ vma.vmEnd := by
  obtain ⟨l₁, l₂, hl, hr, hle, _⟩ := firstFit_split h.free (h.rgEnd_lt hb) (by omega) hf
  have hend := h.free_le rgit (by simp [hl])
  rw [h.sbrk] at hend
  exact ⟨l₁, l₂, hl, hr, hle, hend⟩

theorem RegionsOk.getFreeVmrgArea_fit {mm : Mm} {vma : VmArea} {size : ℕ} {rgit : VmRg}
    {rest : List VmRg} (h : RegionsOk mm vma) (hulong : ∀ t ∈ vma.vmFreergList, t.rgEnd < 2 ^ 64)
    (hsz : size < 2 ^ 64) (hf : BtlOs.firstFit size vma.vmFreergList = some (rgit, rest)) :
    getFreeVmrgArea mm 0 size = .ok (some ⟨rgit.rgStart, rgit.rgStart + size⟩,
      { mm with mmap := [{ vma with
        vmFreergList := enlist ⟨rgit.rgStart + size, rgit.rgEnd⟩ rest }] }) := by
  obtain ⟨l₁, l₂, hl, _, hle, _⟩ := firstFit_split h.free hulong hsz hf
  have hend := hulong rgit (by simp [hl])
  have e : ulong ((rgit.rgStart : ℤ) + size) = rgit.rgStart + size := by
    exact_mod_cast ulong_natCast (n := rgit.rgStart + size) (by omega)
  unfold getFreeVmrgArea
  simp only [getVmaByNum_single h.mmap h.vmId, Mm.area_single h.mmap, ok_bind, hf,
    Mm.setArea_single h.mmap, e]
  rw [enlistVmFreergList_eq rfl]
  rfl

variable [PageLaws]

/-- The pages of `size` bytes. -/
def pages (size : ℕ) : ℕ := roundUp size / pagingPagesz

omit [PageLaws] in
theorem pages_mul (size : ℕ) : pages size * pagingPagesz = roundUp size :=
  Nat.div_mul_cancel (dvd_roundUp size)

section growth

variable {c : Ctx} {vma : VmArea} {size : ℕ} (h : HeapOk c.mm vma) (hsz : roundUp size < 2 ^ 31)

/-- The area after `vm_end += inc_amt`. -/
def VmArea.grown (vma : VmArea) (size : ℕ) : VmArea :=
  { vma with vmEnd := vma.vmEnd + roundUp size, sbrk := vma.vmEnd + roundUp size }

/-- The same in the arithmetic of C, for any `inc_amt`. -/
def VmArea.raised (vma : VmArea) (incAmt : ℤ) : VmArea :=
  { vma with vmEnd := ulong (vma.vmEnd + incAmt), sbrk := ulong (vma.vmEnd + incAmt) }

omit [PageLaws] in
theorem incVmaLimit_single (hm : c.mm.mmap = [vma]) (hid : vma.vmId = 0) (incSz : ℤ) :
    incVmaLimit c 0 incSz = (do
      let (st, _, c) ← vmMapRam
        { c with mm := { c.mm with mmap := [vma.raised (pagingPageAlignsz incSz)] } }
        (int32 vma.vmEnd) ((pagingPageAlignsz incSz).tdiv pagingPagesz)
      .ok (if st < 0 then -1 else 0, c)) := by
  obtain ⟨region, hregion⟩ := getVmAreaNodeAtBrk_single hm hid incSz pagingPagesz
  unfold incVmaLimit
  simp only [hregion, getVmaByNum_single hm hid, Mm.area_single hm, ok_bind,
    validateOverlapVmArea_single hm hid, Mm.setArea_single hm]
  rfl

omit [PageLaws] in
/-- What an increase of the only area has done. -/
theorem incVmaLimit_single_ok {c' : Ctx} {size st : ℤ} (hm : c.mm.mmap = [vma]) (hid : vma.vmId = 0)
    (h : incVmaLimit c 0 size = .ok (st, c')) :
    (st = -1 ∧ c.dev.mram.freeFpList.length <
        ((pagingPageAlignsz size).tdiv pagingPagesz).toNat ∧
      c' = c.withHeap [vma.raised (pagingPageAlignsz size)] c.mm.symrgtbl) ∨
    (st = 0 ∧ ((pagingPageAlignsz size).tdiv pagingPagesz).toNat ≤
        c.dev.mram.freeFpList.length ∧
      c' = (c.withHeap [vma.raised (pagingPageAlignsz size)] c.mm.symrgtbl).grown
        (pagingPgn (int32 vma.vmEnd)) ((pagingPageAlignsz size).tdiv pagingPagesz).toNat) := by
  rw [incVmaLimit_single hm hid] at h
  obtain ⟨⟨st', rg, c₁⟩, hmap, h⟩ := bind_eq_ok.mp h
  obtain ⟨rfl, rfl⟩ := Prod.mk.inj (Except.ok.inj h)
  rcases vmMapRam_ok hmap with ⟨rfl, hk, rfl⟩ | ⟨rfl, hk, rfl⟩
  · exact .inl ⟨rfl, hk, rfl⟩
  · exact .inr ⟨rfl, hk, rfl⟩

include h

omit [PageLaws] in
theorem HeapOk.incVmaLimit_eq (hb : vma.vmEnd < 2 ^ 31) (incSz : ℤ) :
    incVmaLimit c 0 incSz = (do
      let (st, _, c) ← vmMapRam
        { c with mm := { c.mm with mmap := [vma.raised (pagingPageAlignsz incSz)] } }
        vma.vmEnd ((pagingPageAlignsz incSz).tdiv pagingPagesz)
      .ok (if st < 0 then -1 else 0, c)) := by
  rw [incVmaLimit_single h.mmap h.vmId, int32_natCast hb]

include hsz

theorem HeapOk.incVmaLimit (hb : vma.vmEnd < 2 ^ 31) :
    incVmaLimit c 0 size = (do
      let (st, _, c) ← vmMapRam { c with mm := { c.mm with mmap := [vma.grown size] } }
        vma.vmEnd (pages size)
      .ok (if st < 0 then -1 else 0, c)) := by
  have hamt : pagingPageAlignsz size = (roundUp size : ℕ) := PageLaws.alignsz size hsz
  have hnum : (roundUp size : ℤ).tdiv pagingPagesz = (pages size : ℕ) := by
    rw [Int.tdiv_eq_ediv_of_nonneg (by omega)]
    rfl
  have hend : ulong ((vma.vmEnd : ℤ) + (roundUp size : ℕ)) = vma.vmEnd + roundUp size := by
    exact_mod_cast ulong_natCast (n := vma.vmEnd + roundUp size) (by omega)
  rw [h.incVmaLimit_eq hb, hamt, hnum]
  unfold VmArea.raised VmArea.grown
  rw [hend]

theorem HeapOk.incVmaLimit_oom (hb : vma.vmEnd < 2 ^ 31)
    (hk : c.dev.mram.freeFpList.length < pages size) :
    BtlOs.incVmaLimit c 0 size =
      .ok (-1, { c with mm := { c.mm with mmap := [vma.grown size] } }) := by
  rw [h.incVmaLimit hsz hb, vmMapRam_oom (by simpa using hk)]
  rfl

theorem HeapOk.incVmaLimit_grow (hb : vma.vmEnd < 2 ^ 31)
    (hk : pages size ≤ c.dev.mram.freeFpList.length)
    (hM : vma.vmEnd / pagingPagesz + pages size ≤ pagingMaxPgn) :
    BtlOs.incVmaLimit c 0 size = .ok (0,
      { c with mm := { c.mm with mmap := [vma.grown size] } }.grown
        (vma.vmEnd / pagingPagesz) (pages size)) := by
  have hpos := pagesz_pos
  have hpgn : pages size = 0 ∨ pagingPgn vma.vmEnd = vma.vmEnd / pagingPagesz := by
    cases Nat.eq_zero_or_pos (pages size) with
    | inl h0 => exact .inl h0
    | inr h0 => exact .inr (PageLaws.pgn _ ((Nat.div_lt_iff_lt_mul hpos).mp (by omega)))
  rw [h.incVmaLimit hsz hb]
  obtain ⟨retRg, hmap⟩ := vmMapRam_eq vma.vmEnd (pages size)
    (c := { c with mm := { c.mm with mmap := [vma.grown size] } }) (by simpa using hk) (by
      rw [Int.toNat_natCast]
      cases hpgn with
      | inl h0 => exact .inl h0
      | inr hp => exact .inr (by rw [hp]; exact hM))
  rw [hmap, Int.toNat_natCast]
  cases hpgn with
  | inl h0 => simp [h0]
  | inr hp => simp [hp]

end growth

/-! ### The calls on a heap -/

section calls

variable {c : Ctx} {vma : VmArea} {id size : ℕ}

/-- The new region is the front of a free node. -/
theorem liballoc_fit {rgit : VmRg} {rest : List VmRg} (h : HeapOk c.mm vma)
    (hlock : c.mmvmLock = false) (hb : vma.vmEnd < 2 ^ 31) (hid : id < pagingMaxSymtblSz)
    (hsz : size < 2 ^ 31) (hf : firstFit size vma.vmFreergList = some (rgit, rest)) :
    liballoc c size id = .ok (0, c.withHeap
      [{ vma with vmFreergList := enlist ⟨rgit.rgStart + size, rgit.rgEnd⟩ rest }]
      (Function.update c.mm.symrgtbl id ⟨rgit.rgStart, rgit.rgStart + size⟩)) := by
  have hid' := lt_trans hid PageLaws.symtblSz_lt
  unfold liballoc alloc Ctx.lock
  simp only [hlock, int32_natCast hsz, int32_natCast hid', Bool.false_eq_true, if_false, ok_bind,
    h.regions.getFreeVmrgArea_fit (h.rgEnd_lt hb) (by omega) hf]
  rw [Mm.symSet_eq_ok.mpr ⟨⟨by omega, by omega⟩, rfl⟩]
  simp [Ctx.unlock, Ctx.withHeap, hlock]

omit [PageLaws] in
theorem alloc_of_none {rgid size : ℤ} (hm : c.mm.mmap = [vma]) (hvmId : vma.vmId = 0)
    (hlock : c.mmvmLock = false) (hf : firstFit size vma.vmFreergList = none) :
    alloc c 0 rgid size = (do
      let (st, c₁) ← incVmaLimit { c with mmvmLock := true } 0 (int32 size)
      let vma₁ ← c₁.mm.area (some 0)
      if st < 0 then
        let vma₁ := { vma₁ with vmEnd := ulong (int32 vma.vmEnd), sbrk := ulong (int32 vma.sbrk) }
        .ok (none, { c₁ with mm := c₁.mm.setArea (some 0) vma₁ }.unlock)
      else do
        let rgEnd := ulong (int32 (int32 vma.sbrk + size))
        let mm ← c₁.mm.symSet rgid ⟨ulong (int32 vma.sbrk), rgEnd⟩
        let (_, mm) ← enlistVmFreergList mm ⟨rgEnd, vma₁.sbrk⟩
        .ok (some (int32 vma.sbrk), { c₁ with mm }.unlock)) := by
  unfold alloc Ctx.lock
  simp only [hlock, Bool.false_eq_true, if_false, ok_bind,
    (getFreeVmrgArea_single hm hvmId size).1 hf, getVmaByNum_single hm hvmId,
    Mm.area_single hm, reduceCtorEq, sysMemmap_inc, int32_zero]
  cases incVmaLimit { c with mmvmLock := true } 0 (int32 size) with
  | error _ => rfl
  | ok _ => rfl

/-- Not enough frames: the call fails and changes nothing. -/
theorem liballoc_oom (h : HeapOk c.mm vma) (hlock : c.mmvmLock = false) (hb : vma.vmEnd < 2 ^ 31)
    (hsz : roundUp size < 2 ^ 31) (hf : firstFit size vma.vmFreergList = none)
    (hk : c.dev.mram.freeFpList.length < pages size) : liballoc c size id = .ok (-1, c) := by
  have hsz' := lt_of_le_of_lt (le_roundUp size) hsz
  have hvma : [(⟨vma.vmId, vma.vmStart, vma.vmEnd, vma.vmEnd, vma.vmFreergList⟩ : VmArea)] =
      c.mm.mmap := by
    rw [h.mmap]
    exact congrArg (fun s => [VmArea.mk vma.vmId vma.vmStart vma.vmEnd s vma.vmFreergList])
      h.sbrk.symm
  have hinc := h.incVmaLimit_oom (c := { c with mmvmLock := true }) hsz hb hk
  unfold liballoc
  rw [int32_natCast hsz', alloc_of_none h.mmap h.vmId hlock hf, int32_natCast hsz', hinc]
  simp [Mm.area, Mm.setArea, VmArea.grown, Ctx.unlock, h.sbrk, int32_natCast hb,
    ulong_natCast (n := vma.vmEnd) (by omega), hvma]
  rw [← hlock]

/-- The new region is the front of the new pages, what remains of them is free.  This is so
whichever pages of the table the new ones are. -/
theorem liballoc_grown {a : ℕ} (h : HeapOk c.mm vma) (hlock : c.mmvmLock = false)
    (hb : vma.vmEnd + roundUp size < 2 ^ 31) (hid : id < pagingMaxSymtblSz)
    (hf : firstFit size vma.vmFreergList = none)
    (hinc : incVmaLimit { c with mmvmLock := true } 0 size = .ok (0,
      ({ c with mm := { c.mm with mmap := [vma.grown size] }, mmvmLock := true } : Ctx).grown a
        (pages size))) :
    liballoc c size id = .ok (0, (c.withHeap
      [{ vma.grown size with
        vmFreergList := enlist ⟨vma.vmEnd + size, vma.vmEnd + roundUp size⟩ vma.vmFreergList }]
      (Function.update c.mm.symrgtbl id ⟨vma.vmEnd, vma.vmEnd + size⟩)).grown a
        (pages size)) := by
  have hle := le_roundUp size
  have hsz : size < 2 ^ 31 := by omega
  have hid' := lt_trans hid PageLaws.symtblSz_lt
  have hsb : int32 vma.sbrk = vma.vmEnd := by rw [h.sbrk, int32_natCast (by omega)]
  have hend : ulong (int32 ((vma.vmEnd : ℤ) + size)) = vma.vmEnd + size := by
    rw [int32_of_range (by omega) (by omega)]
    exact_mod_cast ulong_natCast (n := vma.vmEnd + size) (by omega)
  unfold liballoc
  rw [int32_natCast hsz, int32_natCast hid', alloc_of_none h.mmap h.vmId hlock hf,
    int32_natCast hsz, hinc, ok_bind]
  simp only [hsb, hend, ulong_natCast (n := vma.vmEnd) (by omega)]
  rw [Mm.area_single (show _ = [vma.grown size] from rfl), ok_bind, if_neg (by decide),
    Mm.symSet_eq_ok.mpr ⟨⟨by omega, by omega⟩, rfl⟩, ok_bind,
    enlistVmFreergList_eq (show _ = [vma.grown size] from rfl)]
  simp [Ctx.unlock, Ctx.withHeap, Ctx.grown, Mm.mapped, VmArea.grown, hlock]

/-- In bounds of the page table the new pages are those above the heap. -/
theorem liballoc_grow (h : HeapOk c.mm vma) (hlock : c.mmvmLock = false)
    (hb : vma.vmEnd + roundUp size < 2 ^ 31) (hid : id < pagingMaxSymtblSz)
    (hf : firstFit size vma.vmFreergList = none)
    (hk : pages size ≤ c.dev.mram.freeFpList.length)
    (hM : vma.vmEnd / pagingPagesz + pages size ≤ pagingMaxPgn) :
    liballoc c size id = .ok (0, (c.withHeap
      [{ vma.grown size with
        vmFreergList := enlist ⟨vma.vmEnd + size, vma.vmEnd + roundUp size⟩ vma.vmFreergList }]
      (Function.update c.mm.symrgtbl id ⟨vma.vmEnd, vma.vmEnd + size⟩)).grown
        (vma.vmEnd / pagingPagesz) (pages size)) :=
  liballoc_grown h hlock hb hid hf
    (h.incVmaLimit_grow (c := { c with mmvmLock := true }) (by omega) (by omega) hk hM)

omit [PageLaws] in
/-- The region of an entry overlaps no node, or it is empty and touches none. -/
theorem RegionsOk.disjoint_or_empty {mm : Mm} (h : RegionsOk mm vma)
    (hid : id < pagingMaxSymtblSz) :
    DisjointRg (mm.symrgtbl id) vma.vmFreergList ∨ (mm.symrgtbl id).Empty ∧
      ∀ t ∈ vma.vmFreergList,
        t.rgEnd ≠ (mm.symrgtbl id).rgStart ∧ t.rgStart ≠ (mm.symrgtbl id).rgEnd := by
  have hle := h.live id hid
  have hdis := h.live_free id hid
  set rg := mm.symrgtbl id
  by_cases hd : DisjointRg rg vma.vmFreergList
  · exact .inl hd
  · refine .inr ?_
    unfold DisjointRg at hd
    push Not at hd
    obtain ⟨t, ht, h₁, h₂⟩ := hd
    have hne := h.free.nonempty t ht
    have hempty : rg.rgStart = rg.rgEnd := by
      by_contra hlt
      have hin : rg.Inside (max rg.rgStart t.rgStart) := ⟨by omega, by omega⟩
      exact hdis _ hin (Cover.of_mem (s := t) ⟨by omega, by omega⟩ ht)
    refine ⟨hempty, fun u hu => ?_⟩
    obtain ⟨l₁, l₂, hl⟩ := List.append_of_mem ht
    have hsep := h.free
    rw [hl] at hsep hu
    have hune := hsep.nonempty u hu
    cases List.mem_append.mp hu with
    | inl hu =>
        have := hsep.apart u (List.mem_append_left l₂ hu)
        unfold Apart at this
        omega
    | inr hu =>
        rcases List.mem_cons.mp hu with rfl | hu
        · omega
        · have := hsep.apart u (List.mem_append_right l₁ hu)
          unfold Apart at this
          omega

/-- The free list after `__free` of the region `id`. -/
def freed (mm : Mm) (vma : VmArea) (id : ℕ) : List VmRg :=
  enlist (mergeWalk (mm.symrgtbl id) vma.vmFreergList).1
    (mergeWalk (mm.symrgtbl id) vma.vmFreergList).2

omit [PageLaws] in
theorem RegionsOk.covered_freed {mm : Mm} {a : ℕ} (h : RegionsOk mm vma)
    (hid : id < pagingMaxSymtblSz) :
    Covered (freed mm vma id) a ↔ (mm.symrgtbl id).Inside a ∨ Covered vma.vmFreergList a := by
  unfold freed
  rw [covered_enlist, covered_mergeWalk (h.live id hid) h.free.nonempty]

omit [PageLaws] in
theorem RegionsOk.separated_freed {mm : Mm} (h : RegionsOk mm vma) (hid : id < pagingMaxSymtblSz) :
    SeparatedRg (freed mm vma id) := by
  unfold freed
  rcases h.disjoint_or_empty hid with hd | ⟨hempty, ht⟩
  · exact separated_enlist (h.free.sublist (mergeWalk_sublist _ _))
      (apart_mergeWalk h.free (h.live id hid) hd)
  · rw [mergeWalk_of_not_touch ht]
    rw [enlist, if_pos hempty.ge]
    exact h.free

/-- An empty entry whose merged region is empty is left as it is; any other one is cleared. -/
theorem libfree_eq (h : RegionsOk c.mm vma) (hlock : c.mmvmLock = false)
    (hid : id < pagingMaxSymtblSz) : ∃ st rg, libfree c id = .ok (st, c.withHeap
      [{ vma with vmFreergList := freed c.mm vma id }] (Function.update c.mm.symrgtbl id rg)) ∧
      rg.Empty ∧ (st = -1 ∧ c.mm.symrgtbl id = rg ∨ st = 0 ∧ rg = ⟨0, 0⟩) := by
  have hid' := lt_trans hid PageLaws.symtblSz_lt
  have hsym := c.mm.symGet_natCast hid
  unfold libfree free Ctx.lock
  rw [int32_natCast hid', if_neg (by simp [hlock]), ok_bind, if_neg (by omega)]
  simp only [hsym, h.mmap, ok_bind]
  rw [enlistVmFreergList_eq rfl]
  by_cases hge : (mergeWalk (c.mm.symrgtbl id) vma.vmFreergList).1.rgStart ≥
      (mergeWalk (c.mm.symrgtbl id) vma.vmFreergList).1.rgEnd
  · rw [if_pos hge]
    refine ⟨-1, c.mm.symrgtbl id, ?_, ?_, .inl ⟨rfl, rfl⟩⟩
    · simp [Ctx.unlock, Ctx.withHeap, hlock, freed]
    · have hle := h.live id hid
      obtain ⟨h₁, h₂⟩ := le_mergeWalk (r := c.mm.symrgtbl id) h.free.nonempty
      exact le_antisymm hle (by omega)
  · rw [if_neg hge]
    refine ⟨0, ⟨0, 0⟩, ?_, rfl, .inr ⟨rfl, rfl⟩⟩
    simp only [ok_bind]
    rw [if_neg (by decide), Mm.symSet_eq_ok.mpr ⟨⟨by omega, by omega⟩, rfl⟩]
    simp [Ctx.unlock, Ctx.withHeap, hlock, freed]

/-! ### Each call keeps the invariant -/

omit [PageLaws] in
theorem HeapOk.lt_of_covered {mm : Mm} {a : ℕ} (h : HeapOk mm vma)
    (ha : Covered vma.vmFreergList a) : a < vma.vmEnd := by
  obtain ⟨t, ht, _, hlt⟩ := ha
  have := h.free_le t ht
  rw [h.sbrk] at this
  exact lt_of_lt_of_le hlt this

theorem HeapOk.mapped_grown (h : HeapOk c.mm vma) (hk : pages size ≤ c.dev.mram.freeFpList.length)
    {g : ℕ} (hg : g * pagingPagesz < vma.vmEnd + roundUp size) :
    ∃ pte fpn, (c.grown (vma.vmEnd / pagingPagesz) (pages size)).mm.pgd g = pteSetFpn pte fpn := by
  have hend : vma.vmEnd / pagingPagesz * pagingPagesz = vma.vmEnd := Nat.div_mul_cancel h.aligned
  show ∃ pte fpn, mapPages c.mm.pgd (vma.vmEnd / pagingPagesz)
    (c.dev.mram.freeFpList.take (pages size)).reverse g = pteSetFpn pte fpn
  by_cases hlt : g < vma.vmEnd / pagingPagesz
  · rw [mapPages_of_lt _ _ hlt]
    refine h.mapped g ?_
    rw [← hend]
    exact Nat.mul_lt_mul_of_pos_right hlt pagesz_pos
  · obtain ⟨i, rfl⟩ := Nat.exists_eq_add_of_le (not_lt.mp hlt)
    have hi : i < pages size := by
      rw [Nat.add_mul, hend, ← pages_mul] at hg
      exact Nat.lt_of_mul_lt_mul_right (Nat.lt_of_add_lt_add_left hg)
    exact ⟨_, _, mapPages_get _ _ _ (by simpa using ⟨hi, by omega⟩)⟩

omit [PageLaws] in
theorem HeapOk.covered_fit {mm : Mm} {rgit : VmRg} {rest : List VmRg} (h : HeapOk mm vma)
    (hb : vma.vmEnd < 2 ^ 31) (hsz : size < 2 ^ 31)
    (hf : BtlOs.firstFit size vma.vmFreergList = some (rgit, rest)) (a : ℕ) :
    (VmRg.mk rgit.rgStart (rgit.rgStart + size)).Inside a ∨
        Covered (enlist ⟨rgit.rgStart + size, rgit.rgEnd⟩ rest) a ↔
      Covered vma.vmFreergList a := by
  obtain ⟨l₁, l₂, hl, rfl, hle, _⟩ := h.firstFit hb hsz hf
  have hsep := h.free
  have hfront : (VmRg.mk rgit.rgStart (rgit.rgStart + size)).Inside a →
      Covered vma.vmFreergList a := by
    rintro ⟨h₁, h₂⟩
    exact Cover.of_mem (s := rgit) ⟨h₁, lt_of_lt_of_le h₂ hle⟩ (by simp [hl])
  rw [hl] at hsep hfront ⊢
  rw [BtlOs.covered_fit hsep hle]
  rw [inside_mk] at hfront ⊢
  tauto

omit [PageLaws] in
theorem HeapOk.fit {rgit : VmRg} {rest : List VmRg} (h : HeapOk c.mm vma)
    (hb : vma.vmEnd < 2 ^ 31) (hid : id < pagingMaxSymtblSz) (hsz : size < 2 ^ 31)
    (hf : BtlOs.firstFit size vma.vmFreergList = some (rgit, rest)) :
    HeapOk (c.withHeap
      [{ vma with vmFreergList := enlist ⟨rgit.rgStart + size, rgit.rgEnd⟩ rest }]
      (Function.update c.mm.symrgtbl id ⟨rgit.rgStart, rgit.rgStart + size⟩)).mm
      { vma with vmFreergList := enlist ⟨rgit.rgStart + size, rgit.rgEnd⟩ rest } := by
  have hcov := h.covered_fit hb hsz hf
  obtain ⟨l₁, l₂, hl, rfl, hle, hend⟩ := h.firstFit hb hsz hf
  have hsep := h.free
  rw [hl] at hsep
  refine h.update hid rfl h.vmId h.sbrk le_rfl h.aligned rfl (separated_fit hsep) ?_
    (Nat.le_add_right _ _) ?_ h.mapped
  · intro a ha
    have hc := (hcov a).mp (.inr ha)
    exact ⟨.inl hc, h.lt_of_covered hc⟩
  · intro a ha
    have hc := (hcov a).mp (.inl ha)
    refine ⟨.inl hc, h.lt_of_covered hc, fun hnew => ?_⟩
    exact ((BtlOs.covered_fit hsep hle a).mp hnew).2 ha

theorem HeapOk.grow (h : HeapOk c.mm vma) (hid : id < pagingMaxSymtblSz)
    (hk : pages size ≤ c.dev.mram.freeFpList.length) :
    HeapOk ((c.withHeap
      [{ vma.grown size with
        vmFreergList := enlist ⟨vma.vmEnd + size, vma.vmEnd + roundUp size⟩ vma.vmFreergList }]
      (Function.update c.mm.symrgtbl id ⟨vma.vmEnd, vma.vmEnd + size⟩)).grown
        (vma.vmEnd / pagingPagesz) (pages size)).mm
      { vma.grown size with
        vmFreergList := enlist ⟨vma.vmEnd + size, vma.vmEnd + roundUp size⟩ vma.vmFreergList } := by
  have hsz := le_roundUp size
  refine h.update hid rfl h.vmId rfl (Nat.le_add_right _ _)
    (Nat.dvd_add h.aligned (dvd_roundUp size)) rfl ?_ ?_ (Nat.le_add_right _ _) ?_ ?_
  · rcases Nat.eq_zero_or_pos size with rfl | hpos
    · rw [roundUp_of_dvd (Nat.dvd_zero _), enlist, if_pos le_rfl]
      exact h.free
    · refine separated_enlist h.free fun t ht => .inr ?_
      have := h.free_le t ht
      rw [h.sbrk] at this
      exact lt_of_le_of_lt this (Nat.lt_add_of_pos_right hpos)
  · intro a ha
    cases covered_enlist.mp ha with
    | inl ha =>
        rw [inside_mk] at ha
        exact ⟨.inr (.inr (by omega)), ha.2⟩
    | inr ha => exact ⟨.inl ha, lt_of_lt_of_le (h.lt_of_covered ha) (Nat.le_add_right _ _)⟩
  · intro a ha
    rw [inside_mk] at ha
    refine ⟨.inr (.inr ha.1), lt_of_lt_of_le ha.2 (Nat.add_le_add_left hsz _), fun hnew => ?_⟩
    cases covered_enlist.mp hnew with
    | inl hnew =>
        rw [inside_mk] at hnew
        omega
    | inr hnew =>
        have := h.lt_of_covered hnew
        omega
  · exact fun g hg => h.mapped_grown hk hg

omit [PageLaws] in
theorem HeapOk.freed (h : HeapOk c.mm vma) (hid : id < pagingMaxSymtblSz) {rg : VmRg}
    (hrg : rg.Empty) :
    HeapOk (c.withHeap [{ vma with vmFreergList := BtlOs.freed c.mm vma id }]
      (Function.update c.mm.symrgtbl id rg)).mm
      { vma with vmFreergList := BtlOs.freed c.mm vma id } := by
  refine h.update hid rfl h.vmId h.sbrk le_rfl h.aligned rfl (h.regions.separated_freed hid) ?_
    hrg.le ?_ h.mapped
  · intro a ha
    cases (h.regions.covered_freed hid).mp ha with
    | inl ha =>
        have := h.live_le id hid a ha
        rw [h.sbrk] at this
        exact ⟨.inr (.inl ha), this⟩
    | inr ha => exact ⟨.inl ha, h.lt_of_covered ha⟩
  · rintro a ⟨h₁, h₂⟩
    unfold VmRg.Empty at hrg
    omega

/-! ### The three ways in which an allocation ends -/

inductive AllocStep (c : Ctx) (vma : VmArea) (size id : ℕ) : ℤ → Ctx → Prop
  | fit {rgit : VmRg} {rest : List VmRg} :
      firstFit size vma.vmFreergList = some (rgit, rest) →
      AllocStep c vma size id 0 (c.withHeap
        [{ vma with vmFreergList := enlist ⟨rgit.rgStart + size, rgit.rgEnd⟩ rest }]
        (Function.update c.mm.symrgtbl id ⟨rgit.rgStart, rgit.rgStart + size⟩))
  | grow : firstFit size vma.vmFreergList = none → pages size ≤ c.dev.mram.freeFpList.length →
      AllocStep c vma size id 0 ((c.withHeap
        [{ vma.grown size with
          vmFreergList := enlist ⟨vma.vmEnd + size, vma.vmEnd + roundUp size⟩ vma.vmFreergList }]
        (Function.update c.mm.symrgtbl id ⟨vma.vmEnd, vma.vmEnd + size⟩)).grown
          (vma.vmEnd / pagingPagesz) (pages size))
  | oom : c.dev.mram.freeFpList.length < pages size → AllocStep c vma size id (-1) c

/-- `n` frames are enough for the heap and the frames that are still free. -/
def Room (n : ℕ) (c : Ctx) (vma : VmArea) : Prop :=
  vma.vmEnd + c.dev.mram.freeFpList.length * pagingPagesz ≤ n * pagingPagesz

/-- The frames that are free keep a growth below `int` and inside the page table. -/
theorem Room.grow {n : ℕ} (hroom : Room n c vma) (h : HeapOk c.mm vma)
    (hn : n * pagingPagesz < 2 ^ 31) (hM : n ≤ pagingMaxPgn)
    (hk : pages size ≤ c.dev.mram.freeFpList.length) :
    vma.vmEnd + roundUp size < 2 ^ 31 ∧
      vma.vmEnd / pagingPagesz + pages size ≤ pagingMaxPgn := by
  have hmul := Nat.mul_le_mul_right pagingPagesz hk
  rw [pages_mul] at hmul
  unfold Room at hroom
  refine ⟨by omega, le_trans ?_ hM⟩
  refine Nat.le_of_mul_le_mul_right ?_ pagesz_pos
  rw [Nat.add_mul, Nat.div_mul_cancel h.aligned, pages_mul]
  omega

theorem HeapOk.liballoc {n : ℕ} (h : HeapOk c.mm vma) (hlock : c.mmvmLock = false)
    (hroom : Room n c vma) (hn : n * pagingPagesz < 2 ^ 31) (hM : n ≤ pagingMaxPgn)
    (hid : id < pagingMaxSymtblSz) (hsz : roundUp size < 2 ^ 31) :
    ∃ st c', liballoc c size id = .ok (st, c') ∧ AllocStep c vma size id st c' := by
  have hb : vma.vmEnd < 2 ^ 31 := by
    unfold Room at hroom
    omega
  rcases hf : BtlOs.firstFit size vma.vmFreergList with _ | ⟨rgit, rest⟩
  · by_cases hk : pages size ≤ c.dev.mram.freeFpList.length
    · obtain ⟨hend, hpg⟩ := hroom.grow h hn hM hk
      exact ⟨_, _, liballoc_grow h hlock hend hid hf hk hpg, .grow hf hk⟩
    · exact ⟨_, _, liballoc_oom h hlock hb hsz hf (by omega), .oom (by omega)⟩
  · exact ⟨_, _, liballoc_fit h hlock hb hid (lt_of_le_of_lt (le_roundUp size) hsz) hf, .fit hf⟩

/-- An allocation moves the frames it takes from the free list into the heap. -/
theorem AllocStep.heapOk {n : ℕ} {st : ℤ} {c' : Ctx} (hs : AllocStep c vma size id st c')
    (h : HeapOk c.mm vma) (hroom : Room n c vma) (hn : n * pagingPagesz < 2 ^ 31)
    (hid : id < pagingMaxSymtblSz) (hsz : roundUp size < 2 ^ 31) :
    ∃ vma', HeapOk c'.mm vma' ∧ Room n c' vma' := by
  have hpos := pagesz_pos
  unfold Room at hroom
  cases hs with
  | fit hf =>
      have hb : vma.vmEnd < 2 ^ 31 := by omega
      exact ⟨_, h.fit hb hid (lt_of_le_of_lt (le_roundUp size) hsz) hf, hroom⟩
  | grow hf hk =>
      refine ⟨_, h.grow hid hk, ?_⟩
      show vma.vmEnd + roundUp size + (c.dev.mram.freeFpList.drop (pages size)).length *
        pagingPagesz ≤ n * pagingPagesz
      rw [List.length_drop, ← pages_mul, Nat.add_assoc, ← Nat.add_mul, Nat.add_sub_cancel' hk]
      exact hroom
  | oom _ => exact ⟨vma, h, hroom⟩

omit [PageLaws] in
theorem AllocStep.mmvmLock {st : ℤ} {c' : Ctx} (hs : AllocStep c vma size id st c') :
    c'.mmvmLock = c.mmvmLock := by
  cases hs <;> rfl

omit [PageLaws] in
theorem AllocStep.frames_le {st : ℤ} {c' : Ctx} (hs : AllocStep c vma size id st c') :
    c'.dev.mram.freeFpList.length ≤ c.dev.mram.freeFpList.length := by
  cases hs with
  | fit _ => exact le_rfl
  | grow _ _ => exact by simp [Ctx.grown, Ctx.withHeap]
  | oom _ => exact le_rfl

end calls

/-! ### The system -/

/-- Steps with region ids inside the symbol table and sizes whose rounding fits `int`; a loaded
process has an empty symbol table. -/
def InHeapRange (_ : Sys) : Event → Prop
  | .call _ (.alloc size regIndex) _ _ => regIndex < pagingMaxSymtblSz ∧ roundUp size < 2 ^ 31
  | .call _ (.free regIndex) _ _ => regIndex < pagingMaxSymtblSz
  | .call _ _ _ _ => False
  | .load _ mm₀ _ _ => ∀ id < pagingMaxSymtblSz, (mm₀.symrgtbl id).Empty
  | .release _ => True

instance (s : Sys) : ∀ e, Decidable (InHeapRange s e)
  | .call _ (.alloc _ _) _ _ => inferInstanceAs (Decidable (_ ∧ _))
  | .call _ (.free _) _ _ => inferInstanceAs (Decidable (_ < _))
  | .call _ (.read _ _ _) _ _ => inferInstanceAs (Decidable False)
  | .call _ (.write _ _ _) _ _ => inferInstanceAs (Decidable False)
  | .call _ (.memmap _) _ _ => inferInstanceAs (Decidable False)
  | .load _ mm₀ _ _ => inferInstanceAs (Decidable (∀ id < pagingMaxSymtblSz,
      (mm₀.symrgtbl id).rgStart = (mm₀.symrgtbl id).rgEnd))
  | .release _ => inferInstanceAs (Decidable True)

/-- The heaps of a machine with `n` RAM frames. -/
structure HeapSys (n : ℕ) (s : Sys) : Prop where
  lock : s.mmvmLock = false
  frames : s.dev.mram.freeFpList.length ≤ n
  heap : ∀ p pr, s.procs p = some pr → ∃ vma, HeapOk pr.mm vma ∧ Room n (s.ctx pr) vma

section system

variable {n m : ℕ} {s s' : Sys} {p : ℕ} {pr : Process}

omit [PageLaws] in
theorem Booted.heapSys (h : Booted n m s) : HeapSys n s where
  lock := h.lock
  frames := by rw [h.ram, List.length_range]
  heap := by simp [h.procs]

omit [PageLaws] in
/-- A call that keeps the heap of its process, and frees no frame, keeps the heaps of all. -/
theorem HeapSys.commit {c : Ctx} {vma : VmArea} (h : HeapSys n s) (hlock : c.mmvmLock = false)
    (hle : c.dev.mram.freeFpList.length ≤ s.dev.mram.freeFpList.length) (hc : HeapOk c.mm vma)
    (hroom : Room n c vma) : HeapSys n (s.commit p c) := by
  refine ⟨hlock, le_trans hle h.frames, ?_⟩
  apply forall_enter
  · exact ⟨vma, hc, hroom⟩
  · intro q qr _ hq
    obtain ⟨vma', h', hroom'⟩ := h.heap q qr hq
    refine ⟨vma', h', le_trans ?_ hroom'⟩
    exact Nat.add_le_add_left (Nat.mul_le_mul_right _ hle) _

omit [PageLaws] in
theorem HeapSys.load (h : HeapSys n s) {mm₀ : Mm} (pgd₀ : ℕ → Pte) (activeMswpId : ℤ)
    (hempty : ∀ id < pagingMaxSymtblSz, (mm₀.symrgtbl id).Empty) :
    HeapSys n { s with
      procs := Function.update s.procs p (some ⟨initMm mm₀ pgd₀, activeMswpId⟩) } := by
  refine ⟨h.lock, h.frames, ?_⟩
  apply forall_enter
  · refine ⟨_, heapOk_initMm pgd₀ hempty, ?_⟩
    show 0 + s.dev.mram.freeFpList.length * pagingPagesz ≤ n * pagingPagesz
    rw [Nat.zero_add]
    exact Nat.mul_le_mul_right _ h.frames
  · exact fun q qr _ => h.heap q qr

omit [PageLaws] in
theorem HeapSys.release (h : HeapSys n s) :
    HeapSys n { s with procs := Function.update s.procs p none } := by
  exact ⟨h.lock, h.frames, forall_remove h.heap⟩

variable (hn : n * pagingPagesz < 2 ^ 31) (hM : n ≤ pagingMaxPgn)

include hn hM

theorem HeapSys.liballoc {size id : ℕ} (h : HeapSys n s) (hp : s.procs p = some pr)
    (hid : id < pagingMaxSymtblSz) (hsz : roundUp size < 2 ^ 31) :
    ∃ st c, BtlOs.liballoc (s.ctx pr) size id = .ok (st, c) ∧ HeapSys n (s.commit p c) := by
  obtain ⟨vma, hok, hroom⟩ := h.heap p pr hp
  obtain ⟨st, c, he, hs⟩ := HeapOk.liballoc (c := s.ctx pr) hok h.lock hroom hn hM hid hsz
  obtain ⟨vma', hok', hroom'⟩ := hs.heapOk hok hroom hn hid hsz
  exact ⟨st, c, he, h.commit (hs.mmvmLock.trans h.lock) hs.frames_le hok' hroom'⟩

omit hn hM in
theorem HeapSys.libfree {id : ℕ} (h : HeapSys n s) (hp : s.procs p = some pr)
    (hid : id < pagingMaxSymtblSz) :
    ∃ st c, BtlOs.libfree (s.ctx pr) id = .ok (st, c) ∧ HeapSys n (s.commit p c) := by
  obtain ⟨vma, hok, hroom⟩ := h.heap p pr hp
  obtain ⟨st, rg, he, hempty, _⟩ := libfree_eq (c := s.ctx pr) hok.regions h.lock hid
  exact ⟨st, _, he, h.commit h.lock le_rfl (HeapOk.freed (c := s.ctx pr) hok hid hempty) hroom⟩

theorem HeapSys.step {e : Event} (h : HeapSys n s) (hs : MemStep s e s') (hr : InHeapRange s e) :
    HeapSys n s' := by
  cases hs with
  | load mm₀ pgd₀ activeMswpId _ => exact h.load pgd₀ activeMswpId hr
  | release _ => exact h.release
  | @call p pr cl st val c hp hc =>
      cases cl with
      | alloc size regIndex =>
          obtain ⟨st', c', he, h'⟩ := h.liballoc hn hM hp hr.1 hr.2
          simp only [Ctx.call, he, ok_bind, Except.ok.injEq, Prod.mk.injEq] at hc
          obtain ⟨rfl, rfl, rfl⟩ := hc
          exact h'
      | free regIndex =>
          obtain ⟨st', c', he, h'⟩ := h.libfree hp hr
          simp only [Ctx.call, he, ok_bind, Except.ok.injEq, Prod.mk.injEq] at hc
          obtain ⟨rfl, rfl, rfl⟩ := hc
          exact h'
      | read _ _ _ => exact absurd hr id
      | write _ _ _ => exact absurd hr id
      | memmap _ => exact absurd hr id

end system

theorem heapSys_of_run {n m : ℕ} (hM : n ≤ pagingMaxPgn) {s₀ s : Sys} {es : List Event}
    (h₀ : Booted n m s₀) (hr : (memLts.restrict InHeapRange).Run s₀ es s) :
    n * pagingPagesz < 2 ^ 31 ∧ HeapSys n s := by
  have hn := h₀.ram_bytes
  exact ⟨hn, hr.invariant (fun _ _ _ h hs => h.step hn hM hs.1 hs.2) h₀.heapSys⟩

/-- **Heap invariant.**  In every state that any number of processes reach by allocations and
releases, every heap satisfies its invariant and the next call in range returns. -/
theorem heap_invariant {n m : ℕ} (hM : n ≤ pagingMaxPgn) {s₀ s : Sys} {es : List Event}
    (h₀ : Booted n m s₀) (hr : (memLts.restrict InHeapRange).Run s₀ es s) {p : ℕ} {pr : Process}
    (hp : s.procs p = some pr) :
    (∃ vma, HeapOk pr.mm vma ∧
        (PteLaws → ∀ g, g * pagingPagesz < vma.vmEnd → Resident (pr.mm.pgd g))) ∧
      (∀ size < 2 ^ 32, ∀ id < pagingMaxSymtblSz, roundUp size < 2 ^ 31 →
        ∃ st c, liballoc (s.ctx pr) size id = .ok (st, c)) ∧
      ∀ id < pagingMaxSymtblSz, ∃ st c, libfree (s.ctx pr) id = .ok (st, c) := by
  obtain ⟨hn, h⟩ := heapSys_of_run hM h₀ hr
  refine ⟨?_, ?_, ?_⟩
  · obtain ⟨vma, hok, _⟩ := h.heap p pr hp
    refine ⟨vma, hok, fun _ g hg => ?_⟩
    obtain ⟨pte, fpn, he⟩ := hok.mapped g hg
    rw [he]
    exact resident_pteSetFpn pte fpn
  · intro size _ id hid hsz
    obtain ⟨st, c, he, _⟩ := h.liballoc hn hM hp hid hsz
    exact ⟨st, c, he⟩
  · intro id hid
    obtain ⟨st, c, he, _⟩ := h.libfree hp hid
    exact ⟨st, c, he⟩

end heap

/-- Two allocations, a release, a second release of the same id, and an allocation of three pages
that only two frames cannot give. -/
def heapSample : List Event :=
  [loadBlank 0, .call 0 (.alloc 300 1) 0 none, .call 0 (.alloc 100 2) 0 none,
    .call 0 (.free 1) 0 none, .call 0 (.free 1) 0 none, .call 0 (.alloc 600 1) (-1) none]

theorem heap_invariant_sample :
    ∃ s pr vma, ((@memLts header22).restrict (@InHeapRange header22)).Run boot22 heapSample s ∧
      s.procs 0 = some pr ∧ @HeapOk header22 pr.mm vma := by
  let := header22
  let := header22_pageLaws
  have hsome : ((Lts.replay (Lts.guarded Sys.next InHeapRange) boot22 heapSample).bind
      fun s => s.procs 0).isSome = true := by decide +kernel
  obtain ⟨pr, hpr⟩ := Option.isSome_iff_exists.mp hsome
  obtain ⟨s, hs, hp⟩ := Option.bind_eq_some_iff.mp hpr
  have hrun : (memLts.restrict InHeapRange).Run boot22 heapSample s :=
    Lts.Run.of_replay_guarded (fun _ _ _ => memStep_of_next) hs
  obtain ⟨⟨vma, hok, _⟩, _⟩ := heap_invariant (by decide) booted_boot22 hrun hp
  exact ⟨s, pr, vma, hrun, hp, hok⟩

end BtlOs
