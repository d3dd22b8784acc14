import BtlOs.Heap

/-! # Allocations of any size (`__alloc`, `inc_vma_limit`)

`AllocStep` is an allocation whose rounding to pages fits `int`.  Here the size is any `uint32_t`,
as `liballoc` takes it: it is converted to `int`, compared with the free nodes as `unsigned long`,
rounded to pages in `int` and added to addresses in `int`.

`liballoc_ok` says how such a call may end on a heap: a free node fits, the frames are short, or
the area is raised.  A call that ends in the second way changes nothing. -/

namespace BtlOs

open CLang Header Segments

variable [Header]

/-- The pages that `inc_vma_limit` takes for an allocation of `size` bytes. -/
def newPages (size : ℕ) : ℕ := ((pagingPageAlignsz (int32 size)).tdiv pagingPagesz).toNat

/-- An index of the symbol table, as `__alloc` uses it. -/
def InTable (id : ℕ) : Prop := 0 ≤ int32 id ∧ int32 id < pagingMaxSymtblSz

variable {c c' : Ctx} {vma : VmArea} {size id : ℕ} {st : ℤ}

/-- The three ways in which an allocation of any size ends. -/
theorem liballoc_ok (h : HeapOk c.mm vma) (hb : vma.vmEnd < 2 ^ 31)
    (he : liballoc c size id = .ok (st, c')) :
    (st = 0 ∧ InTable id ∧ (firstFit (int32 size) vma.vmFreergList).isSome) ∨
    (st = -1 ∧ firstFit (int32 size) vma.vmFreergList = none ∧
      c.dev.mram.freeFpList.length < newPages size ∧ c' = c) ∨
    (st = 0 ∧ InTable id ∧ firstFit (int32 size) vma.vmFreergList = none ∧
      newPages size ≤ c.dev.mram.freeFpList.length ∧ ∃ mmap,
        c' = (c.withHeap mmap (Function.update c.mm.symrgtbl (int32 id).toNat
          ⟨vma.vmEnd, ulong (int32 (vma.vmEnd + int32 size))⟩)).grown (pagingPgn vma.vmEnd)
            (newPages size)) := by
  have hvmEnd : int32 vma.vmEnd = vma.vmEnd := int32_natCast hb
  have hsb : int32 vma.sbrk = vma.vmEnd := by rw [h.sbrk, hvmEnd]
  have hend : ulong (vma.vmEnd : ℤ) = vma.vmEnd := ulong_natCast (by omega)
  obtain ⟨addr, ha, rfl⟩ := liballoc_eq_ok he
  obtain ⟨hlock, _⟩ := alloc_ok ha
  rcases hf : firstFit (int32 size) vma.vmFreergList with _ | x
  · rw [alloc_of_none h.mmap h.vmId hlock hf, int32_int32] at ha
    obtain ⟨⟨st', c₂⟩, hinc, ha⟩ := bind_eq_ok.mp ha
    obtain ⟨vma', hvma', ha⟩ := bind_eq_ok.mp ha
    dsimp only at hvma' ha
    rw [hvmEnd, hsb, hend] at ha
    rcases incVmaLimit_single_ok (c := { c with mmvmLock := true }) h.mmap h.vmId hinc with
      ⟨rfl, hlt, rfl⟩ | ⟨rfl, hle, rfl⟩
    · -- the area goes back to where it was, which `int` represents
      obtain rfl : vma.raised _ = vma' := Except.ok.inj hvma'
      rw [if_pos (show (-1 : ℤ) < 0 by decide)] at ha
      obtain ⟨rfl, rfl⟩ := Prod.mk.inj (Except.ok.inj ha)
      refine .inr (.inl ⟨rfl, rfl, hlt, ?_⟩)
      have hvma : [{ vma with vmEnd := vma.vmEnd, sbrk := vma.vmEnd }] = c.mm.mmap := by
        rw [h.mmap]
        exact congrArg (fun b => [{ vma with vmEnd := vma.vmEnd, sbrk := b }]) h.sbrk.symm
      show { c with
        mm := { c.mm with mmap := [{ vma with vmEnd := vma.vmEnd, sbrk := vma.vmEnd }] }
        mmvmLock := false } = c
      rw [hvma, ← hlock]
    · obtain rfl : vma.raised _ = vma' := Except.ok.inj hvma'
      rw [if_neg (show ¬ (0 : ℤ) < 0 by decide)] at ha
      simp only [bind_eq_ok, Mm.symSet_eq_ok, Except.ok.injEq, Prod.mk.injEq] at ha
      obtain ⟨_, ⟨hid, rfl⟩, ⟨_, mm₁⟩, hen, rfl, rfl⟩ := ha
      obtain ⟨mmap, rfl⟩ := enlistVmFreergList_ok hen
      refine .inr (.inr ⟨rfl, hid, rfl, hle, mmap, ?_⟩)
      simp [Ctx.unlock, Ctx.grown, Ctx.withHeap, Mm.mapped, hlock, hvmEnd, newPages]
  · obtain ⟨rg, l, hfree⟩ := (getFreeVmrgArea_single h.mmap h.vmId (int32 size)).2 x hf
    unfold alloc at ha
    rw [Ctx.lock_eq hlock, ok_bind] at ha
    dsimp only at ha
    rw [hfree, ok_bind] at ha
    simp only [bind_eq_ok, Mm.symSet_eq_ok, Except.ok.injEq, Prod.mk.injEq] at ha
    obtain ⟨_, ⟨hid, _⟩, rfl, _⟩ := ha
    exact .inl ⟨rfl, hid, rfl⟩

/-- **A failed allocation changes nothing.**  `vm_end` is kept in the local `int old_end`, so it
is an `int`. -/
theorem failed_allocation (h : HeapOk c.mm vma) (hb : vma.vmEnd < 2 ^ 31)
    (he : liballoc c size id = .ok (st, c')) (hst : st < 0) : c' = c := by
  rcases liballoc_ok h hb he with ⟨rfl, _⟩ | ⟨_, _, _, hc⟩ | ⟨rfl, _⟩
  · exact absurd hst (by decide)
  · exact hc
  · exact absurd hst (by decide)

/-- The heap after `init_mm` on a RAM of two frames. -/
def blankCtx : Ctx := ⟨initMm blankMm fun _ => 0, boot22.dev, 0, false⟩

omit [Header] in
theorem heapOk_blankCtx : @HeapOk header22 blankCtx.mm ⟨0, 0, 0, 0, []⟩ :=
  @heapOk_initMm header22 blankMm (fun _ => 0) fun _ _ => rfl

omit [Header] in
/-- Three pages of two frames: both are taken and given back. -/
theorem failed_allocation_sample :
    ∃ c', @liballoc header22 blankCtx 600 1 = .ok (-1, c') ∧ c' = blankCtx := by
  let := header22
  have hsome : (liballoc blankCtx 600 1).toOption.any (fun r => r.1 = -1) = true := by
    decide +kernel
  obtain ⟨⟨st, c'⟩, he, hst⟩ := exists_ok_of_any hsome
  obtain rfl : st = -1 := of_decide_eq_true hst
  exact ⟨c', he, failed_allocation heapOk_blankCtx (by decide) he (by decide)⟩

/-! ### The region that an allocation gives -/

/-- The pages mapped after a call: those of the heap before it, and those that it gave one of the
frames it took. -/
def Mapped (c c' : Ctx) (vma : VmArea) (g : ℕ) : Prop :=
  g * pagingPagesz < vma.vmEnd ∨ ∃ fpn ∈ c.dev.mram.freeFpList.take
    (c.dev.mram.freeFpList.length - c'.dev.mram.freeFpList.length),
      c'.mm.pgd g = pteSetFpn (c.mm.pgd g) fpn

/-- The region of an allocation of `size` bytes, in the heap `vma'` after the call. -/
structure Placed (c c' : Ctx) (vma vma' : VmArea) (size id : ℕ) : Prop where
  length : (c'.mm.symrgtbl id).rgEnd = (c'.mm.symrgtbl id).rgStart + size
  inside : ∀ a, (c'.mm.symrgtbl id).Inside a → a < vma'.sbrk
  free : ∀ a, (c'.mm.symrgtbl id).Inside a → ¬ Covered vma'.vmFreergList a
  live : ∀ id' < pagingMaxSymtblSz, id' ≠ id → ∀ a, (c'.mm.symrgtbl id).Inside a →
    ¬ (c'.mm.symrgtbl id').Inside a
  mapped : ∀ a, (c'.mm.symrgtbl id).Inside a → Mapped c c' vma (a / pagingPagesz)
  end_le : vma.vmEnd ≤ vma'.vmEnd

/-- The call fails and changes nothing, or it gives the region asked for. -/
def AllocRight (c : Ctx) (vma : VmArea) (size id : ℕ) : Prop :=
  ∃ st c', liballoc c size id = .ok (st, c') ∧ (st ≠ 0 ∧ c' = c ∨
    st = 0 ∧ ∃ vma', c'.mm.mmap = [vma'] ∧ Placed c c' vma vma' size id)

/-- An index inside the table where a free node fits or the rounding of the size does not leave
`int`; or the call is refused for lack of frames. -/
def AllocFits (c : Ctx) (vma : VmArea) (size id : ℕ) : Prop :=
  (id < pagingMaxSymtblSz ∧
    ((firstFit (int32 size) vma.vmFreergList).isSome ∨ size + pagingPagesz ≤ 2 ^ 31)) ∨
  (firstFit (int32 size) vma.vmFreergList = none ∧ c.dev.mram.freeFpList.length < pages size ∧
    size + pagingPagesz ≤ 2 ^ 31)

variable [PageLaws]

theorem roundUp_lt (hsz : size + pagingPagesz ≤ 2 ^ 31) : roundUp size < 2 ^ 31 := by
  have hpos := pagesz_pos
  have := Nat.div_mul_le_self (size + pagingPagesz - 1) pagingPagesz
  unfold roundUp
  omega

theorem newPages_eq (hsz : roundUp size < 2 ^ 31) : newPages size = pages size := by
  have hle := le_roundUp size
  unfold newPages
  rw [int32_natCast (by omega), PageLaws.alignsz size hsz, Int.tdiv_eq_ediv_of_nonneg (by omega)]
  rfl

omit [PageLaws] in
/-- A size that is negative as an `int` is larger than every node as an `unsigned long`. -/
theorem HeapOk.lt_of_firstFit (h : HeapOk c.mm vma) (hb : vma.vmEnd < 2 ^ 31) (hsz : size < 2 ^ 32)
    (hf : (BtlOs.firstFit (int32 size) vma.vmFreergList).isSome) : size < 2 ^ 31 := by
  obtain ⟨⟨rgit, rest⟩, hf⟩ := Option.isSome_iff_exists.mp hf
  obtain ⟨l₁, l₂, hl, _, hle, _⟩ := firstFit_some hf
  have hmem : rgit ∈ vma.vmFreergList := by simp [hl]
  have hend := h.free_le rgit hmem
  have hne := h.free.nonempty rgit hmem
  rw [h.sbrk] at hend
  unfold ulong int32 at hle
  omega

omit [PageLaws] in
theorem HeapOk.placed {vma' : VmArea} (h' : HeapOk c'.mm vma') (hid : id < pagingMaxSymtblSz)
    (hlen : (c'.mm.symrgtbl id).rgEnd = (c'.mm.symrgtbl id).rgStart + size)
    (hle : vma.vmEnd ≤ vma'.vmEnd)
    (hmap : ∀ g, g * pagingPagesz < vma'.vmEnd → Mapped c c' vma g) :
    Placed c c' vma vma' size id where
  length := hlen
  inside := h'.live_le id hid
  free := h'.live_free id hid
  live := fun id' hid' hne => h'.live_live id hid id' hid' hne.symm
  mapped := by
    intro a ha
    have hlt := h'.live_le id hid a ha
    rw [h'.sbrk] at hlt
    exact hmap _ (lt_of_le_of_lt (Nat.div_mul_le_self a pagingPagesz) hlt)
  end_le := hle

theorem HeapOk.allocRight_fit {rgit : VmRg} {rest : List VmRg} (h : HeapOk c.mm vma)
    (hlock : c.mmvmLock = false) (hb : vma.vmEnd < 2 ^ 31) (hid : id < pagingMaxSymtblSz)
    (hsz : size < 2 ^ 31) (hf : BtlOs.firstFit size vma.vmFreergList = some (rgit, rest)) :
    AllocRight c vma size id := by
  refine ⟨0, _, liballoc_fit h hlock hb hid hsz hf, .inr ⟨rfl, _, rfl, ?_⟩⟩
  refine HeapOk.placed (h.fit hb hid hsz hf) hid ?_ le_rfl fun g hg => .inl hg
  simp [Ctx.withHeap]

theorem HeapOk.allocRight_grow (h : HeapOk c.mm vma) (hlock : c.mmvmLock = false)
    (hb : vma.vmEnd + roundUp size < 2 ^ 31) (hid : id < pagingMaxSymtblSz)
    (hf : BtlOs.firstFit size vma.vmFreergList = none)
    (hk : pages size ≤ c.dev.mram.freeFpList.length)
    (hM : vma.vmEnd / pagingPagesz + pages size ≤ pagingMaxPgn) : AllocRight c vma size id := by
  have hend : vma.vmEnd / pagingPagesz * pagingPagesz = vma.vmEnd := Nat.div_mul_cancel h.aligned
  refine ⟨0, _, liballoc_grow h hlock hb hid hf hk hM, .inr ⟨rfl, _, rfl, ?_⟩⟩
  refine HeapOk.placed (h.grow hid hk) hid ?_ (Nat.le_add_right _ _) fun g hg => ?_
  · simp [Ctx.grown, Ctx.withHeap, Mm.mapped]
  · by_cases hlt : g < vma.vmEnd / pagingPagesz
    · refine .inl ?_
      rw [← hend]
      exact Nat.mul_lt_mul_of_pos_right hlt pagesz_pos
    · obtain ⟨i, rfl⟩ := Nat.exists_eq_add_of_le (not_lt.mp hlt)
      have hi : i < pages size := by
        change _ < vma.vmEnd + roundUp size at hg
        rw [Nat.add_mul, hend, ← pages_mul] at hg
        exact Nat.lt_of_mul_lt_mul_right (Nat.lt_of_add_lt_add_left hg)
      have hi' : i < (c.dev.mram.freeFpList.take (pages size)).reverse.length := by
        simpa using ⟨hi, by omega⟩
      have htaken : c.dev.mram.freeFpList.length -
          (c.dev.mram.freeFpList.drop (pages size)).length = pages size := by
        rw [List.length_drop]
        omega
      refine .inr ⟨(c.dev.mram.freeFpList.take (pages size)).reverse[i], ?_,
        mapPages_get _ _ _ hi'⟩
      show _ ∈ c.dev.mram.freeFpList.take (c.dev.mram.freeFpList.length -
        (c.dev.mram.freeFpList.drop (pages size)).length)
      rw [htaken]
      exact List.mem_reverse.mp (List.getElem_mem hi')

theorem AllocFits.right {n : ℕ} (hfit : AllocFits c vma size id) (h : HeapOk c.mm vma)
    (hlock : c.mmvmLock = false) (hroom : Room n c vma) (hn : n * pagingPagesz < 2 ^ 31)
    (hM : n ≤ pagingMaxPgn) (hsz : size < 2 ^ 32) : AllocRight c vma size id := by
  have hb : vma.vmEnd < 2 ^ 31 := by
    unfold Room at hroom
    omega
  rcases hfit with ⟨hid, hfit⟩ | ⟨hf, hk, hle⟩
  · rcases hf : firstFit (int32 size) vma.vmFreergList with _ | ⟨rgit, rest⟩
    · rw [hf] at hfit
      have hr := roundUp_lt (hfit.resolve_left (by simp))
      have hlt := lt_of_le_of_lt (le_roundUp size) hr
      rw [int32_natCast hlt] at hf
      by_cases hk : pages size ≤ c.dev.mram.freeFpList.length
      · obtain ⟨hend, hpg⟩ := hroom.grow h hn hM hk
        exact h.allocRight_grow hlock hend hid hf hk hpg
      · exact ⟨-1, c, liballoc_oom h hlock hb hr hf (by omega), .inl ⟨by decide, rfl⟩⟩
    · have hlt : size < 2 ^ 31 := h.lt_of_firstFit hb hsz (by simp [hf])
      rw [int32_natCast hlt] at hf
      exact h.allocRight_fit hlock hb hid hlt hf
  · have hr := roundUp_lt hle
    have hlt := lt_of_le_of_lt (le_roundUp size) hr
    rw [int32_natCast hlt] at hf
    exact ⟨-1, c, liballoc_oom h hlock hb hr hf hk, .inl ⟨by decide, rfl⟩⟩

/-! ### Sizes whose rounding leaves `int` -/

omit [PageLaws] in
theorem toNat_tdiv_int32 {t : ℤ} (hpos : 0 < pagingPagesz) (h₀ : -2 ^ 31 ≤ t)
    (h₁ : t < pagingPagesz) :
    ((int32 (t.tdiv pagingPagesz * pagingPagesz)).tdiv pagingPagesz).toNat = 0 := by
  rcases le_or_gt 0 t with ht | ht
  · rw [Int.tdiv_eq_zero_of_lt ht h₁]
    simp
  · obtain ⟨u, rfl⟩ : ∃ u : ℤ, t = -u := ⟨-t, by omega⟩
    have hle := Int.ediv_mul_le u (b := pagingPagesz) (by omega)
    have hnonneg : 0 ≤ u / pagingPagesz * pagingPagesz :=
      Int.mul_nonneg (Int.ediv_nonneg (by omega) (by omega)) (by omega)
    have hq : (u / pagingPagesz * pagingPagesz).tdiv pagingPagesz = u / pagingPagesz := by
      rw [Int.mul_tdiv_cancel _ (by omega)]
    rw [Int.neg_tdiv, Int.tdiv_eq_ediv_of_nonneg (show 0 ≤ u by omega), Int.neg_mul,
      int32_of_range (by omega) (by omega), Int.neg_tdiv, hq]
    have := Int.ediv_nonneg (a := u) (b := pagingPagesz) (by omega) (by omega)
    omega

/-- `PAGING_PAGE_ALIGNSZ` in the arithmetic of C. -/
def AlignszInt : Prop := ∀ sz, pagingPageAlignsz sz =
  int32 ((int32 (sz + pagingPagesz - 1)).tdiv pagingPagesz * pagingPagesz)

theorem newPages_eq_zero (halign : AlignszInt) (hsz : size < 2 ^ 32)
    (hlt : 2 ^ 31 < size + pagingPagesz) : newPages size = 0 := by
  have hpos := pagesz_pos
  have hP : pagingPagesz < 2 ^ 31 := PageLaws.pagesz_lt
  have hrange := int32_range (int32 size + pagingPagesz - 1)
  unfold newPages
  rw [halign]
  refine toNat_tdiv_int32 hpos hrange.1 ?_
  unfold int32
  omega

theorem inTable_iff (hid : id < 2 ^ 32) : InTable id ↔ id < pagingMaxSymtblSz := by
  have hS : pagingMaxSymtblSz < 2 ^ 31 := PageLaws.symtblSz_lt
  unfold InTable int32
  omega

/-- A region that is placed where the area was raised by no page: its end is beyond `int`, or no
page holds it. -/
theorem not_placed_of_newPages {vma' : VmArea} {mmap : List VmArea} {symrgtbl : ℕ → VmRg}
    {a : ℕ} (h : HeapOk c.mm vma) (hb : vma.vmEnd < 2 ^ 31) (hsz : size < 2 ^ 32)
    (hlt : 2 ^ 31 < size + pagingPagesz)
    (hsym : symrgtbl id = ⟨vma.vmEnd, ulong (int32 (vma.vmEnd + int32 size))⟩) :
    ¬ Placed c ((c.withHeap mmap symrgtbl).grown a 0) vma vma' size id := by
  intro hp
  have hpos := pagesz_pos
  have hP : pagingPagesz < 2 ^ 31 := PageLaws.pagesz_lt
  rw [Ctx.grown_zero] at hp
  have hlen := hp.length
  have hmap := hp.mapped 0
  simp only [Ctx.withHeap, hsym] at hlen hmap
  obtain ⟨k, hk⟩ := h.aligned
  rcases Nat.eq_zero_or_pos k with rfl | hkpos
  · rw [Nat.mul_zero] at hk
    rw [hk] at hlen hmap
    rw [hlen] at hmap
    rcases hmap (inside_mk.mpr ⟨le_rfl, by omega⟩) with h₀ | ⟨fpn, hmem, _⟩
    · omega
    · simp at hmem
  · have hP' : pagingPagesz ≤ vma.vmEnd := hk ▸ Nat.le_mul_of_pos_right _ hkpos
    unfold ulong int32 at hlen
    omega

theorem AllocRight.fits (hright : AllocRight c vma size id) (halign : AlignszInt)
    (h : HeapOk c.mm vma) (hb : vma.vmEnd < 2 ^ 31) (hsz : size < 2 ^ 32) (hid : id < 2 ^ 32) :
    AllocFits c vma size id := by
  obtain ⟨st, c', he, hend⟩ := hright
  rcases liballoc_ok h hb he with ⟨_, htab, hf⟩ | ⟨_, hf, hk, _⟩ | ⟨rfl, htab, hf, _, mmap, rfl⟩
  · exact .inl ⟨(inTable_iff hid).mp htab, .inl hf⟩
  · by_cases hle : size + pagingPagesz ≤ 2 ^ 31
    · rw [newPages_eq (roundUp_lt hle)] at hk
      exact .inr ⟨hf, hk, hle⟩
    · rw [newPages_eq_zero halign hsz (by omega)] at hk
      omega
  · refine .inl ⟨(inTable_iff hid).mp htab, .inr ?_⟩
    by_contra hle
    rw [newPages_eq_zero halign hsz (by omega)] at hend
    have hidx : (int32 id).toNat = id := by
      rw [int32_natCast]
      · simp
      · have := (inTable_iff hid).mp htab
        have := PageLaws.symtblSz_lt
        omega
    obtain ⟨hne, _⟩ | ⟨_, vma', _, hp⟩ := hend
    · exact hne rfl
    · refine not_placed_of_newPages h hb hsz (by omega) ?_ hp
      rw [hidx, Function.update_self]

/-- **Allocation for every size.**  A call is right exactly where a free node fits or the rounding
of the size to pages stays in `int`. -/
theorem allocRight_iff {n : ℕ} (halign : AlignszInt) (h : HeapOk c.mm vma)
    (hlock : c.mmvmLock = false) (hroom : Room n c vma) (hn : n * pagingPagesz < 2 ^ 31)
    (hM : n ≤ pagingMaxPgn) (hsz : size < 2 ^ 32) (hid : id < 2 ^ 32) :
    AllocRight c vma size id ↔ AllocFits c vma size id := by
  have hb : vma.vmEnd < 2 ^ 31 := by
    unfold Room at hroom
    omega
  constructor
  · intro hright
    exact hright.fits halign h hb hsz hid
  · intro hfit
    exact hfit.right h hlock hroom hn hM hsz

omit [Header] [PageLaws] in
theorem header22_alignszInt : @AlignszInt header22 := by
  intro sz
  show int32 ((int32 (sz + 255)).tdiv 256 * 256) = int32 ((int32 (sz + 256 - 1)).tdiv 256 * 256)
  rw [show sz + 256 - 1 = sz + 255 by omega]

omit [Header] [PageLaws] in
theorem allocRight_iff_sample : @AllocRight header22 blankCtx ⟨0, 0, 0, 0, []⟩ 300 1 ∧
    @AllocFits header22 blankCtx ⟨0, 0, 0, 0, []⟩ 300 1 := by
  let := header22
  let := header22_pageLaws
  have hfit : AllocFits blankCtx ⟨0, 0, 0, 0, []⟩ 300 1 := .inl ⟨by decide, .inr (by decide)⟩
  have hroom : Room 2 blankCtx ⟨0, 0, 0, 0, []⟩ := by
    unfold Room
    decide
  have hiff : AllocRight blankCtx ⟨0, 0, 0, 0, []⟩ 300 1 ↔
      AllocFits blankCtx ⟨0, 0, 0, 0, []⟩ 300 1 :=
    allocRight_iff (n := 2) header22_alignszInt heapOk_blankCtx rfl hroom (by decide) (by decide)
      (by decide) (by decide)
  exact ⟨hiff.mpr hfit, hfit⟩

omit [Header] [PageLaws] in
theorem not_allocRight_sample :
    (∃ c', @liballoc header22 blankCtx 4294967295 1 = .ok (0, c')) ∧
      ¬ @AllocRight header22 blankCtx ⟨0, 0, 0, 0, []⟩ 4294967295 1 := by
  let := header22
  let := header22_pageLaws
  constructor
  · have hsome : (liballoc blankCtx 4294967295 1).toOption.any (fun r => r.1 = 0) = true := by
      decide +kernel
    obtain ⟨⟨st, c'⟩, he, hst⟩ := exists_ok_of_any hsome
    obtain rfl : st = 0 := of_decide_eq_true hst
    exact ⟨c', he⟩
  · intro hright
    rcases hright.fits header22_alignszInt heapOk_blankCtx (by decide) (by decide) (by decide) with
      ⟨_, hf | hle⟩ | ⟨_, _, hle⟩
    · cases hf
    · exact absurd hle (by decide)
    · exact absurd hle (by decide)

end BtlOs
