import BtlOs.Heap

/-! # The limits of an area

`inc_vma_limit` raises `vm_end` and `sbrk` before `vm_map_ram` gets the frames for the new pages,
and does not put them back.  `__alloc` does this itself; a program that makes the system call
17 is left with limits over pages that are not mapped.

`inc_atomic_iff` says exactly when the call is all or nothing. -/

namespace BtlOs

open CLang Header

section

variable [Header]

/-- The pages of an increase. -/
def incPages (incSz : ℤ) : ℕ := ((pagingPageAlignsz incSz).tdiv pagingPagesz).toNat

/-- The limits of an area. -/
def VmArea.limits (vma : VmArea) : ℕ × ℕ := (vma.vmEnd, vma.sbrk)

/-- **All or nothing.**  A call that fails leaves the limits, the pages and the free frames as they
were; a call that succeeds moves `vm_end` by the rounded increment, `sbrk` to `vm_end`, and every
address that the area has got is on a page in RAM. -/
structure IncAtomic (c : Ctx) (vmaid incSz st : ℤ) (c' : Ctx) : Prop where
  failed : st = -1 → c'.mm.mmap.map VmArea.limits = c.mm.mmap.map VmArea.limits ∧
    c'.mm.pgd = c.mm.pgd ∧ c'.mm.fifoPgn = c.mm.fifoPgn ∧
      c'.dev.mram.freeFpList = c.dev.mram.freeFpList
  done : st = 0 → ∃ k vma vma', getVmaByNum c.mm vmaid = .ok (some k) ∧
    c.mm.mmap[k]? = some vma ∧ c'.mm.mmap[k]? = some vma' ∧
      (vma'.vmEnd : ℤ) = vma.vmEnd + pagingPageAlignsz incSz ∧ vma'.sbrk = vma'.vmEnd ∧
        ∀ a : ℕ, vma.vmEnd ≤ a → a < vma'.vmEnd → Resident (c'.mm.pgd (pagingPgn a))

/-- The increase is refused: there is no area, or the new region overlaps with another one. -/
def Ctx.IncRefused (c : Ctx) (vmaid incSz : ℤ) : Prop :=
  c.mm.mmap = [] ∨ ∃ region,
    getVmAreaNodeAtBrk c.mm vmaid incSz pagingPagesz = .ok (some region) ∧
      validateOverlapVmArea c.mm vmaid (int32 region.rgStart) (int32 region.rgEnd) = -1

/-- There are enough frames, the new end is an `unsigned long`, and the pages that are mapped and
those in RAM are the pages of all new addresses. -/
structure Ctx.IncFits (c : Ctx) (vma : VmArea) (incSz : ℤ) : Prop where
  frames : incPages incSz ≤ c.dev.mram.freeFpList.length
  nonneg : 0 ≤ vma.vmEnd + pagingPageAlignsz incSz
  lt : vma.vmEnd + pagingPageAlignsz incSz < 2 ^ 64
  pages : ∀ a : ℕ, vma.vmEnd ≤ a → (a : ℤ) < vma.vmEnd + pagingPageAlignsz incSz →
    Resident (c.mm.pgd (pagingPgn a)) ∨
      pagingPgn a ∈ List.range' (pagingPgn (int32 vma.vmEnd)) (incPages incSz)

/-- The increase is refused or it fits. -/
def Ctx.IncSound (c : Ctx) (vmaid incSz : ℤ) : Prop :=
  c.IncRefused vmaid incSz ∨ ∀ k vma, getVmaByNum c.mm vmaid = .ok (some k) →
    c.mm.mmap[k]? = some vma → c.IncFits vma incSz

/-! ### The three ends of a call -/

variable {c c' : Ctx} {vmaid incSz st : ℤ}

/-- The call is refused, or it raises the limits of an area and gets the frames or does not. -/
inductive IncEnd (c : Ctx) (vmaid incSz : ℤ) : ℤ → Ctx → Prop
  | refused : c.IncRefused vmaid incSz → IncEnd c vmaid incSz (-1) c
  | oom {k : ℕ} {vma : VmArea} : ¬ c.IncRefused vmaid incSz →
      getVmaByNum c.mm vmaid = .ok (some k) → c.mm.mmap[k]? = some vma →
      c.dev.mram.freeFpList.length < incPages incSz →
      IncEnd c vmaid incSz (-1) (c.withHeap
        (c.mm.mmap.set k (vma.raised (pagingPageAlignsz incSz))) c.mm.symrgtbl)
  | grow {k : ℕ} {vma : VmArea} : ¬ c.IncRefused vmaid incSz →
      getVmaByNum c.mm vmaid = .ok (some k) → c.mm.mmap[k]? = some vma →
      incPages incSz ≤ c.dev.mram.freeFpList.length →
      IncEnd c vmaid incSz 0 ((c.withHeap
        (c.mm.mmap.set k (vma.raised (pagingPageAlignsz incSz))) c.mm.symrgtbl).grown
          (pagingPgn (int32 vma.vmEnd)) (incPages incSz))

omit [Header] in
theorem Mm.area_eq_ok {mm : Mm} {p : Option ℕ} {vma : VmArea} :
    mm.area p = .ok vma ↔ ∃ k, p = some k ∧ mm.mmap[k]? = some vma := by
  cases p with
  | none => simp [Mm.area]
  | some k => cases h : mm.mmap[k]? <;> simp [Mm.area, h]

omit [Header] in
/-- `get_vm_area_node_at_brk` fails exactly where there is no area. -/
theorem getVmAreaNodeAtBrk_none {mm : Mm} {size alignedsz : ℤ}
    (h : getVmAreaNodeAtBrk mm vmaid size alignedsz = .ok none) : mm.mmap = [] := by
  unfold getVmAreaNodeAtBrk at h
  obtain ⟨curVma, hcur, h⟩ := bind_eq_ok.mp h
  split_ifs at h with hnone
  · subst hnone
    unfold getVmaByNum at hcur
    split at hcur
    · assumption
    · rename_i pvma next hm
      have hloop : ∀ (l : List VmArea) (k : ℕ), getVmaByNumLoop vmaid l k ≠ .ok none := by
        intro l
        induction l with
        | nil => simp [getVmaByNumLoop]
        | cons vma l ih =>
            intro k
            unfold getVmaByNumLoop
            split_ifs
            · exact ih (k + 1)
            · simp
      exact absurd hcur (hloop _ _)
  · obtain ⟨vma, _, h⟩ := bind_eq_ok.mp h
    cases h

theorem incEnd_of_ok (h : incVmaLimit c vmaid incSz = .ok (st, c')) :
    IncEnd c vmaid incSz st c' := by
  unfold incVmaLimit at h
  simp only [bind_eq_ok] at h
  obtain ⟨region, hregion, curVma, hcur, h⟩ := h
  cases region with
  | none =>
      obtain ⟨rfl, rfl⟩ := by simpa using h
      exact .refused (.inl (getVmAreaNodeAtBrk_none hregion))
  | some region =>
      obtain ⟨vma, hvma, h⟩ := bind_eq_ok.mp h
      obtain ⟨k, rfl, hk⟩ := Mm.area_eq_ok.mp hvma
      split_ifs at h with hoverlap
      · obtain ⟨rfl, rfl⟩ := by simpa using h
        exact .refused (.inr ⟨region, hregion, hoverlap⟩)
      · have hne : ¬ c.IncRefused vmaid incSz := by
          rintro (hnil | ⟨region', hregion', hoverlap'⟩)
          · simp [hnil] at hk
          · obtain rfl := Option.some.inj (Except.ok.inj (hregion.symm.trans hregion'))
            exact hoverlap hoverlap'
        obtain ⟨⟨st', retRg, c₁⟩, hmap, h⟩ := bind_eq_ok.mp h
        obtain ⟨rfl, rfl⟩ := Prod.mk.inj (Except.ok.inj h)
        rcases vmMapRam_ok hmap with ⟨rfl, hn, rfl⟩ | ⟨rfl, hn, rfl⟩
        · exact .oom hne hcur hk hn
        · exact .grow hne hcur hk hn

/-! ### All or nothing -/

theorem incPages_pos (h : 0 < incPages incSz) : 0 < pagingPageAlignsz incSz := by
  unfold incPages at h
  by_contra hle
  have hneg : 0 ≤ (pagingPageAlignsz incSz).tdiv (-pagingPagesz) :=
    Int.tdiv_nonneg_of_nonpos_of_nonpos (by omega) (by omega)
  rw [Int.tdiv_neg] at hneg
  omega

omit [Header] in
/-- Limits that were raised by a part of the address range have changed. -/
theorem VmArea.limits_raised {vma : VmArea} {incAmt : ℤ} (hpos : 0 < incAmt)
    (hlt : incAmt < 2 ^ 31) : (vma.raised incAmt).limits ≠ vma.limits := by
  intro he
  have hend : ulong (vma.vmEnd + incAmt) = vma.vmEnd := congrArg Prod.fst he
  unfold ulong at hend
  omega

section ends

variable {k : ℕ} {vma : VmArea} (hcur : getVmaByNum c.mm vmaid = .ok (some k))
  (hk : c.mm.mmap[k]? = some vma)

include hcur hk

/-- The only area that counts is the one that is raised. -/
theorem Ctx.incSound_iff (hne : ¬ c.IncRefused vmaid incSz) :
    c.IncSound vmaid incSz ↔ c.IncFits vma incSz := by
  constructor
  · intro h
    exact h.resolve_left hne k vma hcur hk
  · intro h
    refine .inr fun k' vma' hcur' hk' => ?_
    obtain rfl := Option.some.inj (Except.ok.inj (hcur.symm.trans hcur'))
    obtain rfl := Option.some.inj (hk.symm.trans hk')
    exact h

theorem incAtomic_grown [PteLaws] (hn : incPages incSz ≤ c.dev.mram.freeFpList.length) :
    IncAtomic c vmaid incSz 0 ((c.withHeap
        (c.mm.mmap.set k (vma.raised (pagingPageAlignsz incSz))) c.mm.symrgtbl).grown
          (pagingPgn (int32 vma.vmEnd)) (incPages incSz)) ↔ c.IncFits vma incSz := by
  have hlen : (c.dev.mram.freeFpList.take (incPages incSz)).reverse.length = incPages incSz := by
    simpa using hn
  have hres : ∀ g, Resident (((c.withHeap (c.mm.mmap.set k
      (vma.raised (pagingPageAlignsz incSz))) c.mm.symrgtbl).grown
        (pagingPgn (int32 vma.vmEnd)) (incPages incSz)).mm.pgd g) ↔
      Resident (c.mm.pgd g) ∨
        g ∈ List.range' (pagingPgn (int32 vma.vmEnd)) (incPages incSz) := by
    intro g
    conv_rhs => rw [← hlen]
    exact resident_mapPages _ _ _ _
  have hset : (c.mm.mmap.set k (vma.raised (pagingPageAlignsz incSz)))[k]? =
      some (vma.raised (pagingPageAlignsz incSz)) := by
    obtain ⟨hlt, _⟩ := List.getElem?_eq_some_iff.mp hk
    exact List.getElem?_set_self hlt
  have hulong : ∀ x : ℤ, (ulong x : ℤ) = x ↔ 0 ≤ x ∧ x < 2 ^ 64 := by
    intro x
    unfold ulong
    omega
  constructor
  · rintro ⟨_, hdone⟩
    obtain ⟨k', vma₀, vma', hcur', hk', hk₁, hend, _, hpages⟩ := hdone rfl
    obtain rfl := Option.some.inj (Except.ok.inj (hcur.symm.trans hcur'))
    obtain rfl := Option.some.inj (hk.symm.trans hk')
    obtain rfl := Option.some.inj (hset.symm.trans hk₁)
    obtain ⟨h₀, h₁⟩ := (hulong _).mp hend
    refine ⟨hn, h₀, h₁, fun a ha ha' => ?_⟩
    rw [← hres]
    apply hpages a ha
    zify
    rw [hend]
    exact ha'
  · intro h
    have hend := (hulong _).mpr ⟨h.nonneg, h.lt⟩
    refine ⟨fun hst => absurd hst (by decide), fun _ => ?_⟩
    refine ⟨k, vma, _, hcur, hk, hset, hend, rfl, fun a ha ha' => ?_⟩
    rw [hres]
    apply h.pages a ha
    zify at ha'
    rwa [← hend]

end ends

/-- An increase that did not get its frames has raised the limits. -/
theorem not_incAtomic_oom {k : ℕ} {vma : VmArea} (hk : c.mm.mmap[k]? = some vma)
    (hint : int32 (pagingPageAlignsz incSz) = pagingPageAlignsz incSz)
    (hn : c.dev.mram.freeFpList.length < incPages incSz) :
    ¬ IncAtomic c vmaid incSz (-1) (c.withHeap
        (c.mm.mmap.set k (vma.raised (pagingPageAlignsz incSz))) c.mm.symrgtbl) := by
  rintro ⟨hfailed, _⟩
  obtain ⟨hlimits, _⟩ := hfailed rfl
  obtain ⟨hlt, _⟩ := List.getElem?_eq_some_iff.mp hk
  have hk' := congrArg (fun l => l[k]?) hlimits
  simp only [Ctx.withHeap, List.getElem?_map, hk, List.getElem?_set_self hlt, Option.map_some,
    Option.some.injEq] at hk'
  refine VmArea.limits_raised (incPages_pos (by omega)) ?_ hk'
  rw [← hint]
  exact (int32_range _).2

/-- On a heap, and inside `int` and the page table, it is only a matter of the frames. -/
theorem HeapOk.incFits_iff [PageLaws] {vma : VmArea} {size : ℕ} (h : HeapOk c.mm vma)
    (hb : vma.vmEnd + roundUp size < 2 ^ 31)
    (hM : vma.vmEnd + roundUp size ≤ pagingMaxPgn * pagingPagesz) :
    c.IncFits vma size ↔ pages size ≤ c.dev.mram.freeFpList.length := by
  have hpos := pagesz_pos
  have hamt : pagingPageAlignsz size = (roundUp size : ℕ) := PageLaws.alignsz size (by omega)
  have hpages : incPages size = pages size := by
    unfold incPages
    rw [hamt, Int.tdiv_eq_ediv_of_nonneg (by omega)]
    rfl
  refine ⟨fun hf => hpages ▸ hf.frames, fun hk => ⟨hpages ▸ hk, ?_, ?_, fun a ha ha' => ?_⟩⟩
  · omega
  · omega
  · have hlt : a < vma.vmEnd + roundUp size := by omega
    have hend : vma.vmEnd / pagingPagesz * pagingPagesz = vma.vmEnd := Nat.div_mul_cancel h.aligned
    right
    rw [int32_natCast (by omega), PageLaws.pgn a (by omega), PageLaws.pgn _ (by omega), hpages,
      List.mem_range'_1]
    refine ⟨Nat.div_le_div_right ha, (Nat.div_lt_iff_lt_mul hpos).mpr ?_⟩
    rw [Nat.add_mul, hend, pages_mul]
    exact hlt

/-- **When an increase is all or nothing.**  Of every call of `inc_vma_limit` that returns, also
of one by the system call: it is exactly where the increase is refused or fits. -/
theorem inc_atomic_iff [PteLaws]
    (hint : ∀ sz, int32 (pagingPageAlignsz sz) = pagingPageAlignsz sz) :
    (∀ c vmaid incSz st c', incVmaLimit c vmaid incSz = .ok (st, c') →
      (IncAtomic c vmaid incSz st c' ↔ c.IncSound vmaid incSz)) ∧
    ∀ c regs st regs' c', int32 regs.a1 = sysmemIncOp → sysMemmap c regs = .ok (st, regs', c') →
      (IncAtomic c (int32 regs.a2) (int32 regs.a3) st c' ↔
        c.IncSound (int32 regs.a2) (int32 regs.a3)) := by
  have hcall : ∀ c vmaid incSz st c', incVmaLimit c vmaid incSz = .ok (st, c') →
      (IncAtomic c vmaid incSz st c' ↔ c.IncSound vmaid incSz) := by
    intro c vmaid incSz st c' h
    cases incEnd_of_ok h with
    | refused href =>
        refine ⟨fun _ => .inl href, fun _ => ⟨fun _ => ⟨rfl, rfl, rfl, rfl⟩, fun h0 => ?_⟩⟩
        exact absurd h0 (by decide)
    | oom hne hcur hk hn =>
        rw [Ctx.incSound_iff hcur hk hne]
        exact ⟨fun ha => absurd ha (not_incAtomic_oom hk (hint _) hn),
          fun hf => absurd hf.frames (Nat.not_le_of_lt hn)⟩
    | grow hne hcur hk hn =>
        rw [Ctx.incSound_iff hcur hk hne]
        exact incAtomic_grown hcur hk hn
  refine ⟨hcall, fun c regs st regs' c' hop h => ?_⟩
  rw [sysMemmap_of_inc hop] at h
  obtain ⟨⟨st', c₁⟩, hi, h⟩ := bind_eq_ok.mp h
  obtain ⟨rfl, hres⟩ := Prod.mk.inj (Except.ok.inj h)
  obtain ⟨_, rfl⟩ := Prod.mk.inj hres
  exact hcall _ _ _ _ _ hi

end

theorem inc_atomic_iff_sample : ∃ pr c', pr.mm = initMm blankMm (fun _ => 0) ∧
    @incVmaLimit header22 (boot22.ctx pr) 0 300 = .ok (0, c') ∧
      @IncAtomic header22 (boot22.ctx pr) 0 300 0 c' := by
  let := header22
  let := header22_pageLaws
  let := header22_pteLaws
  let pr : Process := ⟨initMm blankMm fun _ => 0, 0⟩
  have hheap : HeapOk (boot22.ctx pr).mm ⟨0, 0, 0, 0, []⟩ := heapOk_initMm _ fun _ _ => rfl
  have hsome : (incVmaLimit (boot22.ctx pr) 0 300).toOption.any (fun r => r.1 = 0) = true := by
    decide +kernel
  obtain ⟨⟨st, c'⟩, hok, hst⟩ := exists_ok_of_any hsome
  obtain rfl : st = 0 := of_decide_eq_true hst
  refine ⟨pr, c', rfl, hok, ?_⟩
  refine ((inc_atomic_iff fun _ => int32_int32 _).1 _ _ _ _ _ hok).mpr (.inr ?_)
  intro k vma hcur hk
  rw [hheap.getVmaByNum] at hcur
  obtain rfl := Option.some.inj (Except.ok.inj hcur)
  rw [hheap.mmap] at hk
  obtain rfl := Option.some.inj hk
  exact (hheap.incFits_iff (by decide) (by decide)).mpr (by decide)

/-- For an increase by three pages there are not enough frames: the limits are raised. -/
theorem inc_not_atomic : ∃ s pr c', @MemStep header22 boot22 (loadBlank 0) s ∧
    s.procs 0 = some pr ∧ @sysMemmap header22 (s.ctx pr) ⟨2, 0, 768⟩ = .ok (-1, ⟨2, 0, 768⟩, c') ∧
      ¬ @IncAtomic header22 (s.ctx pr) 0 768 (-1) c' := by
  let := header22
  have hsome : ((boot22.next (loadBlank 0)).any fun s => (s.procs 0).any fun pr =>
      (sysMemmap (s.ctx pr) ⟨2, 0, 768⟩).toOption.any fun r => r.1 = -1 ∧ r.2.1 = ⟨2, 0, 768⟩ ∧
        r.2.2.mm.mmap.map VmArea.limits ≠ pr.mm.mmap.map VmArea.limits) = true := by
    decide +kernel
  obtain ⟨s, hload, hout⟩ := (Option.any_eq_true _ _).mp hsome
  obtain ⟨pr, hp, hout⟩ := (Option.any_eq_true _ _).mp hout
  obtain ⟨⟨st, regs, c'⟩, hinc, hst⟩ := exists_ok_of_any hout
  obtain ⟨hst, hregs, hlimits⟩ := of_decide_eq_true hst
  obtain rfl : st = -1 := hst
  obtain rfl : regs = ⟨2, 0, 768⟩ := hregs
  exact ⟨s, pr, c', memStep_of_next hload, hp, hinc, fun h => hlimits (h.failed rfl).1⟩

end BtlOs
