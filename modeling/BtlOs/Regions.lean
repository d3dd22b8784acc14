import BtlOs.Bounds

/-! # What a heap does to its regions

The free list of a heap is determined by the set of its bytes, because a separated list is the
only one with its points.  From this follow the algebraic laws of the two heap calls: regions may
be released in any order (`free_order`), and a release undoes an allocation (`free_undoes_alloc`).
`first_fit_lowest` says which region `get_free_vmrg_area` takes. -/

namespace BtlOs

open CLang Header Segments

section

variable [Header]

omit [Header] in
theorem eq_of_covered {l l' : List VmRg} (h : SeparatedRg l) (h' : SeparatedRg l')
    (hcov : ∀ a, Covered l a ↔ Covered l' a) : l = l' := by
  refine Separated.ext ?_ h h' hcov
  rintro ⟨b, e⟩ ⟨b', e'⟩ rfl rfl
  rfl

/-! ### Order of releases -/

/-- `libfree` of several ids, one after the other. -/
def freeAll (c : Ctx) : List ℕ → Exec (List ℤ × Ctx)
  | [] => .ok ([], c)
  | id :: ids => do
      let (st, c) ← libfree c id
      let (sts, c) ← freeAll c ids
      .ok (st :: sts, c)

variable [PageLaws] {c : Ctx} {vma : VmArea} {id : ℕ}

/-- The release of a region with bytes. -/
theorem libfree_live (h : RegionsOk c.mm vma) (hlock : c.mmvmLock = false)
    (hid : id < pagingMaxSymtblSz) (hlive : (c.mm.symrgtbl id).rgStart < (c.mm.symrgtbl id).rgEnd) :
    libfree c id = .ok (0, c.withHeap [{ vma with vmFreergList := freed c.mm vma id }]
      (Function.update c.mm.symrgtbl id ⟨0, 0⟩)) := by
  obtain ⟨st, rg, he, hempty, ⟨_, hrg⟩ | ⟨rfl, rfl⟩⟩ := libfree_eq h hlock hid
  · rw [← hrg] at hempty
    exact absurd hempty hlive.ne
  · exact he

omit [PageLaws] in
theorem RegionsOk.freed (h : RegionsOk c.mm vma) (hid : id < pagingMaxSymtblSz) :
    RegionsOk (c.withHeap [{ vma with vmFreergList := BtlOs.freed c.mm vma id }]
      (Function.update c.mm.symrgtbl id ⟨0, 0⟩)).mm
      { vma with vmFreergList := BtlOs.freed c.mm vma id } := by
  have hin : ∀ i a, (Function.update c.mm.symrgtbl id ⟨0, 0⟩ i).Inside a ↔
      i ≠ id ∧ (c.mm.symrgtbl i).Inside a := by
    intro i a
    by_cases hi : i = id
    · subst hi
      simp [VmRg.Inside, Segments.Inside]
    · simp [hi]
  refine ⟨rfl, h.vmId, h.separated_freed hid, ?_, ?_, ?_⟩
  · intro i hi
    by_cases he : i = id
    · subst he
      simp [Ctx.withHeap]
    · simp only [Ctx.withHeap, Function.update_of_ne he]
      exact h.live i hi
  · intro i hi a ha hcov
    obtain ⟨hne, ha⟩ := (hin i a).mp ha
    cases (h.covered_freed hid).mp hcov with
    | inl hid' => exact h.live_live i hi id hid hne a ha hid'
    | inr hcov => exact h.live_free i hi a ha hcov
  · intro i hi j hj hij a ha hb
    exact h.live_live i hi j hj hij a ((hin i a).mp ha).2 ((hin j a).mp hb).2

/-- What is left after the release of several regions with bytes, in some order. -/
theorem freeAll_eq {ids : List ℕ} (h : RegionsOk c.mm vma) (hlock : c.mmvmLock = false)
    (hnodup : ids.Nodup) (hlive : ∀ id ∈ ids, id < pagingMaxSymtblSz ∧
      (c.mm.symrgtbl id).rgStart < (c.mm.symrgtbl id).rgEnd) :
    ∃ l, freeAll c ids = .ok (List.replicate ids.length 0, c.withHeap
        [{ vma with vmFreergList := l }]
        fun i => if i ∈ ids then ⟨0, 0⟩ else c.mm.symrgtbl i) ∧
      SeparatedRg l ∧ ∀ a, Covered l a ↔ Covered vma.vmFreergList a ∨
        ∃ id ∈ ids, (c.mm.symrgtbl id).Inside a := by
  induction ids generalizing c vma with
  | nil =>
      refine ⟨vma.vmFreergList, ?_, h.free, by simp⟩
      simp [freeAll, Ctx.withHeap, ← h.mmap]
  | cons id ids ih =>
      obtain ⟨hout, hnodup⟩ := List.nodup_cons.mp hnodup
      obtain ⟨hid, hbytes⟩ := hlive id List.mem_cons_self
      have hne : ∀ i ∈ ids, i ≠ id := by
        rintro i hi rfl
        exact hout hi
      obtain ⟨l, he, hsep, hcov⟩ := ih (h.freed hid) hlock hnodup (by
        intro i hi
        simp only [Ctx.withHeap, Function.update_of_ne (hne i hi)]
        exact hlive i (List.mem_cons_of_mem id hi))
      refine ⟨l, ?_, hsep, fun a => ?_⟩
      · rw [freeAll, libfree_live h hlock hid hbytes, ok_bind]
        simp only [he, ok_bind, List.length_cons, List.replicate_succ]
        congr 2
        simp only [Ctx.withHeap]
        congr 2
        funext i
        by_cases hi : i = id
        · subst hi
          simp
        · simp [hi]
      · rw [hcov, h.covered_freed hid]
        simp only [Ctx.withHeap, List.exists_mem_cons_iff]
        have hrest : (∃ i ∈ ids, (Function.update c.mm.symrgtbl id ⟨0, 0⟩ i).Inside a) ↔
            ∃ i ∈ ids, (c.mm.symrgtbl i).Inside a := by
          refine exists_congr fun i => and_congr_right fun hi => ?_
          rw [Function.update_of_ne (hne i hi)]
        rw [hrest]
        tauto

/-- **The order of releases does not matter.** -/
theorem free_order {ids ids' : List ℕ} (h : RegionsOk c.mm vma) (hlock : c.mmvmLock = false)
    (hnodup : ids.Nodup) (hperm : ids.Perm ids') (hlive : ∀ id ∈ ids, id < pagingMaxSymtblSz ∧
      (c.mm.symrgtbl id).rgStart < (c.mm.symrgtbl id).rgEnd) :
    ∃ c', freeAll c ids = .ok (List.replicate ids.length 0, c') ∧
      freeAll c ids' = .ok (List.replicate ids'.length 0, c') := by
  obtain ⟨l, he, hsep, hcov⟩ := freeAll_eq h hlock hnodup hlive
  obtain ⟨l', he', hsep', hcov'⟩ := freeAll_eq h hlock (hperm.nodup_iff.mp hnodup)
    fun id hid => hlive id (hperm.mem_iff.mpr hid)
  refine ⟨_, he, ?_⟩
  have hl : l = l' := by
    apply eq_of_covered hsep hsep'
    intro a
    rw [hcov, hcov']
    simp only [hperm.mem_iff]
  rw [he', hl]
  simp only [hperm.mem_iff]

/-! ### A release after an allocation -/

/-- The bytes from `s` to `t` added to a list that ends at or below `s`. -/
structure AddedTop (l : List VmRg) (s t : ℕ) (l' : List VmRg) : Prop where
  merged : ∀ l₁ rg l₂, l = l₁ ++ rg :: l₂ → rg.rgEnd = s → l₂ = [] ∧ l' = l₁ ++ [⟨rg.rgStart, t⟩]
  added : (∀ rg ∈ l, rg.rgEnd ≠ s) → l' = l ++ [⟨s, t⟩]

omit [Header] [PageLaws] in
theorem addedTop_of_covered {l l' : List VmRg} {s t : ℕ} (h : SeparatedRg l)
    (h' : SeparatedRg l') (hst : s < t) (hle : ∀ rg ∈ l, rg.rgEnd ≤ s)
    (hcov : ∀ a, Covered l' a ↔ Covered l a ∨ s ≤ a ∧ a < t) : AddedTop l s t l' := by
  constructor
  · rintro l₁ rg l₂ rfl rfl
    obtain rfl : l₂ = [] := by
      rw [List.eq_nil_iff_forall_not_mem]
      intro u hu
      have hgap := (separated_cons.mp (h.sublist (List.sublist_append_right l₁ _))).2.1 u hu
      have hu' := hle u (by simp [hu])
      have hne := h.nonempty u (by simp [hu])
      omega
    refine ⟨rfl, eq_of_covered h' ?_ fun a => ?_⟩
    · have hrg := h.nonempty rg (by simp)
      obtain ⟨_, _, hgaps⟩ := List.pairwise_append.mp h.gaps
      refine Separated.insert ?_ (show rg.rgStart < t by omega) (fun u hu => ?_) (by simp)
      · exact h.sublist (List.Sublist.append_left (by simp) l₁)
      · exact hgaps u hu rg (by simp)
    · have hrg := h.nonempty rg (by simp)
      rw [hcov]
      simp only [Covered, cover_append, cover_cons, Segments.Inside]
      have hnil : ¬ Cover VmRg.rgStart VmRg.rgEnd [] a := by
        rintro ⟨u, hu, _⟩
        cases hu
      have hin : rg.rgStart ≤ a ∧ a < rg.rgEnd ∨ rg.rgEnd ≤ a ∧ a < t ↔ rg.rgStart ≤ a ∧ a < t := by
        omega
      tauto
  · intro hne
    refine eq_of_covered h' ?_ fun a => ?_
    · refine Separated.insert ?_ hst (fun u hu => ?_) (by simp)
      · rw [List.append_nil]
        exact h
      · exact lt_of_le_of_ne (hle u hu) (hne u hu)
    · rw [hcov]
      simp [Covered, Cover, Segments.Inside]

variable {size : ℕ} {c₁ : Ctx}

/-- The heap after an allocation in new pages, whichever pages of the table these are. -/
theorem liballoc_grown_of_ok (h : HeapOk c.mm vma) (hlock : c.mmvmLock = false)
    (hb : vma.vmEnd + roundUp size < 2 ^ 31) (hid : id < pagingMaxSymtblSz)
    (hf : firstFit size vma.vmFreergList = none) (he : liballoc c size id = .ok (0, c₁)) :
    pages size ≤ c.dev.mram.freeFpList.length ∧ ∃ a, c₁ = (c.withHeap
      [{ vma.grown size with
        vmFreergList := enlist ⟨vma.vmEnd + size, vma.vmEnd + roundUp size⟩ vma.vmFreergList }]
      (Function.update c.mm.symrgtbl id ⟨vma.vmEnd, vma.vmEnd + size⟩)).grown a (pages size) := by
  have hle := le_roundUp size
  have hsz : (size : ℤ) < 2 ^ 31 := by omega
  have hi := he
  unfold liballoc at hi
  rw [int32_of_range (by omega) hsz] at hi
  obtain ⟨⟨addr, c₂⟩, ha, hi⟩ := bind_eq_ok.mp hi
  rw [alloc_of_none h.mmap h.vmId hlock hf, int32_of_range (by omega) hsz] at ha
  obtain ⟨⟨st, c₃⟩, hinc, _⟩ := bind_eq_ok.mp ha
  have hret := hinc
  rw [HeapOk.incVmaLimit (c := { c with mmvmLock := true }) h (by omega) (by omega)] at hret
  obtain ⟨⟨st', rg, c₄⟩, hmap, hst⟩ := bind_eq_ok.mp hret
  obtain ⟨rfl, rfl⟩ := Prod.mk.inj (Except.ok.inj hst)
  rcases vmMapRam_ok hmap with ⟨rfl, hk, rfl⟩ | ⟨rfl, hk, rfl⟩
  · rw [Int.toNat_natCast] at hk
    rw [liballoc_oom h hlock (by omega) (by omega) hf hk] at he
    exact absurd (Prod.mk.inj (Except.ok.inj he)).1 (by decide)
  · rw [liballoc_grown h hlock hb hid hf hinc] at he
    exact ⟨by simpa using hk, _, (Prod.mk.inj (Except.ok.inj he)).2.symm⟩

/-- **A release undoes an allocation.**  An allocation in a free node is undone; one in new pages
leaves them in the free list. -/
theorem free_undoes_alloc (h : HeapOk c.mm vma) (hlock : c.mmvmLock = false)
    (hb : vma.vmEnd < 2 ^ 31) (hid : id < pagingMaxSymtblSz) (hpos : 0 < size)
    (hsz : roundUp size < 2 ^ 31) (he : liballoc c size id = .ok (0, c₁)) :
    ((firstFit size vma.vmFreergList).isSome →
      libfree c₁ id = .ok (0, c.withHeap [vma] (Function.update c.mm.symrgtbl id ⟨0, 0⟩))) ∧
    (firstFit size vma.vmFreergList = none → vma.vmEnd + roundUp size < 2 ^ 31 →
      ∃ c₂ l, libfree c₁ id = .ok (0, c₂) ∧
        c₂.mm.mmap = [{ vma.grown size with vmFreergList := l }] ∧
          AddedTop vma.vmFreergList vma.sbrk (vma.grown size).sbrk l) := by
  have hle := le_roundUp size
  have hsz' := lt_of_le_of_lt hle hsz
  constructor
  · intro hsome
    obtain ⟨⟨rgit, rest⟩, hf⟩ := Option.isSome_iff_exists.mp hsome
    obtain ⟨_, rfl⟩ := Prod.mk.inj (Except.ok.inj
      ((liballoc_fit h hlock hb hid hsz' hf).symm.trans he))
    have h₁ := h.fit hb hid hsz' hf
    have hsym : (Function.update c.mm.symrgtbl id ⟨rgit.rgStart, rgit.rgStart + size⟩) id =
      ⟨rgit.rgStart, rgit.rgStart + size⟩ := Function.update_self _ _ _
    rw [libfree_live h₁.regions hlock hid (by
      simp only [Ctx.withHeap, hsym]
      omega)]
    have hl : BtlOs.freed (c.withHeap
        [{ vma with vmFreergList := enlist ⟨rgit.rgStart + size, rgit.rgEnd⟩ rest }]
        (Function.update c.mm.symrgtbl id ⟨rgit.rgStart, rgit.rgStart + size⟩)).mm
        { vma with vmFreergList := enlist ⟨rgit.rgStart + size, rgit.rgEnd⟩ rest } id =
        vma.vmFreergList := by
      apply eq_of_covered (h₁.regions.separated_freed hid) h.free
      intro a
      rw [h₁.regions.covered_freed hid, ← h.covered_fit hb hsz' hf a]
      simp only [Ctx.withHeap, hsym]
    rw [hl]
    simp [Ctx.withHeap]
  · intro hf hend
    obtain ⟨hk, a, rfl⟩ := liballoc_grown_of_ok h hlock hend hid hf he
    obtain ⟨hmmap, hvmId, hfree, hlive, hlf, hll⟩ := (h.grow hid hk).regions
    have h₁ : RegionsOk ((c.withHeap
        [{ vma.grown size with
          vmFreergList := enlist ⟨vma.vmEnd + size, vma.vmEnd + roundUp size⟩ vma.vmFreergList }]
        (Function.update c.mm.symrgtbl id ⟨vma.vmEnd, vma.vmEnd + size⟩)).grown a
          (pages size)).mm _ := ⟨hmmap, hvmId, hfree, hlive, hlf, hll⟩
    refine ⟨_, _, libfree_live h₁ hlock hid ?_, rfl, ?_⟩
    · simp only [Ctx.withHeap, Ctx.grown, Mm.mapped, Function.update_self]
      omega
    · refine addedTop_of_covered h.free (h₁.separated_freed hid) ?_ h.free_le fun x => ?_
      · show vma.sbrk < vma.vmEnd + roundUp size
        rw [h.sbrk]
        omega
      · rw [h₁.covered_freed hid, covered_enlist]
        simp only [Ctx.withHeap, Ctx.grown, Mm.mapped, Function.update_self, inside_mk, h.sbrk]
        show _ ↔ _ ∨ vma.vmEnd ≤ x ∧ x < vma.vmEnd + roundUp size
        constructor
        · rintro (hx | hx | hx)
          · exact .inr ⟨hx.1, by omega⟩
          · exact .inr ⟨by omega, hx.2⟩
          · exact .inl hx
        · rintro (hx | hx)
          · exact .inr (.inr hx)
          · by_cases hlt : x < vma.vmEnd + size
            · exact .inl ⟨hx.1, hlt⟩
            · exact .inr (.inl ⟨by omega, hx.2⟩)

/-! ### First fit -/

/-- The addresses at which `size` bytes lie inside one node. -/
def Places (l : List VmRg) (size : ℕ) : Set ℕ := {a | ∃ t ∈ l, t.rgStart ≤ a ∧ a + size ≤ t.rgEnd}

omit [Header] [PageLaws] in
/-- The first node of an ascending list that has `size` bytes starts at the lowest place. -/
theorem isLeast_places {l₁ l₂ : List VmRg} {rgit : VmRg} (h : SeparatedRg (l₁ ++ rgit :: l₂))
    (hle : rgit.rgStart + size ≤ rgit.rgEnd) (hfirst : ∀ t ∈ l₁, t.rgEnd < t.rgStart + size) :
    IsLeast (Places (l₁ ++ rgit :: l₂) size) rgit.rgStart := by
  refine ⟨⟨rgit, by simp, le_rfl, hle⟩, ?_⟩
  rintro a ⟨t, ht, h₁, h₂⟩
  cases List.mem_append.mp ht with
  | inl ht =>
      have := hfirst t ht
      omega
  | inr ht =>
      rcases List.mem_cons.mp ht with rfl | ht
      · exact h₁
      · have hgap := (separated_cons.mp (h.sublist (List.sublist_append_right l₁ _))).2.1 t ht
        omega

variable {mm : Mm}

omit [PageLaws] in
theorem liballoc_grows_iff {st : ℤ} (h : RegionsOk c.mm vma) (hsz : size < 2 ^ 31)
    (he : liballoc c size id = .ok (st, c₁)) :
    ((firstFit size vma.vmFreergList).isSome →
      st = 0 ∧ ∃ l symrgtbl, c₁ = c.withHeap [{ vma with vmFreergList := l }] symrgtbl) ∧
    (firstFit size vma.vmFreergList = none →
      ∃ c₂, incVmaLimit { c with mmvmLock := true } 0 size = .ok (st, c₂)) := by
  obtain ⟨addr, ha, rfl⟩ := liballoc_eq_ok he
  obtain ⟨hlock, hend⟩ := allocEnd_of_ok h.mmap h.vmId ha
  rw [int32_natCast hsz] at ha hend
  have hnew : c.newPages size = none ↔ (firstFit size vma.vmFreergList).isSome := by
    unfold Ctx.newPages
    simp only [h.mmap]
    cases firstFit size vma.vmFreergList <;> simp
  constructor
  · intro hsome
    rw [← hnew] at hsome
    cases hend with
    | fit _ => exact ⟨rfl, _, _, rfl⟩
    | oom hpages _ =>
        rw [hsome] at hpages
        cases hpages
    | grow hpages _ =>
        rw [hsome] at hpages
        cases hpages
  · intro hf
    rw [alloc_of_none h.mmap h.vmId hlock hf, int32_natCast hsz] at ha
    obtain ⟨⟨st, c₃⟩, hinc, ha⟩ := bind_eq_ok.mp ha
    obtain ⟨vma₁, _, ha⟩ := bind_eq_ok.mp ha
    refine ⟨c₃, hinc.trans ?_⟩
    rcases incVmaLimit_single_ok (c := { c with mmvmLock := true }) h.mmap h.vmId hinc with
      ⟨rfl, _⟩ | ⟨rfl, _⟩
    · rw [if_pos (by decide)] at ha
      obtain ⟨rfl, _⟩ := Prod.mk.inj (Except.ok.inj ha)
      rfl
    · rw [if_neg (by decide)] at ha
      obtain ⟨mm, _, ha⟩ := bind_eq_ok.mp ha
      obtain ⟨r, _, ha⟩ := bind_eq_ok.mp ha
      obtain ⟨rfl, _⟩ := Prod.mk.inj (Except.ok.inj ha)
      rfl

omit [PageLaws] in
/-- **First fit is lowest fit.**  `get_free_vmrg_area` succeeds where a node has `size` bytes, takes
the lowest place, and leaves all other free bytes; where it fails nothing has changed. -/
theorem first_fit_lowest (h : RegionsOk mm vma)
    (hulong : ∀ t ∈ vma.vmFreergList, t.rgEnd < 2 ^ 64) (hsz : size < 2 ^ 31) :
    ((∃ t ∈ vma.vmFreergList, t.rgStart + size ≤ t.rgEnd) →
      ∃ a l, getFreeVmrgArea mm 0 size = .ok (some ⟨a, a + size⟩,
          { mm with mmap := [{ vma with vmFreergList := l }] }) ∧
        IsLeast (Places vma.vmFreergList size) a ∧ SeparatedRg l ∧
        ∀ x, Covered l x ↔ Covered vma.vmFreergList x ∧ ¬ (a ≤ x ∧ x < a + size)) ∧
    ((¬ ∃ t ∈ vma.vmFreergList, t.rgStart + size ≤ t.rgEnd) →
      getFreeVmrgArea mm 0 size = .ok (none, mm)) ∧
    ∀ c id st c₁, c.mm = mm → liballoc c size id = .ok (st, c₁) →
      ((∃ t ∈ vma.vmFreergList, t.rgStart + size ≤ t.rgEnd) →
        st = 0 ∧ ∃ l symrgtbl, c₁ = c.withHeap [{ vma with vmFreergList := l }] symrgtbl) ∧
      ((¬ ∃ t ∈ vma.vmFreergList, t.rgStart + size ≤ t.rgEnd) →
        ∃ c₂, incVmaLimit { c with mmvmLock := true } 0 size = .ok (st, c₂)) := by
  have hiff := firstFit_isSome_iff h.free hulong (show size < 2 ^ 64 by omega)
  have hnone : (¬ ∃ t ∈ vma.vmFreergList, t.rgStart + size ≤ t.rgEnd) ↔
      firstFit size vma.vmFreergList = none := by
    rw [← hiff, Option.not_isSome_iff_eq_none]
  refine ⟨fun hfit => ?_, fun hfit => ?_, ?_⟩
  · obtain ⟨⟨rgit, rest⟩, hf⟩ := Option.isSome_iff_exists.mp (hiff.mpr hfit)
    obtain ⟨l₁, l₂, hl, rfl, hle, hfirst⟩ := firstFit_split h.free hulong (by omega) hf
    have hsep := h.free
    rw [hl] at hsep
    refine ⟨_, _, h.getFreeVmrgArea_fit hulong (by omega) hf, ?_, separated_fit hsep, ?_⟩
    · rw [hl]
      exact isLeast_places hsep hle hfirst
    · rw [hl]
      exact covered_fit hsep hle
  · exact (getFreeVmrgArea_single h.mmap h.vmId size).1 (hnone.mp hfit)
  · rintro c id st c₁ rfl he
    rw [← hiff, Option.not_isSome_iff_eq_none]
    exact liballoc_grows_iff h hsz he

end

/-! ### A heap of two pages -/

/-- Two regions and the rest of two pages. -/
def regionsSample : List Event :=
  [loadBlank 0, .call 0 (.alloc 300 1) 0 none, .call 0 (.alloc 100 2) 0 none]

theorem run_regionsSample : ∃ s pr,
    ((@memLts header22).restrict (@InHeapRange header22)).Run boot22 regionsSample s ∧
    s.procs 0 = some pr ∧ s.mmvmLock = false ∧
    @HeapOk header22 pr.mm ⟨0, 0, 512, 512, [⟨400, 512⟩]⟩ ∧
    pr.mm.symrgtbl 1 = ⟨0, 300⟩ ∧ pr.mm.symrgtbl 2 = ⟨300, 400⟩ := by
  let := header22
  let := header22_pageLaws
  have hsome : (Lts.replay (Lts.guarded Sys.next InHeapRange) boot22 regionsSample).any (fun s =>
      (s.procs 0).any fun pr => s.mmvmLock = false ∧
        pr.mm.mmap = [⟨0, 0, 512, 512, [⟨400, 512⟩]⟩] ∧
          pr.mm.symrgtbl 1 = ⟨0, 300⟩ ∧ pr.mm.symrgtbl 2 = ⟨300, 400⟩) = true := by
    decide +kernel
  obtain ⟨s, hs, hout⟩ := (Option.any_eq_true _ _).mp hsome
  obtain ⟨pr, hp, hout⟩ := (Option.any_eq_true _ _).mp hout
  obtain ⟨hlock, hmmap, hsym⟩ := of_decide_eq_true hout
  have hrun : (memLts.restrict InHeapRange).Run boot22 regionsSample s :=
    Lts.Run.of_replay_guarded (fun _ _ _ => memStep_of_next) hs
  obtain ⟨vma, hok, _⟩ := (heapSys_of_run (by decide) booted_boot22 hrun).2.heap 0 pr hp
  obtain rfl := List.head_eq_of_cons_eq (hok.mmap.symm.trans hmmap)
  exact ⟨s, pr, hrun, hp, hlock, hok, hsym⟩

theorem free_order_sample : ∃ s pr c',
    ((@memLts header22).restrict (@InHeapRange header22)).Run boot22 regionsSample s ∧
    s.procs 0 = some pr ∧ @freeAll header22 (s.ctx pr) [1, 2] = .ok ([0, 0], c') ∧
      @freeAll header22 (s.ctx pr) [2, 1] = .ok ([0, 0], c') := by
  let := header22
  let := header22_pageLaws
  obtain ⟨s, pr, hrun, hp, hlock, hok, h₁, h₂⟩ := run_regionsSample
  obtain ⟨c', he, he'⟩ := free_order (c := s.ctx pr) hok.regions hlock
    (show [1, 2].Nodup by decide) (List.Perm.swap 2 1 [])
    (by simp [Sys.ctx, h₁, h₂, show pagingMaxSymtblSz = 30 from rfl])
  exact ⟨s, pr, c', hrun, hp, he, he'⟩

/-- The rest of the two pages is given to a region and taken back. -/
theorem free_undoes_alloc_sample : ∃ s pr c₁ c₂,
    ((@memLts header22).restrict (@InHeapRange header22)).Run boot22 regionsSample s ∧
    s.procs 0 = some pr ∧ @liballoc header22 (s.ctx pr) 50 3 = .ok (0, c₁) ∧
      c₁.mm.mmap ≠ pr.mm.mmap ∧ @libfree header22 c₁ 3 = .ok (0, c₂) ∧
        c₂.mm.mmap = pr.mm.mmap := by
  let := header22
  let := header22_pageLaws
  obtain ⟨s, pr, hrun, hp, hlock, hok, _⟩ := run_regionsSample
  have he := liballoc_fit (c := s.ctx pr) hok hlock (by decide) (show 3 < 30 by decide)
    (show 50 < 2 ^ 31 by decide) rfl
  refine ⟨s, pr, _, _, hrun, hp, he, ?_, (free_undoes_alloc (c := s.ctx pr) hok hlock (by decide)
    (by decide) (by decide) (by decide) he).1 (by decide), hok.mmap.symm⟩
  rw [hok.mmap]
  simp [Ctx.withHeap, enlist, enlistWalk]

theorem first_fit_lowest_sample : ∃ s pr mm,
    ((@memLts header22).restrict (@InHeapRange header22)).Run boot22 regionsSample s ∧
    s.procs 0 = some pr ∧ getFreeVmrgArea pr.mm 0 50 = .ok (some ⟨400, 450⟩, mm) := by
  let := header22
  obtain ⟨s, pr, hrun, hp, _, hok, _⟩ := run_regionsSample
  obtain ⟨a, l, he, hleast, _⟩ := (first_fit_lowest hok.regions (by simp)
    (show 50 < 2 ^ 31 by decide)).1 ⟨_, List.mem_singleton_self _, by decide⟩
  have hplace : IsLeast (Places ([] ++ ⟨400, 512⟩ :: []) 50) 400 :=
    isLeast_places hok.free (by decide) (by simp)
  obtain rfl := hleast.unique hplace
  exact ⟨s, pr, _, hrun, hp, he⟩

end BtlOs
