import BtlOs.Heap

/-! # Where the bytes of a heap are

Every byte below `sbrk` is in a live region, in a node of the free list, or in a region that was
still live when an allocation gave its id to another one.  `__alloc` writes the new region over
the entry and does not put the old one on the free list, so the bytes of the third kind are lost:
no later call makes them live or free.

`Accounted` is the invariant; an allocation and a release keep it because what they move between
the entry and the free list has the same bytes before and after. -/

namespace BtlOs

open CLang Header Segments Table

variable [Header]

/-- The byte is in a live region. -/
def Live (mm : Mm) (a : ℕ) : Prop := ∃ id < pagingMaxSymtblSz, (mm.symrgtbl id).Inside a

/-- Each byte of the heap is in exactly one place, `old` being the regions overwritten so far. -/
structure Accounted (mm : Mm) (vma : VmArea) (old : List VmRg) : Prop where
  all : ∀ a < vma.sbrk, Live mm a ∨ Covered vma.vmFreergList a ∨ Covered old a
  old_lt : ∀ a, Covered old a → a < vma.sbrk
  old_live : ∀ a, Covered old a → ¬ Live mm a
  old_free : ∀ a, Covered old a → ¬ Covered vma.vmFreergList a

/-! ### What a call does to the entries -/

section update

variable {mm mm' : Mm} {vma vma' : VmArea} {old : List VmRg} {id : ℕ} {rg : VmRg}

theorem live_update (hid : id < pagingMaxSymtblSz)
    (hsym : mm'.symrgtbl = Function.update mm.symrgtbl id rg) {a : ℕ} :
    Live mm' a ↔ rg.Inside a ∨
      ∃ id' < pagingMaxSymtblSz, id' ≠ id ∧ (mm.symrgtbl id').Inside a := by
  unfold Live
  rw [hsym]
  constructor
  · rintro ⟨i, hi, ha⟩
    by_cases hne : i = id
    · subst hne
      rw [Function.update_self] at ha
      exact .inl ha
    · rw [Function.update_of_ne hne] at ha
      exact .inr ⟨i, hi, hne, ha⟩
  · rintro (ha | ⟨i, hi, hne, ha⟩)
    · refine ⟨id, hid, ?_⟩
      rwa [Function.update_self]
    · refine ⟨i, hi, ?_⟩
      rwa [Function.update_of_ne hne]

/-- **An allocation.**  The new region and the free list take the bytes of the old free list and
those above the old end; the region that the entry held is overwritten. -/
theorem Accounted.alloc (hacc : Accounted mm vma old) (h : HeapOk mm vma)
    (hid : id < pagingMaxSymtblSz) (hsym : mm'.symrgtbl = Function.update mm.symrgtbl id rg)
    (hle : vma.sbrk ≤ vma'.sbrk)
    (hmove : ∀ a, rg.Inside a ∨ Covered vma'.vmFreergList a ↔
      Covered vma.vmFreergList a ∨ vma.sbrk ≤ a ∧ a < vma'.sbrk) :
    Accounted mm' vma' (mm.symrgtbl id :: old) := by
  have hold : ∀ a, (mm.symrgtbl id).Inside a → a < vma.sbrk := h.live_le id hid
  have hcov : ∀ a, Covered (mm.symrgtbl id :: old) a ↔
      (mm.symrgtbl id).Inside a ∨ Covered old a := fun a => cover_cons
  have hfree : ∀ a < vma.sbrk, rg.Inside a ∨ Covered vma'.vmFreergList a →
      Covered vma.vmFreergList a := by
    intro a ha hin
    cases (hmove a).mp hin with
    | inl hf => exact hf
    | inr hge => exact absurd hge.1 (by omega)
  refine ⟨?_, ?_, ?_, ?_⟩
  · intro a ha
    rw [hcov, live_update hid hsym]
    by_cases hlt : a < vma.sbrk
    · rcases hacc.all a hlt with ⟨i, hi, hin⟩ | hf | ho
      · by_cases hne : i = id
        · subst hne
          exact .inr (.inr (.inl hin))
        · exact .inl (.inr ⟨i, hi, hne, hin⟩)
      · cases (hmove a).mpr (.inl hf) with
        | inl hr => exact .inl (.inl hr)
        | inr hf => exact .inr (.inl hf)
      · exact .inr (.inr (.inr ho))
    · cases (hmove a).mpr (.inr ⟨by omega, ha⟩) with
      | inl hr => exact .inl (.inl hr)
      | inr hf => exact .inr (.inl hf)
  · intro a ha
    rcases (hcov a).mp ha with ha | ha
    · exact lt_of_lt_of_le (hold a ha) hle
    · exact lt_of_lt_of_le (hacc.old_lt a ha) hle
  · intro a ha hl
    rcases (hcov a).mp ha with ha | ha
    · rcases (live_update hid hsym).mp hl with hr | ⟨i, hi, hne, hin⟩
      · exact h.live_free id hid a ha (hfree a (hold a ha) (.inl hr))
      · exact h.live_live i hi id hid hne a hin ha
    · rcases (live_update hid hsym).mp hl with hr | ⟨i, hi, _, hin⟩
      · exact hacc.old_free a ha (hfree a (hacc.old_lt a ha) (.inl hr))
      · exact hacc.old_live a ha ⟨i, hi, hin⟩
  · intro a ha hf
    rcases (hcov a).mp ha with ha | ha
    · exact h.live_free id hid a ha (hfree a (hold a ha) (.inr hf))
    · exact hacc.old_free a ha (hfree a (hacc.old_lt a ha) (.inr hf))

/-- **A release.**  The bytes of the region go to the free list. -/
theorem Accounted.free (hacc : Accounted mm vma old) (hid : id < pagingMaxSymtblSz)
    (hsym : mm'.symrgtbl = Function.update mm.symrgtbl id rg) (hrg : rg.Empty)
    (hsbrk : vma'.sbrk = vma.sbrk)
    (hmove : ∀ a, Covered vma'.vmFreergList a ↔
      (mm.symrgtbl id).Inside a ∨ Covered vma.vmFreergList a) : Accounted mm' vma' old := by
  have hnot : ∀ a, ¬ rg.Inside a := by
    rintro a ⟨h₁, h₂⟩
    unfold VmRg.Empty at hrg
    omega
  refine ⟨?_, ?_, ?_, ?_⟩
  · intro a ha
    rw [hmove, live_update hid hsym]
    rcases hacc.all a (hsbrk ▸ ha) with ⟨i, hi, hin⟩ | hf | ho
    · by_cases hne : i = id
      · subst hne
        exact .inr (.inl (.inl hin))
      · exact .inl (.inr ⟨i, hi, hne, hin⟩)
    · exact .inr (.inl (.inr hf))
    · exact .inr (.inr ho)
  · intro a ha
    rw [hsbrk]
    exact hacc.old_lt a ha
  · intro a ha hl
    rcases (live_update hid hsym).mp hl with hr | ⟨i, hi, _, hin⟩
    · exact hnot a hr
    · exact hacc.old_live a ha ⟨i, hi, hin⟩
  · intro a ha hf
    cases (hmove a).mp hf with
    | inl hin => exact hacc.old_live a ha ⟨id, hid, hin⟩
    | inr hf => exact hacc.old_free a ha hf

end update

/-! ### The calls -/

section calls

variable [PageLaws] {c c' : Ctx} {vma vma' : VmArea} {old : List VmRg} {size id : ℕ} {st : ℤ}

/-- The regions that have been overwritten after an allocation with the result `st`. -/
def overwritten (mm : Mm) (id : ℕ) (st : ℤ) (old : List VmRg) : List VmRg :=
  if st = 0 then mm.symrgtbl id :: old else old

theorem AllocStep.accounted (hs : AllocStep c vma size id st c') (hacc : Accounted c.mm vma old)
    (h : HeapOk c.mm vma) (hb : vma.vmEnd < 2 ^ 31) (hid : id < pagingMaxSymtblSz)
    (hsz : size < 2 ^ 31) (h' : HeapOk c'.mm vma') :
    Accounted c'.mm vma' (overwritten c.mm id st old) := by
  cases hs with
  | fit hf =>
      obtain rfl : _ = vma' := List.head_eq_of_cons_eq h'.mmap
      refine hacc.alloc h hid rfl le_rfl fun a => ?_
      rw [h.covered_fit hb hsz hf]
      constructor
      · exact .inl
      · rintro (hf | ⟨hge, hlt⟩)
        · exact hf
        · exact absurd hlt (not_lt.mpr hge)
  | grow hf hk =>
      obtain rfl : _ = vma' := List.head_eq_of_cons_eq h'.mmap
      have hle := le_roundUp size
      have hsb := h.sbrk
      refine hacc.alloc h hid rfl ?_ fun a => ?_
      · rw [hsb]
        exact Nat.le_add_right _ _
      · show _ ↔ _ ∨ vma.sbrk ≤ a ∧ a < vma.vmEnd + roundUp size
        rw [covered_enlist, inside_mk, inside_mk, hsb]
        constructor
        · rintro (hr | hr | hf)
          · exact .inr (by omega)
          · exact .inr (by omega)
          · exact .inl hf
        · rintro (hf | hr)
          · exact .inr (.inr hf)
          · by_cases hlt : a < vma.vmEnd + size
            · exact .inl ⟨hr.1, hlt⟩
            · exact .inr (.inl ⟨by omega, hr.2⟩)
  | oom hk =>
      obtain rfl : vma = vma' := List.head_eq_of_cons_eq (h.mmap.symm.trans h'.mmap)
      exact hacc

omit [PageLaws] in
theorem Accounted.libfree {rg : VmRg} (hacc : Accounted c.mm vma old) (h : HeapOk c.mm vma)
    (hid : id < pagingMaxSymtblSz) (hrg : rg.Empty)
    (h' : HeapOk (c.withHeap [{ vma with vmFreergList := freed c.mm vma id }]
      (Function.update c.mm.symrgtbl id rg)).mm vma') :
    Accounted (c.withHeap [{ vma with vmFreergList := freed c.mm vma id }]
      (Function.update c.mm.symrgtbl id rg)).mm vma' old := by
  obtain rfl : _ = vma' := List.head_eq_of_cons_eq h'.mmap
  exact hacc.free hid rfl hrg rfl fun a => h.regions.covered_freed hid

omit [PageLaws] in
theorem accounted_initMm {mm₀ : Mm} (pgd₀ : ℕ → Pte) (h : HeapOk (initMm mm₀ pgd₀) vma) :
    Accounted (initMm mm₀ pgd₀) vma [] := by
  obtain rfl : _ = vma := List.head_eq_of_cons_eq h.mmap
  exact ⟨fun a ha => absurd ha (Nat.not_lt_zero a), by simp [Cover], by simp [Cover],
    by simp [Cover]⟩

end calls

/-! ### The system -/

/-- The regions overwritten in each process since it was loaded. -/
def nextOverwritten (s : Sys) (old : ℕ → List VmRg) : Event → ℕ → List VmRg
  | .call p (.alloc _ regIndex) st _ =>
      match s.procs p with
      | none => old
      | some pr => Function.update old p (overwritten pr.mm regIndex st (old p))
  | .call _ _ _ _ => old
  | .load p _ _ _ => Function.update old p []
  | .release _ => old

/-- Runs of allocations and releases with the overwritten regions beside them. -/
def coverLts : Lts (Sys × (ℕ → List VmRg)) Event :=
  (memLts.withGhost nextOverwritten).restrict fun x e => InHeapRange x.1 e

/-- The heaps of a machine with `n` RAM frames, all their bytes accounted for. -/
structure CoverSys (n : ℕ) (s : Sys) (old : ℕ → List VmRg) : Prop where
  heap : HeapSys n s
  acc : ∀ p pr, s.procs p = some pr → ∀ vma, HeapOk pr.mm vma → Accounted pr.mm vma (old p)

section system

variable [PageLaws] {n m : ℕ} {s s' : Sys} {old : ℕ → List VmRg} {p : ℕ} {pr : Process}

omit [PageLaws] in
theorem CoverSys.commit {c : Ctx} {rgs : List VmRg} (h : CoverSys n s old)
    (hheap : HeapSys n (s.commit p c))
    (hacc : ∀ vma, HeapOk c.mm vma → Accounted c.mm vma rgs) :
    CoverSys n (s.commit p c) (Function.update old p rgs) := by
  refine ⟨hheap, ?_⟩
  intro q qr hq
  rcases update_eq_some.mp hq with ⟨rfl, hv⟩ | ⟨hne, hq⟩
  · obtain rfl := Option.some.inj hv
    rw [Function.update_self]
    exact hacc
  · rw [Function.update_of_ne hne]
    exact h.acc q qr hq

theorem CoverSys.step (hn : n * pagingPagesz < 2 ^ 31) (hM : n ≤ pagingMaxPgn) {e : Event}
    (h : CoverSys n s old) (hs : MemStep s e s') (hr : InHeapRange s e) :
    CoverSys n s' (nextOverwritten s old e) := by
  have hheap' := h.heap.step hn hM hs hr
  cases hs with
  | @load p mm₀ pgd₀ activeMswpId _ =>
      refine ⟨hheap', ?_⟩
      intro q qr hq
      rcases update_eq_some.mp hq with ⟨rfl, hv⟩ | ⟨hne, hq⟩
      · obtain rfl := Option.some.inj hv
        intro vma hok
        rw [nextOverwritten, Function.update_self]
        exact accounted_initMm pgd₀ hok
      · rw [nextOverwritten, Function.update_of_ne hne]
        exact h.acc q qr hq
  | release _ => exact ⟨hheap', forall_remove h.acc⟩
  | @call p pr cl st val c hp hc =>
      obtain ⟨vma, hok, hroom⟩ := h.heap.heap p pr hp
      have hacc := h.acc p pr hp vma hok
      cases cl with
      | alloc size regIndex =>
          have hlt := lt_of_le_of_lt (le_roundUp size) hr.2
          have hb : vma.vmEnd < 2 ^ 31 := by
            unfold Room at hroom
            omega
          obtain ⟨st', c', he, hs⟩ :=
            HeapOk.liballoc (c := s.ctx pr) hok h.heap.lock hroom hn hM hr.1 hr.2
          simp only [Ctx.call, he, ok_bind, Except.ok.injEq, Prod.mk.injEq] at hc
          obtain ⟨rfl, rfl, rfl⟩ := hc
          rw [nextOverwritten, hp]
          exact h.commit hheap' fun vma' h' => hs.accounted hacc hok hb hr.1 hlt h'
      | free regIndex =>
          obtain ⟨st', rg, he, hempty, _⟩ := libfree_eq (c := s.ctx pr) hok.regions h.heap.lock hr
          simp only [Ctx.call, he, ok_bind, Except.ok.injEq, Prod.mk.injEq] at hc
          obtain ⟨rfl, rfl, rfl⟩ := hc
          show CoverSys n _ old
          rw [← Function.update_eq_self p old]
          exact h.commit hheap' fun vma' h' =>
            Accounted.libfree (c := s.ctx pr) hacc hok hr hempty h'
      | read _ _ _ => exact absurd hr id
      | write _ _ _ => exact absurd hr id
      | memmap _ => exact absurd hr id

end system

/-- **No other byte is lost.**  In every state that any number of processes reach by allocations
and releases, a byte of a heap is live or free, or it is in a region overwritten while it was
live; a byte of the last kind is neither live nor free.  So no byte is lost exactly where the
overwritten regions have no bytes. -/
theorem bytes_accounted [PageLaws] {n m : ℕ} (hM : n ≤ pagingMaxPgn) {s₀ s : Sys}
    {old : ℕ → List VmRg} {es : List Event} (h₀ : Booted n m s₀)
    (hr : coverLts.Run (s₀, fun _ => []) es (s, old)) {p : ℕ} {pr : Process}
    (hp : s.procs p = some pr) :
    ∃ vma, pr.mm.mmap = [vma] ∧
      (∀ a < vma.sbrk, Live pr.mm a ∨ Covered vma.vmFreergList a ∨ Covered (old p) a) ∧
      (∀ a, Covered (old p) a → a < vma.sbrk ∧ ¬ Live pr.mm a ∧ ¬ Covered vma.vmFreergList a) ∧
      ((∀ a < vma.sbrk, Live pr.mm a ∨ Covered vma.vmFreergList a) ↔
        ∀ a, ¬ Covered (old p) a) := by
  have hn := h₀.ram_bytes
  have h : CoverSys n s old := by
    refine hr.invariant (I := fun x => CoverSys n x.1 x.2) ?_
      ⟨h₀.heapSys, by simp [h₀.procs]⟩
    rintro ⟨s, old⟩ e ⟨s', old'⟩ hI ⟨⟨hs, rfl⟩, hc⟩
    exact hI.step hn hM hs hc
  obtain ⟨vma, hok, _⟩ := h.heap.heap p pr hp
  have hacc := h.acc p pr hp vma hok
  refine ⟨vma, hok.mmap, hacc.all, ?_, ?_⟩
  · intro a ha
    exact ⟨hacc.old_lt a ha, hacc.old_live a ha, hacc.old_free a ha⟩
  · constructor
    · intro hall a ha
      cases hall a (hacc.old_lt a ha) with
      | inl hl => exact hacc.old_live a ha hl
      | inr hf => exact hacc.old_free a ha hf
    · intro hnone a ha
      rcases hacc.all a ha with hl | hf | ho
      · exact .inl hl
      · exact .inr hf
      · exact absurd ho (hnone a)

omit [Header] in
/-- A region of 300 bytes is released and its bytes are given to two others. -/
theorem bytes_accounted_sample :
    ∃ s old pr vma, (@coverLts header22).Run (boot22, fun _ => []) [loadBlank 0,
      .call 0 (.alloc 300 1) 0 none, .call 0 (.free 1) 0 none, .call 0 (.alloc 100 2) 0 none,
      .call 0 (.alloc 200 1) 0 none] (s, old) ∧ s.procs 0 = some pr ∧ pr.mm.mmap = [vma] ∧
        ∀ a < vma.sbrk, @Live header22 pr.mm a ∨ Covered vma.vmFreergList a := by
  let := header22
  let := header22_pageLaws
  have hsome : ((Lts.replay (Lts.guarded (Lts.nextGhost Sys.next nextOverwritten)
      fun x e => InHeapRange x.1 e) (boot22, fun _ => []) [loadBlank 0,
      .call 0 (.alloc 300 1) 0 none, .call 0 (.free 1) 0 none, .call 0 (.alloc 100 2) 0 none,
      .call 0 (.alloc 200 1) 0 none]).any fun x => (x.1.procs 0).isSome ∧
        ∀ rg ∈ x.2 0, rg.rgEnd ≤ rg.rgStart) = true := by
    decide +kernel
  obtain ⟨⟨s, old⟩, hs, hx⟩ := (Option.any_eq_true _ _).mp hsome
  obtain ⟨hp, hover⟩ := of_decide_eq_true hx
  obtain ⟨pr, hp⟩ := Option.isSome_iff_exists.mp hp
  have hrun : coverLts.Run (boot22, fun _ => []) _ (s, old) :=
    Lts.Run.of_replay_guarded (Lts.withGhost_of_nextGhost fun _ _ _ => memStep_of_next) hs
  obtain ⟨vma, hvma, _, _, hiff⟩ := bytes_accounted (by decide) booted_boot22 hrun hp
  refine ⟨s, old, pr, vma, hrun, hp, hvma, hiff.mpr ?_⟩
  rintro a ⟨rg, hrg, h₁, h₂⟩
  have := hover rg hrg
  omega

omit [Header] in
/-- The id 1 is allocated twice: the bytes of its first region are neither live nor free. -/
theorem not_all_accounted :
    ∃ s pr vma, ((@memLts header22).restrict (@InHeapRange header22)).Run boot22 [loadBlank 0,
      .call 0 (.alloc 256 1) 0 none, .call 0 (.alloc 256 1) 0 none] s ∧ s.procs 0 = some pr ∧
        pr.mm.mmap = [vma] ∧
          ¬ ∀ a < vma.sbrk, @Live header22 pr.mm a ∨ Covered vma.vmFreergList a := by
  let := header22
  have hsome : ((Lts.replay (Lts.guarded Sys.next InHeapRange) boot22 [loadBlank 0,
      .call 0 (.alloc 256 1) 0 none, .call 0 (.alloc 256 1) 0 none]).any fun s =>
        (s.procs 0).any fun pr => pr.mm.mmap = [⟨0, 0, 512, 512, []⟩] ∧
          ∀ id < pagingMaxSymtblSz, ¬ ((pr.mm.symrgtbl id).rgStart ≤ 0 ∧
            0 < (pr.mm.symrgtbl id).rgEnd)) = true := by
    decide +kernel
  obtain ⟨s, hs, hx⟩ := (Option.any_eq_true _ _).mp hsome
  obtain ⟨pr, hp, hx⟩ := (Option.any_eq_true _ _).mp hx
  obtain ⟨hvma, hlive⟩ := of_decide_eq_true hx
  refine ⟨s, pr, _, Lts.Run.of_replay_guarded (fun _ _ _ => memStep_of_next) hs, hp, hvma, ?_⟩
  intro hall
  rcases hall 0 (by decide) with ⟨id, hid, hin⟩ | ⟨t, ht, _⟩
  · exact hlive id hid hin
  · cases ht

end BtlOs
