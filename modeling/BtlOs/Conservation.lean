import BtlOs.Ownership

/-! # No frame is lost

`Conserved`: every RAM frame is free or the frame of a resident page, every swap frame is free or
holds a swapped page.  The moves of a frame balance: an allocation, its roll-back, a replacement.
Two things do not.  `cpu_routine` releases a finished process with `free(proc)` and leaves
`free_pcb_memph` uncalled, so the frames of the process are lost; and a page that is mapped again
loses the frame that it had. -/

namespace BtlOs

open CLang Header TokenPool Table

section

variable [Header]

/-- Every one of `n` RAM frames and `m` swap frames is free or holds a page of a process. -/
structure Conserved (n m : ℕ) (s : Sys) : Prop where
  ram : Covers (· < n) s.dev.mram.freeFpList (s.own residentFrame)
  swp : Covers (· < m) s.dev.mswp.freeFpList (s.own swpFrame)

/-- The free lists hold frames of the devices. -/
structure FreeBound (n m : ℕ) (s : Sys) : Prop where
  ram : ∀ fpn ∈ s.dev.mram.freeFpList, fpn < n
  swp : ∀ fpn ∈ s.dev.mswp.freeFpList, fpn < m

/-- The page holds neither a frame nor a swap frame. -/
def Vacant (pte : Pte) : Prop := pagingPagePresent pte = false ∧ pagingPageSwapped pte = false

instance (pte : Pte) : Decidable (Vacant pte) := inferInstanceAs (Decidable (_ ∧ _))

/-- New pages are mapped only where no page is mapped. -/
def FreshGrowth (c : Ctx) (cl : Call) : Prop :=
  ∀ a n, c.Grows cl a n → n ≤ c.dev.mram.freeFpList.length → ∀ i < n, Vacant (c.mm.pgd (a + i))

/-- The page that takes the frame of a victim is not mapped. -/
def FreshFault (c : Ctx) (cl : Call) : Prop :=
  ∀ g, c.page cl = some g → pagingPagePresent (c.mm.pgd g) = false → Vacant (c.mm.pgd g)

/-- A released process has no page. -/
def ReleasedEmpty (s : Sys) : Event → Prop
  | .call _ _ _ _ => True
  | .load _ _ _ _ => True
  | .release p => ∀ pr ∈ s.procs p, ∀ g, Vacant (pr.mm.pgd g)

/-- The condition on the steps under which the frames balance. -/
def Balanced (s : Sys) (e : Event) : Prop :=
  Calls (fun c cl => VictimResident c cl ∧ FreshFault c cl ∧ FreshGrowth c cl) s e ∧
    ReleasedEmpty s e

variable {n m : ℕ} {s s' : Sys} {p : ℕ} {pr : Process} {c : Ctx}

theorem Vacant.frameOf {pte : Pte} (h : Vacant pte) : frameOf pte = none :=
  frameOf_of_not_present h.1

theorem Vacant.swapOf {pte : Pte} (h : Vacant pte) : swapOf pte = none :=
  swapOf_of_not_swapped h.2

theorem own_of_not_swapped {g : ℕ} (hp : s.procs p = some pr)
    (hg : pagingPageSwapped (pr.mm.pgd g) = false) : s.own swpFrame (p, g) = none := by
  rw [own_of_proc hp]
  exact swapOf_of_not_swapped hg

theorem own_of_vacant {g : ℕ} (hp : s.procs p = some pr) (hg : Vacant (pr.mm.pgd g)) :
    s.own residentFrame (p, g) = none := by
  rw [own_of_proc hp]
  exact hg.frameOf

theorem vacant_zero : Vacant 0#32 := ⟨present_zero, swapped_zero⟩

theorem Booted.conserved (h : Booted n m s) : Conserved n m s where
  ram := by
    intro r hr
    rw [h.ram]
    exact .inl (List.mem_range.mpr hr)
  swp := by
    intro r hr
    rw [h.swp]
    exact .inl (List.mem_range.mpr hr)

theorem Conserved.keep (h : Conserved n m s) (hp : s.procs p = some pr)
    (hpgd : c.mm.pgd = pr.mm.pgd) (hram : c.dev.mram.freeFpList = s.dev.mram.freeFpList)
    (hswp : c.dev.mswp.freeFpList = s.dev.mswp.freeFpList) : Conserved n m (s.commit p c) := by
  have hres : residentFrame c.mm = residentFrame pr.mm := by
    funext g
    rw [residentFrame, hpgd, residentFrame]
  have hsw : swpFrame c.mm = swpFrame pr.mm := by
    funext g
    rw [swpFrame, hpgd, swpFrame]
  constructor
  · rw [own_commit, hres, ownWith_self hp]
    show Covers _ c.dev.mram.freeFpList _
    rw [hram]
    exact h.ram
  · rw [own_commit, hsw, ownWith_self hp]
    show Covers _ c.dev.mswp.freeFpList _
    rw [hswp]
    exact h.swp

variable [PteLaws]

theorem Conserved.grown (h : Conserved n m s) (hb : FreeBound n m s) (hfpn : FpnFits n)
    (hp : s.procs p = some pr) (mmap : List VmArea) (symrgtbl : ℕ → VmRg) {a k : ℕ}
    (hk : k ≤ s.dev.mram.freeFpList.length) (hvac : ∀ i < k, Vacant (pr.mm.pgd (a + i))) :
    Conserved n m (s.commit p (((s.ctx pr).withHeap mmap symrgtbl).grown a k)) := by
  have hlen : (s.dev.mram.freeFpList.take k).reverse.length = k := by simpa using hk
  have hin : ∀ g, g ∈ List.range' a k → Vacant (pr.mm.pgd g) := by
    intro g hg
    obtain ⟨h₁, h₂⟩ := List.mem_range'_1.mp hg
    obtain ⟨i, rfl⟩ := Nat.exists_eq_add_of_le h₁
    exact hvac i (by omega)
  constructor
  · rw [own_commit, residentFrame_grown hb.ram hfpn mmap symrgtbl hk, ownWith_giveAll,
      ownWith_self hp]
    refine Covers.giveAll _ _ (by simpa using hk) ?_ ?_
      (h.ram.of_perm (perm_take_reverse_append_drop k _))
    · exact List.Nodup.map (Prod.mk_right_injective p) List.nodup_range'
    · intro k' hk'
      obtain ⟨g, hg, rfl⟩ := List.mem_map.mp hk'
      exact own_of_vacant hp (hin g hg)
  · apply h.swp.mono
    intro k' r hr
    obtain ⟨q, g⟩ := k'
    by_cases hne : q = p
    · subst hne
      rw [own_of_proc hp] at hr
      rw [own_commit_self]
      have hout : g ∉ List.range' a k := by
        intro hg
        have hnone : swpFrame pr.mm g = none := (hin g hg).swapOf
        rw [hnone] at hr
        cases hr
      rw [← hr]
      refine congrArg swapOf ?_
      by_cases hlt : g < a
      · exact mapPages_of_lt _ _ hlt
      · refine mapPages_of_ge _ _ ?_
        have : ¬ (a ≤ g ∧ g < a + k) := fun hg => hout (List.mem_range'_1.mpr hg)
        have hl : (((s.ctx pr).withHeap mmap symrgtbl).dev.mram.freeFpList.take k).reverse.length =
          k := hlen
        omega
    · rw [own_commit_of_ne hne]
      exact hr

theorem Conserved.evict {pgn vic o : ℕ} {rest swprest : List ℕ} {dev : Devices}
    (h : Conserved n m s) (hb : FreeBound n m s) (hswp : SwpoffFits m)
    (hp : s.procs p = some pr) (hfree : s.dev.mswp.freeFpList = o :: swprest)
    (hpgn : Vacant (pr.mm.pgd pgn)) (hvic : Resident (pr.mm.pgd vic))
    (hram : dev.mram.freeFpList = s.dev.mram.freeFpList) (hsw : dev.mswp.freeFpList = swprest) :
    Conserved n m (s.commit p ⟨{ pr.mm with
      pgd := evictPgd (s.ctx pr) pgn vic o, fifoPgn := pgn :: rest }, dev, pr.activeMswpId,
      s.mmvmLock⟩) := by
  have hown := own_of_resident hp hvic
  have hlt : o < m := hb.swp o (by rw [hfree]; exact List.mem_cons_self)
  have hnone := own_of_vacant hp hpgn
  have hnone' := own_of_not_swapped hp hpgn.2
  have hvic' := own_of_not_swapped hp hvic.2
  have hne : pgn ≠ vic := by
    rintro rfl
    rw [hnone] at hown
    cases hown
  obtain ⟨hr, hs⟩ := evict_read rest dev hswp hp hlt hpgn.1 hvic
  constructor
  · rw [hr]
    show Covers _ dev.mram.freeFpList _
    rw [hram]
    exact h.ram.move hown hnone
  · rw [hs]
    show Covers _ dev.mswp.freeFpList _
    rw [hsw]
    have hold := h.swp
    rw [hfree] at hold
    apply (hold.take hvic').mono
    intro k r hk
    refine update_of_ne ?_ hk
    rintro rfl
    rw [Function.update_of_ne (by simpa using hne), hnone'] at hk
    cases hk

/-! ### Runs -/

/-- Every call that replaces resident victims only, and maps vacant pages only. -/
theorem Conserved.call {cl : Call} (h : Conserved n m s) (hb : FreeBound n m s)
    (hfpn : FpnFits n) (hswp : SwpoffFits m) (hp : s.procs p = some pr)
    (hvic : VictimResident (s.ctx pr) cl) (hfault : FreshFault (s.ctx pr) cl)
    (hfresh : FreshGrowth (s.ctx pr) cl) (hs : CallStep (s.ctx pr) cl c) :
    Conserved n m (s.commit p c) := by
  have hpage : ∀ g r c', (s.ctx pr).page cl = some g → PageStep (s.ctx pr) g r c' →
      Conserved n m (s.commit p c') := by
    intro g r c' hg hstep
    cases hstep with
    | hit _ => exact h.keep hp rfl rfl rfl
    | full _ _ _ => exact h.keep hp rfl rfl rfl
    | evict hnot hfifo hfree _ _ =>
        refine h.evict hb hswp hp hfree (hfault g hg hnot) (hvic g hg hnot ?_ _ ?_) rfl rfl
        · rw [hfree]
          exact List.cons_ne_nil _ _
        · rw [hfifo]
          exact List.getLast?_concat
  cases hs with
  | heap _ _ => exact h.keep hp rfl rfl rfl
  | grow mmap symrgtbl hg hk => exact h.grown hb hfpn hp mmap symrgtbl hk (hfresh _ _ hg hk)
  | lock _ => exact h.keep hp rfl rfl rfl
  | access hg hstep => exact hpage _ _ _ hg hstep
  | write hg hstep _ =>
      have h' := hpage _ _ _ hg hstep
      exact ⟨h'.ram, h'.swp⟩
  | swap _ _ => exact h.keep hp rfl rfl rfl
  | ioWrite _ _ => exact h.keep hp rfl rfl rfl

omit [PteLaws] in
/-- What a process that leaves or is replaced held is lost, so it must not hold anything. -/
theorem Conserved.update {x : Option Process} (h : Conserved n m s)
    (hempty : ∀ pr ∈ s.procs p, ∀ g, Vacant (pr.mm.pgd g)) :
    Conserved n m { s with procs := Function.update s.procs p x } := by
  have hkeep : ∀ f : Mm → ℕ → Option ℕ, (∀ pr ∈ s.procs p, ∀ g, f pr.mm g = none) →
      ∀ k r, s.own f k = some r →
        Sys.own f { s with procs := Function.update s.procs p x } k = some r := by
    intro f hf k r hk
    obtain ⟨pr, hpr, hr⟩ := own_eq_some.mp hk
    refine own_eq_some.mpr ⟨pr, update_of_ne ?_ hpr, hr⟩
    rintro rfl
    rw [hf pr hpr] at hr
    cases hr
  constructor
  · exact h.ram.mono (hkeep residentFrame fun pr hp g => (hempty pr hp g).frameOf)
  · exact h.swp.mono (hkeep swpFrame fun pr hp g => (hempty pr hp g).swapOf)

omit [PteLaws] in
/-- Frames only leave the free lists. -/
theorem FreeBound.step {e : Event} (h : FreeBound n m s) (hs : MemStep s e s') :
    FreeBound n m s' := by
  cases hs with
  | load _ _ _ _ => exact ⟨h.ram, h.swp⟩
  | release _ => exact ⟨h.ram, h.swp⟩
  | call hp hc =>
      have hpage : ∀ {pr g r c'}, PageStep (s.ctx pr) g r c' →
          (∀ fpn ∈ c'.dev.mram.freeFpList, fpn < n) ∧ ∀ fpn ∈ c'.dev.mswp.freeFpList, fpn < m := by
        intro pr g r c' hstep
        cases hstep with
        | hit _ => exact ⟨h.ram, h.swp⟩
        | full _ _ _ => exact ⟨h.ram, h.swp⟩
        | evict _ _ hfree _ _ =>
            refine ⟨h.ram, fun fpn hf => h.swp fpn ?_⟩
            exact hfree ▸ List.mem_cons_of_mem _ hf
      cases callStep_of_ok hc with
      | heap _ _ => exact ⟨h.ram, h.swp⟩
      | grow _ _ _ _ => exact ⟨fun fpn hf => h.ram fpn (List.mem_of_mem_drop hf), h.swp⟩
      | lock _ => exact ⟨h.ram, h.swp⟩
      | access _ hstep => exact ⟨(hpage hstep).1, (hpage hstep).2⟩
      | write _ hstep _ => exact ⟨(hpage hstep).1, (hpage hstep).2⟩
      | swap _ _ => exact ⟨h.ram, h.swp⟩
      | ioWrite _ _ => exact ⟨h.ram, h.swp⟩

theorem Conserved.step {e : Event} (hfpn : FpnFits n) (hswp : SwpoffFits m)
    (h : Conserved n m s) (hb : FreeBound n m s) (hs : MemStep s e s') (hbal : Balanced s e) :
    Conserved n m s' := by
  obtain ⟨hcalls, hrel⟩ := hbal
  cases hs with
  | load mm₀ pgd₀ activeMswpId hp =>
      apply h.update
      intro pr hpr
      rw [hp] at hpr
      cases hpr
  | release _ => exact h.update hrel
  | call hp hc =>
      obtain ⟨hvic, hfault, hfresh⟩ := hcalls _ hp
      exact h.call hb hfpn hswp hp hvic hfault hfresh (callStep_of_ok hc)

theorem Owned.step_balanced {e : Event} (hfpn : FpnFits n) (hswp : SwpoffFits m)
    (h : Owned n m s) (hs : MemStep s e s') (hb : Balanced s e) (hclear : Cleared e) :
    Owned n m s' := by
  refine h.step hfpn hswp hs ?_ hclear
  cases e with
  | call _ _ _ _ => exact fun pr hp => (hb.1 pr hp).1
  | load _ _ _ _ => trivial
  | release _ => trivial

omit [PteLaws] in
/-- A process that is released with a page in RAM leaves the frame of the page behind. -/
theorem not_conserved_of_release {g : ℕ} (h : Owned n m s) (hp : s.procs p = some pr)
    (hg : Resident (pr.mm.pgd g)) (hs : MemStep s (.release p) s') : ¬ Conserved n m s' := by
  intro hc
  have hown := own_of_resident hp hg
  cases hs with
  | release _ =>
      rcases hc.ram _ (h.ram_own _ _ hown) with hfree | ⟨k, hk⟩
      · exact h.ram.notMem hown hfree
      · obtain ⟨qr, hq, hr⟩ := own_eq_some.mp hk
        obtain ⟨_, hv⟩ | ⟨hne, hq⟩ := update_eq_some.mp hq
        · cases hv
        · exact hne (congrArg Prod.fst (h.ram.inj (own_eq_some.mpr ⟨qr, hq, hr⟩) hown))

end

/-- **No frame is lost**, whatever any number of processes do, as long as every step balances. -/
theorem conserved_of_balanced [Header] [PteLaws] {n m : ℕ} (hfpn : FpnFits n)
    (hswp : SwpoffFits m) {s₀ s : Sys} {es : List Event} (h₀ : Booted n m s₀)
    (hr : (memLts.restrict Balanced).Run s₀ es s) : Conserved n m s := by
  have hbound : FreeBound n m s₀ := ⟨by simp [h₀.ram], by simp [h₀.swp]⟩
  have h : FreeBound n m s ∧ Conserved n m s := by
    refine hr.invariant (I := fun s => FreeBound n m s ∧ Conserved n m s) ?_
      ⟨hbound, h₀.conserved⟩
    rintro s e s' ⟨hb, hc⟩ ⟨hs, hbal⟩
    exact ⟨hb.step hs, hc.step hfpn hswp hb hs hbal⟩
  exact h.2

/-- Process 0 allocates a page; process 1 ends without one. -/
def balancedSample : List Event :=
  [loadBlank 0, .call 0 (.alloc 256 1) 0 none, loadBlank 1, .release 1]

/-- Process 0 allocates a page and ends: frame 0 is lost. -/
def leakSample : List Event := [loadBlank 0, .call 0 (.alloc 256 1) 0 none, .release 0]

/-- The state after `loadBlank 0`. -/
def loaded22 : Sys :=
  { boot22 with procs := Function.update boot22.procs 0 (some ⟨initMm blankMm fun _ => 0, 0⟩) }

theorem balanced_load (s : Sys) (p : ℕ) : @Balanced header22 s (loadBlank p) :=
  ⟨trivial, trivial⟩

theorem balanced_alloc22 : @Balanced header22 loaded22 (.call 0 (.alloc 256 1) 0 none) := by
  let := header22
  refine ⟨fun pr hp => ⟨fun g hg => ?_, fun g hg => ?_, fun a n _ _ i _ => ?_⟩, trivial⟩
  · cases hg
  · cases hg
  · obtain rfl := Option.some.inj hp
    exact vacant_zero

theorem run_alloc22 {P : Sys → Prop} [DecidablePred P]
    (h : (@Sys.next header22 loaded22 (.call 0 (.alloc 256 1) 0 none)).any (P ·) = true) :
    ∃ s, P s ∧ ((@memLts header22).restrict (@Balanced header22)).Run boot22
      [loadBlank 0, .call 0 (.alloc 256 1) 0 none] s := by
  let := header22
  obtain ⟨s, halloc, hs⟩ := (Option.any_eq_true _ _).mp h
  have hload : MemStep boot22 (loadBlank 0) loaded22 := .load blankMm _ 0 rfl
  have hrun : (memLts.restrict Balanced).Run boot22 [loadBlank 0] loaded22 :=
    .snoc .nil ⟨hload, balanced_load _ _⟩
  exact ⟨s, of_decide_eq_true hs, hrun.snoc ⟨memStep_of_next halloc, balanced_alloc22⟩⟩

theorem conserved_sample : ∃ s, (@memLts header22).Run boot22 balancedSample s ∧
    @Conserved header22 2 2 s := by
  let := header22
  let := header22_pteLaws
  obtain ⟨s, hnone, hrun⟩ := run_alloc22 (P := fun s => (s.procs 1).isNone = true)
    (by decide +kernel)
  have hload := MemStep.load blankMm (fun _ => 0) 0 (Option.isNone_iff_eq_none.mp hnone)
  have hself : Function.update s.procs 1 (some ⟨initMm blankMm fun _ => 0, 0⟩) 1 =
      some ⟨initMm blankMm fun _ => 0, 0⟩ := Function.update_self ..
  have hempty : Balanced { s with
      procs := Function.update s.procs 1 (some ⟨initMm blankMm fun _ => 0, 0⟩) } (.release 1) := by
    refine ⟨trivial, fun pr hp g => ?_⟩
    obtain rfl := Option.some.inj (hself.symm.trans hp)
    exact vacant_zero
  have hrun' : (memLts.restrict Balanced).Run boot22 balancedSample _ :=
    (hrun.snoc ⟨hload, balanced_load _ _⟩).snoc ⟨.release hself, hempty⟩
  exact ⟨_, hrun'.of_restrict,
    conserved_of_balanced (by decide) (by decide) booted_boot22 hrun'⟩

theorem not_conserved_sample : ∃ s, (@memLts header22).Run boot22 leakSample s ∧
    ¬ @Conserved header22 2 2 s := by
  let := header22
  let := header22_pteLaws
  obtain ⟨s, hpage, hrun⟩ := run_alloc22 (P := fun s => (s.procs 0).any (fun pr =>
    Resident (pr.mm.pgd 0)) = true) (by decide +kernel)
  obtain ⟨pr, hp, hres⟩ := (Option.any_eq_true _ _).mp hpage
  have hrel : MemStep s (.release 0) _ := .release hp
  have ho : Owned 2 2 s :=
    (hrun.restrict_and (Q := Cleared) (by simp [loadBlank, Cleared])).invariant
      (fun _ _ _ h hs => h.step_balanced (by decide) (by decide) hs.1 hs.2.1 hs.2.2)
      booted_boot22.owned
  exact ⟨_, hrun.of_restrict.snoc hrel,
    not_conserved_of_release ho hp (of_decide_eq_true hres) hrel⟩

end BtlOs
