import BtlOs.Calls
import BtlOs.Frames

/-! # Who owns a frame

`Owned`: the RAM frames of the resident pages of all processes are distinct and not free, and so
are the swap frames of the swapped pages.  Every call keeps it as long as each page access is
`Sane`: the page accessed is not swapped out, and the victim of a replacement is in RAM.

The code does not keep to this: `pte_set_swap` leaves `PRESENT` set, so `pg_getpage` takes a page
that it has swapped out for one in RAM, and `fifo_pgn` holds a page once for every access, so a
page that was swapped out can be a victim again. -/

namespace BtlOs

open CLang Header TokenPool Table

section

variable [Header]

/-! ### What an entry holds -/

/-- The frame of a page in RAM. -/
def frameOf (pte : Pte) : Option ℕ := if Resident pte then some (pagingFpn pte) else none

/-- The swap frame of a page that is swapped out. -/
def swapOf (pte : Pte) : Option ℕ :=
  if pagingPageSwapped pte then some (pagingPteSwp pte) else none

def residentFrame (mm : Mm) (g : ℕ) : Option ℕ := frameOf (mm.pgd g)

def swpFrame (mm : Mm) (g : ℕ) : Option ℕ := swapOf (mm.pgd g)

section entries

variable [PteLaws]

theorem frameOf_pteSetFpn {n f : ℕ} (hn : FpnFits n) (hf : f < n) (pte : Pte) :
    frameOf (pteSetFpn pte f) = some f := by
  unfold frameOf
  rw [if_pos (resident_pteSetFpn pte f), PteLaws.pagingFpn_eq, pagingPteFpn_pteSetFpn hn hf]

theorem frameOf_pteSetFpn_pagingPteFpn (pte vicpte : Pte) :
    frameOf (pteSetFpn pte (pagingPteFpn vicpte)) = some (pagingFpn vicpte) := by
  unfold frameOf
  rw [if_pos (resident_pteSetFpn pte _), PteLaws.pagingFpn_eq, PteLaws.pagingFpn_eq,
    pagingPteFpn_pteSetFpn_pagingPteFpn]

theorem frameOf_pteSetSwap (pte : Pte) (t : ℤ) (o : ℕ) : frameOf (pteSetSwap pte t o) = none :=
  if_neg (not_resident_pteSetSwap pte t o)

theorem swapOf_pteSetFpn (pte : Pte) (f : ℕ) : swapOf (pteSetFpn pte f) = none := by
  simp [swapOf]

theorem swapOf_pteSetSwap {m o : ℕ} (hm : SwpoffFits m) (ho : o < m) (pte : Pte) (t : ℤ) :
    swapOf (pteSetSwap pte t o) = some o := by
  simp [swapOf, pagingPteSwp_pteSetSwap hm ho]

omit [PteLaws] in
theorem frameOf_of_resident {pte : Pte} (h : Resident pte) :
    frameOf pte = some (pagingFpn pte) := if_pos h

omit [PteLaws] in
theorem frameOf_of_not_present {pte : Pte} (h : pagingPagePresent pte = false) :
    frameOf pte = none := by
  apply if_neg
  intro hr
  rw [hr.1] at h
  cases h

omit [PteLaws] in
theorem swapOf_of_not_swapped {pte : Pte} (h : pagingPageSwapped pte = false) :
    swapOf pte = none := by
  simp [swapOf, h]

end entries

/-! ### Page tables under a reading of their entries -/

section tables

variable (f : Pte → Option ℕ)

/-- A reading in which `pte_set_fpn` stores the frame. -/
theorem mapPages_giveAll (frames : List ℕ) (pgd : ℕ → Pte) (a : ℕ)
    (h : ∀ fpn ∈ frames, ∀ pte, f (pteSetFpn pte fpn) = some fpn) :
    (fun g => f (mapPages pgd a frames g)) =
      giveAll (fun g => f (pgd g)) (List.range' a frames.length) frames := by
  induction frames generalizing pgd a with
  | nil => simp [mapPages, giveAll]
  | cons fpn fpNext ih =>
      rw [List.length_cons, List.range'_succ, giveAll]
      simp only [mapPages]
      rw [ih _ _ fun x hx => h x (List.mem_cons_of_mem fpn hx)]
      have hupd : (fun g => f (Function.update pgd a (pteSetFpn (pgd a) fpn) g)) =
          Function.update (fun g => f (pgd g)) a (some fpn) := by
        rw [← h fpn List.mem_cons_self (pgd a)]
        exact Function.comp_update f pgd a _
      rw [hupd]

/-- A reading for which `pte_set_fpn` clears the entry. -/
theorem mapPages_forget (h : ∀ pte fpn, f (pteSetFpn pte fpn) = none) {frames : List ℕ}
    {pgd : ℕ → Pte} {a g r : ℕ} (hr : f (mapPages pgd a frames g) = some r) :
    f (pgd g) = some r := by
  rcases mapPages_cases frames pgd a g with he | ⟨fpn, _, he⟩
  · rwa [he] at hr
  · rw [he, h] at hr
    cases hr

theorem evictPgd_read (c : Ctx) (pgn vic swpfpn : ℕ) (hne : pgn ≠ vic) :
    (fun g => f (evictPgd c pgn vic swpfpn g)) =
      Function.update (Function.update (fun g => f (c.mm.pgd g)) vic
        (f (pteSetSwap (c.mm.pgd vic) c.activeMswpId swpfpn))) pgn
          (f (pteSetFpn (c.mm.pgd pgn) (pagingPteFpn (c.mm.pgd vic)))) := by
  funext g
  unfold evictPgd
  simp only [Function.update_apply, hne, if_false]
  split_ifs <;> rfl

end tables

/-! ### The invariant -/

/-- Both writers of entries set `PRESENT`. -/
def PresentOk (pgd : ℕ → Pte) : Prop :=
  ∀ g, pagingPagePresent (pgd g) = false → pagingPageSwapped (pgd g) = false

/-- No frame of the `n` RAM frames and of the `m` swap frames is at two places. -/
structure Owned (n m : ℕ) (s : Sys) : Prop where
  tables : ∀ p pr, s.procs p = some pr → PresentOk pr.mm.pgd
  ram : Unique s.dev.mram.freeFpList (s.own residentFrame)
  swp : Unique s.dev.mswp.freeFpList (s.own swpFrame)
  ram_free : ∀ fpn ∈ s.dev.mram.freeFpList, fpn < n
  ram_own : ∀ k fpn, s.own residentFrame k = some fpn → fpn < n
  swp_free : ∀ fpn ∈ s.dev.mswp.freeFpList, fpn < m

section owned

variable {n m : ℕ} {s s' : Sys} {p : ℕ} {pr : Process} {c : Ctx}

theorem Booted.owned (h : Booted n m s) : Owned n m s where
  tables := by simp [h.procs]
  ram :=
    { nodup := by rw [h.ram]; exact List.nodup_range
      notMem := by simp [own_eq_some, h.procs]
      inj := by simp [own_eq_some, h.procs] }
  swp :=
    { nodup := by rw [h.swp]; exact List.nodup_range
      notMem := by simp [own_eq_some, h.procs]
      inj := by simp [own_eq_some, h.procs] }
  ram_free := by simp [h.ram]
  ram_own := by simp [own_eq_some, h.procs]
  swp_free := by simp [h.swp]

theorem tables_commit (h : Owned n m s) (hpgd : PresentOk c.mm.pgd) :
    ∀ q qr, (s.commit p c).procs q = some qr → PresentOk qr.mm.pgd := by
  apply forall_enter
  · exact hpgd
  · exact fun q qr _ => h.tables q qr

theorem Owned.keep (h : Owned n m s) (hp : s.procs p = some pr) (hpgd : c.mm.pgd = pr.mm.pgd)
    (hram : c.dev.mram.freeFpList = s.dev.mram.freeFpList)
    (hswp : c.dev.mswp.freeFpList = s.dev.mswp.freeFpList) : Owned n m (s.commit p c) := by
  have hres : ∀ g r, residentFrame c.mm g = some r → residentFrame pr.mm g = some r := by
    intro g r hr
    rwa [residentFrame, hpgd] at hr
  have hsw : ∀ g r, swpFrame c.mm g = some r → swpFrame pr.mm g = some r := by
    intro g r hr
    rwa [swpFrame, hpgd] at hr
  refine ⟨tables_commit h (hpgd ▸ h.tables p pr hp), ?_, ?_, ?_,
    bound_commit h.ram_own hp fun g r hr => .inl (hres g r hr), ?_⟩
  · show Unique c.dev.mram.freeFpList _
    rw [hram]
    exact unique_commit h.ram hp hres
  · show Unique c.dev.mswp.freeFpList _
    rw [hswp]
    exact unique_commit h.swp hp hsw
  · show ∀ fpn ∈ c.dev.mram.freeFpList, fpn < n
    rw [hram]
    exact h.ram_free
  · show ∀ fpn ∈ c.dev.mswp.freeFpList, fpn < m
    rw [hswp]
    exact h.swp_free

variable [PteLaws]

theorem presentOk_mapPages {pgd : ℕ → Pte} (h : PresentOk pgd) (a : ℕ) (frames : List ℕ) :
    PresentOk (mapPages pgd a frames) := by
  intro g hg
  rcases mapPages_cases frames pgd a g with he | ⟨fpn, _, he⟩
  · rw [he] at hg ⊢
    exact h g hg
  · rw [he]
    exact swapped_pteSetFpn _ _

theorem presentOk_evictPgd (h : PresentOk c.mm.pgd) (pgn vic o : ℕ) :
    PresentOk (evictPgd c pgn vic o) := by
  intro g hg
  unfold evictPgd at hg ⊢
  simp only [Function.update_apply] at hg ⊢
  split_ifs at hg ⊢
  · exact swapped_pteSetFpn _ _
  · exact swapped_pteSetFpn _ _
  · rw [present_pteSetSwap] at hg
    cases hg
  · exact h g hg

theorem residentFrame_grown (h : ∀ fpn ∈ s.dev.mram.freeFpList, fpn < n) (hfpn : FpnFits n)
    (mmap : List VmArea) (symrgtbl : ℕ → VmRg) {a k : ℕ} (hk : k ≤ s.dev.mram.freeFpList.length) :
    residentFrame (((s.ctx pr).withHeap mmap symrgtbl).grown a k).mm =
      giveAll (residentFrame pr.mm) (List.range' a k)
        (s.dev.mram.freeFpList.take k).reverse := by
  have hlen : (s.dev.mram.freeFpList.take k).reverse.length = k := by simpa using hk
  have hgive := mapPages_giveAll frameOf (s.dev.mram.freeFpList.take k).reverse pr.mm.pgd a
    fun fpn hf pte => frameOf_pteSetFpn hfpn
      (h fpn (List.mem_of_mem_take (List.mem_reverse.mp hf))) pte
  rwa [hlen] at hgive

theorem Owned.grown (h : Owned n m s) (hfpn : FpnFits n) (hp : s.procs p = some pr)
    (mmap : List VmArea) (symrgtbl : ℕ → VmRg) {a k : ℕ} (hk : k ≤ s.dev.mram.freeFpList.length) :
    Owned n m (s.commit p (((s.ctx pr).withHeap mmap symrgtbl).grown a k)) := by
  have hsw : ∀ g r, swpFrame (((s.ctx pr).withHeap mmap symrgtbl).grown a k).mm g = some r →
      swpFrame pr.mm g = some r :=
    fun g r hr => mapPages_forget swapOf swapOf_pteSetFpn hr
  refine
    { tables := tables_commit h (presentOk_mapPages (h.tables p pr hp) _ _)
      ram := ?_
      swp := unique_commit h.swp hp hsw
      ram_free := fun fpn hf => h.ram_free fpn (List.mem_of_mem_drop hf)
      ram_own := ?_
      swp_free := h.swp_free }
  · rw [own_commit, residentFrame_grown h.ram_free hfpn mmap symrgtbl hk, ownWith_giveAll,
      ownWith_self hp]
    refine Unique.giveAll _ _ (by simpa using hk) (h.ram.of_perm ?_)
    exact perm_take_reverse_append_drop k _
  · apply bound_commit h.ram_own hp
    intro g r hr
    rcases mapPages_cases (s.dev.mram.freeFpList.take k).reverse pr.mm.pgd a g with
      he | ⟨fpn, hf, he⟩
    · refine .inl ?_
      rwa [residentFrame, frameOf, ← he]
    · have hlt := h.ram_free fpn (List.mem_of_mem_take (List.mem_reverse.mp hf))
      have hr' : frameOf (mapPages pr.mm.pgd a (s.dev.mram.freeFpList.take k).reverse g) =
        some r := hr
      rw [he, frameOf_pteSetFpn hfpn hlt, Option.some.injEq] at hr'
      exact .inr (hr' ▸ hlt)

/-! ### A page access -/

omit [PteLaws] in
theorem own_of_resident {g : ℕ} (hp : s.procs p = some pr) (hg : Resident (pr.mm.pgd g)) :
    s.own residentFrame (p, g) = some (pagingFpn (pr.mm.pgd g)) := by
  rw [own_of_proc hp]
  exact frameOf_of_resident hg

/-- The holdings after a resident victim made room: its frame is the page's, the swap frame is
the victim's. -/
theorem evict_read {pgn vic o : ℕ} (rest : List ℕ) (dev : Devices) (hswp : SwpoffFits m)
    (hp : s.procs p = some pr) (ho : o < m)
    (hpgn : pagingPagePresent (pr.mm.pgd pgn) = false) (hvic : Resident (pr.mm.pgd vic)) :
    (s.commit p ⟨{ pr.mm with
        pgd := evictPgd (s.ctx pr) pgn vic o, fifoPgn := pgn :: rest }, dev, pr.activeMswpId,
        s.mmvmLock⟩).own residentFrame =
      Function.update (Function.update (s.own residentFrame) (p, vic) none) (p, pgn)
        (some (pagingFpn (pr.mm.pgd vic))) ∧
    (s.commit p ⟨{ pr.mm with
        pgd := evictPgd (s.ctx pr) pgn vic o, fifoPgn := pgn :: rest }, dev, pr.activeMswpId,
        s.mmvmLock⟩).own swpFrame =
      Function.update (Function.update (s.own swpFrame) (p, vic) (some o)) (p, pgn) none := by
  have hne : pgn ≠ vic := by
    rintro rfl
    rw [hvic.1] at hpgn
    cases hpgn
  have hram := evictPgd_read frameOf (s.ctx pr) pgn vic o hne
  have hsw := evictPgd_read swapOf (s.ctx pr) pgn vic o hne
  simp only [Sys.ctx, frameOf_pteSetSwap, frameOf_pteSetFpn_pagingPteFpn] at hram
  simp only [Sys.ctx, swapOf_pteSetSwap hswp ho, swapOf_pteSetFpn] at hsw
  constructor
  · rw [own_commit, ← ownWith_self (f := residentFrame) hp, ← ownWith_update, ← ownWith_update]
    exact congrArg _ hram
  · rw [own_commit, ← ownWith_self (f := swpFrame) hp, ← ownWith_update, ← ownWith_update]
    exact congrArg _ hsw

theorem Owned.evict {pgn vic o : ℕ} {rest swprest : List ℕ} {dev : Devices} (h : Owned n m s)
    (hswp : SwpoffFits m) (hp : s.procs p = some pr)
    (hfree : s.dev.mswp.freeFpList = o :: swprest)
    (hpgn : pagingPagePresent (pr.mm.pgd pgn) = false) (hvic : Resident (pr.mm.pgd vic))
    (hram : dev.mram.freeFpList = s.dev.mram.freeFpList) (hsw : dev.mswp.freeFpList = swprest) :
    Owned n m (s.commit p ⟨{ pr.mm with
      pgd := evictPgd (s.ctx pr) pgn vic o, fifoPgn := pgn :: rest }, dev, pr.activeMswpId,
      s.mmvmLock⟩) := by
  have hown := own_of_resident hp hvic
  have hf := h.ram_own _ _ hown
  have ho : o < m := h.swp_free o (by rw [hfree]; exact List.mem_cons_self)
  obtain ⟨hr, hs⟩ := evict_read rest dev hswp hp ho hpgn hvic
  refine ⟨tables_commit h (presentOk_evictPgd (h.tables p pr hp) _ _ _), ?_, ?_, ?_, ?_, ?_⟩
  · rw [hr]
    show Unique dev.mram.freeFpList _
    rw [hram]
    exact h.ram.move hown _
  · rw [hs]
    show Unique dev.mswp.freeFpList _
    have hold := h.swp
    rw [hfree] at hold
    rw [hsw]
    exact (hold.take (p, vic)).mono (forall_remove fun _ _ hk => hk)
  · show ∀ fpn ∈ dev.mram.freeFpList, fpn < n
    rw [hram]
    exact h.ram_free
  · rw [hr]
    exact forall_enter (P := fun _ fpn => fpn < n) hf
      fun k r _ => forall_remove (P := fun _ fpn => fpn < n) h.ram_own k r
  · show ∀ fpn ∈ dev.mswp.freeFpList, fpn < m
    rw [hsw]
    intro fpn hmem
    exact h.swp_free fpn (by rw [hfree]; exact List.mem_cons_of_mem o hmem)

/-! ### Runs -/

/-- If an access of page `g` replaces a page, the victim is in RAM. -/
def VictimAt (c : Ctx) (g : ℕ) : Prop :=
  pagingPagePresent (c.mm.pgd g) = false → c.dev.mswp.freeFpList ≠ [] →
    ∀ vic ∈ c.mm.fifoPgn.getLast?, Resident (c.mm.pgd vic)

/-- Where a call replaces a page, its victim is in RAM. -/
def VictimResident (c : Ctx) (cl : Call) : Prop := ∀ g, c.page cl = some g → VictimAt c g

/-- The page access of a call replaces no page: the page is in RAM, or no swap frame is free. -/
def NoEvict (c : Ctx) (cl : Call) : Prop :=
  ∀ g, c.page cl = some g →
    pagingPagePresent (c.mm.pgd g) = true ∨ c.dev.mswp.freeFpList = []

/-- What a page access with a resident victim leaves. -/
theorem Owned.page {g : ℕ} {r : Option ℕ} (h : Owned n m s) (hswp : SwpoffFits m)
    (hp : s.procs p = some pr) (hvic : VictimAt (s.ctx pr) g) (hs : PageStep (s.ctx pr) g r c) :
    Owned n m (s.commit p c) := by
  cases hs with
  | hit _ => exact h.keep hp rfl rfl rfl
  | full _ _ _ => exact h.keep hp rfl rfl rfl
  | evict hnot hfifo hfree _ _ =>
      refine h.evict hswp hp hfree hnot (hvic hnot ?_ _ ?_) rfl rfl
      · rw [hfree]
        exact List.cons_ne_nil _ _
      · rw [hfifo]
        exact List.getLast?_concat

omit [PteLaws] in
theorem Owned.page_noEvict {cl : Call} {g : ℕ} {r : Option ℕ} (h : Owned n m s)
    (hp : s.procs p = some pr) (hno : NoEvict (s.ctx pr) cl) (hg : (s.ctx pr).page cl = some g)
    (hs : PageStep (s.ctx pr) g r c) : Owned n m (s.commit p c) ∧ c.mm.pgd = pr.mm.pgd := by
  cases hs with
  | hit _ => exact ⟨h.keep hp rfl rfl rfl, rfl⟩
  | full _ _ _ => exact ⟨h.keep hp rfl rfl rfl, rfl⟩
  | evict hnot _ hfree _ _ =>
      cases hno g hg with
      | inl hpres =>
          rw [hnot] at hpres
          cases hpres
      | inr hempty =>
          rw [hfree] at hempty
          cases hempty

/-- Every call keeps the frames at one place, if its page access does. -/
theorem Owned.call {cl : Call} (h : Owned n m s) (hfpn : FpnFits n) (hp : s.procs p = some pr)
    (hpage : ∀ g r c', (s.ctx pr).page cl = some g → PageStep (s.ctx pr) g r c' →
      Owned n m (s.commit p c')) (hs : CallStep (s.ctx pr) cl c) : Owned n m (s.commit p c) := by
  cases hs with
  | heap mmap symrgtbl => exact h.keep hp rfl rfl rfl
  | grow mmap symrgtbl _ hk => exact h.grown hfpn hp mmap symrgtbl hk
  | lock _ => exact h.keep hp rfl rfl rfl
  | access hg hstep => exact hpage _ _ _ hg hstep
  | write hg hstep _ =>
      have h' := hpage _ _ _ hg hstep
      exact ⟨h'.tables, h'.ram, h'.swp, h'.ram_free, h'.ram_own, h'.swp_free⟩
  | swap _ _ => exact h.keep hp rfl rfl rfl
  | ioWrite _ _ => exact h.keep hp rfl rfl rfl

omit [PteLaws] in
theorem Owned.update {x : Option Process} (h : Owned n m s)
    (hx : ∀ pr, x = some pr → ∀ g, pr.mm.pgd g = 0) :
    Owned n m { s with procs := Function.update s.procs p x } := by
  have hres : ∀ pr, x = some pr → ∀ g, residentFrame pr.mm g = none := by
    intro pr hpr g
    rw [residentFrame, hx pr hpr g]
    exact frameOf_of_not_present present_zero
  refine ⟨?_, unique_update h.ram hres, unique_update h.swp ?_, h.ram_free, ?_, h.swp_free⟩
  · apply forall_update
    · intro qr hq g _
      rw [hx qr hq g]
      exact swapped_zero
    · exact fun q qr _ => h.tables q qr
  · intro pr hpr g
    rw [swpFrame, hx pr hpr g]
    exact swapOf_of_not_swapped swapped_zero
  · exact fun k fpn hk => h.ram_own k fpn (own_of_update hres k fpn hk)

theorem Owned.step {e : Event} (hfpn : FpnFits n) (hswp : SwpoffFits m) (h : Owned n m s)
    (hs : MemStep s e s') (hvic : Calls VictimResident s e)
    (hclear : Cleared e) : Owned n m s' := by
  cases hs with
  | load mm₀ pgd₀ activeMswpId _ =>
      apply h.update
      intro pr hpr
      obtain rfl := Option.some.inj hpr
      exact hclear
  | release _ => exact h.update (by simp)
  | call hp hc =>
      exact h.call hfpn hp (fun g r c' hg hstep => h.page hswp hp (hvic _ hp g hg) hstep)
        (callStep_of_ok hc)

/-! ### Runs without replacement

As long as no page is replaced, no page is swapped out, and the entries with `PRESENT` set are the
resident ones. -/

/-- The frame that an entry with `PRESENT` set resolves to. -/
def ramFrame (mm : Mm) (g : ℕ) : Option ℕ :=
  if pagingPagePresent (mm.pgd g) then some (pagingFpn (mm.pgd g)) else none

/-- Every RAM frame occurs at most once among the free frames and the pages whose entry has
`PRESENT` set, every swap frame at most once among the free ones and the swapped pages. -/
def FramesOnce (s : Sys) : Prop :=
  (∀ fpn, (s.dev.mram.freeFpList.count fpn : ℕ∞) +
    {k | s.own ramFrame k = some fpn}.encard ≤ 1) ∧
  ∀ fpn, (s.dev.mswp.freeFpList.count fpn : ℕ∞) + {k | s.own swpFrame k = some fpn}.encard ≤ 1

def NoSwapped (s : Sys) : Prop :=
  ∀ p pr g, s.procs p = some pr → pagingPageSwapped (pr.mm.pgd g) = false

theorem noSwapped_commit {cl : Call} (h : Owned n m s) (hno : NoSwapped s)
    (hp : s.procs p = some pr) (hev : NoEvict (s.ctx pr) cl) (hs : CallStep (s.ctx pr) cl c) :
    NoSwapped (s.commit p c) := by
  have hpgd : ∀ g, pagingPageSwapped (c.mm.pgd g) = false := by
    intro g
    cases hs with
    | heap _ _ => exact hno p pr g hp
    | grow _ _ _ _ =>
        rcases mapPages_cases _ pr.mm.pgd _ g with he | ⟨fpn, _, he⟩
        · exact (congrArg pagingPageSwapped he).trans (hno p pr g hp)
        · exact (congrArg pagingPageSwapped he).trans (swapped_pteSetFpn _ _)
    | lock _ => exact hno p pr g hp
    | access hg hstep =>
        rw [(h.page_noEvict hp hev hg hstep).2]
        exact hno p pr g hp
    | write hg hstep _ =>
        have he := (h.page_noEvict hp hev hg hstep).2
        exact (congrArg (fun pgd => pagingPageSwapped (pgd g)) he).trans (hno p pr g hp)
    | swap _ _ => exact hno p pr g hp
    | ioWrite _ _ => exact hno p pr g hp
  intro q qr g hq
  cases update_eq_some.mp hq with
  | inl hq =>
      obtain rfl := Option.some.inj hq.2
      exact hpgd g
  | inr hq => exact hno q qr g hq.2

theorem Owned.step_noEvict {e : Event} (hfpn : FpnFits n) (h : Owned n m s ∧ NoSwapped s)
    (hs : MemStep s e s') (hev : Calls NoEvict s e) (hclear : Cleared e) :
    Owned n m s' ∧ NoSwapped s' := by
  obtain ⟨h, hno⟩ := h
  have hupdate : ∀ q x, (∀ pr, x = some pr → ∀ g, pr.mm.pgd g = 0) →
      NoSwapped { s with procs := Function.update s.procs q x } := by
    intro q x hx q' qr g hq
    cases update_eq_some.mp hq with
    | inl hq =>
        rw [hx qr hq.2 g]
        exact swapped_zero
    | inr hq => exact hno q' qr g hq.2
  cases hs with
  | load mm₀ pgd₀ activeMswpId _ =>
      have hx : ∀ pr, some (Process.mk (initMm mm₀ pgd₀) activeMswpId) = some pr →
          ∀ g, pr.mm.pgd g = 0 := by
        intro pr hpr
        obtain rfl := Option.some.inj hpr
        exact hclear
      exact ⟨h.update hx, hupdate _ _ hx⟩
  | release _ => exact ⟨h.update (by simp), hupdate _ _ (by simp)⟩
  | call hp hc =>
      have hs := callStep_of_ok hc
      have hev := hev _ hp
      exact ⟨h.call hfpn hp (fun g r c' hg hstep => (h.page_noEvict hp hev hg hstep).1) hs,
        noSwapped_commit h hno hp hev hs⟩

omit [PteLaws] in
theorem Owned.framesOnce (h : Owned n m s) (hno : NoSwapped s) : FramesOnce s := by
  have hread : s.own ramFrame = s.own residentFrame := by
    funext k
    unfold Sys.own
    rcases hp : s.procs k.1 with _ | pr
    · rfl
    · simp [ramFrame, residentFrame, frameOf, Resident, hno k.1 pr k.2 hp]
  refine ⟨?_, unique_iff_encard.mp h.swp⟩
  rw [hread]
  exact unique_iff_encard.mp h.ram

end owned

/-- **Frames without replacement.**  Whatever instructions any number of processes execute, every
frame stays at one place as long as no page access replaces a page. -/
theorem frames_once_of_noEvict [PteLaws] {n m : ℕ} (hfpn : FpnFits n) {s₀ s : Sys}
    {es : List Event} (h₀ : Booted n m s₀)
    (hr : (memLts.restrict fun s e => Calls NoEvict s e ∧ Cleared e).Run s₀ es s) :
    FramesOnce s := by
  have hinit : Owned n m s₀ ∧ NoSwapped s₀ := by
    refine ⟨h₀.owned, fun p pr g hp => ?_⟩
    rw [h₀.procs p] at hp
    cases hp
  have h : Owned n m s ∧ NoSwapped s := by
    refine hr.invariant (I := fun s => Owned n m s ∧ NoSwapped s) ?_ hinit
    rintro s e s' h ⟨hs, hev, hclear⟩
    exact Owned.step_noEvict hfpn h hs hev hclear
  exact h.1.framesOnce h.2

instance (c : Ctx) (cl : Call) : Decidable (NoEvict c cl) :=
  match h : c.page cl with
  | none => isTrue fun g hg => by
      rw [h] at hg
      cases hg
  | some g => decidable_of_iff (pagingPagePresent (c.mm.pgd g) = true ∨
      c.dev.mswp.freeFpList = []) (by simp [NoEvict, h])

end

/-- One page is allocated, written and read. -/
def hitSample : List Event :=
  [loadBlank 0, .call 0 (.alloc 256 1) 0 none, .call 0 (.write 5 1 7) 0 none,
    .call 0 (.read 1 7 0) 0 (some 5)]

theorem frames_once_sample : ∃ s, (@memLts header22).Run boot22 hitSample s ∧
    @FramesOnce header22 s := by
  let := header22
  let := header22_pteLaws
  have hsome : (Lts.replay (Lts.guarded Sys.next (Calls NoEvict)) boot22 hitSample).isSome =
      true := by decide +kernel
  obtain ⟨s, hs⟩ := Option.isSome_iff_exists.mp hsome
  have hrun : (memLts.restrict (Calls NoEvict)).Run boot22 hitSample s :=
    Lts.Run.of_replay_guarded (fun _ _ _ => memStep_of_next) hs
  exact ⟨s, hrun.of_restrict, frames_once_of_noEvict (by decide) booted_boot22
    (hrun.restrict_and (by simp [hitSample, loadBlank, Cleared]))⟩

/-- One page is allocated, then an address of the next page is read: page 0 makes room for page
1, and both entries resolve to frame 0. -/
def evictSample : List Event :=
  [loadBlank 0, .call 0 (.alloc 256 1) 0 none, .call 0 (.read 1 256 0) 0 (some 0)]

theorem frames_not_once : ∃ s, (@memLts header22).Run boot22 evictSample s ∧
    ¬ @FramesOnce header22 s := by
  let := header22
  have hsome : (Lts.replay Sys.next boot22 evictSample).any (fun s =>
      s.own ramFrame (0, 0) = some 0 ∧ s.own ramFrame (0, 1) = some 0) = true := by
    decide +kernel
  obtain ⟨s, hs, hown⟩ := (Option.any_eq_true _ _).mp hsome
  obtain ⟨h₀, h₁⟩ := of_decide_eq_true hown
  refine ⟨s, Lts.Run.of_replay (fun _ _ _ => memStep_of_next) hs, fun h => ?_⟩
  have := (unique_iff_encard.mpr h.1).inj h₀ h₁
  cases this

end BtlOs
