import BtlOs.Ownership

/-! # What becomes of a page that is swapped out

A ghost component remembers, for every page that `pg_getpage` replaced and that no access has
reached since, the swap frame it was written to and the bytes that it had.  `SwapKept` is what an
access of a page should find: a page that was replaced is seen not to be in RAM and comes back
from its swap frame with its bytes, and no page is given a frame of another page.

An access of a page that was replaced never finds this (`evicted_present`): `pte_set_swap` sets
`PRESENT`, the bit by which `pg_getpage` tells whether the page is in RAM.  As long as no such page
is accessed, and no such page is the victim of a second replacement, every access finds it. -/

namespace BtlOs

open CLang Header TokenPool Table

section

variable [Header]

/-! ### The pages that were replaced -/

/-- The swap frame and the bytes of a page that was replaced. -/
abbrev Evicted := ℕ × ℕ → Option (ℕ × (ℕ → Byte))

/-- The victim of an access of page `g` and the swap frame that it goes to. -/
def Ctx.evicts (c : Ctx) (g : ℕ) : Option (ℕ × ℕ) :=
  if pagingPagePresent (c.mm.pgd g) then none
  else
    match c.mm.fifoPgn.getLast?, c.dev.mswp.freeFpList with
    | some vic, swpfpn :: _ => some (vic, swpfpn)
    | _, _ => none

/-- The bytes of a RAM frame. -/
def Ctx.frameBytes (c : Ctx) (fpn j : ℕ) : Byte := c.dev.mram.storage (fpn * pagingPagesz + j)

/-- The pages replaced after process `p` has accessed its page `g`. -/
def Evicted.access (E : Evicted) (c : Ctx) (p g : ℕ) : Evicted :=
  match c.evicts g with
  | none => Function.update E (p, g) none
  | some (vic, swpfpn) => Function.update
      (Function.update E (p, vic) (some (swpfpn, c.frameBytes (pagingPteFpn (c.mm.pgd vic)))))
      (p, g) none

/-- The pages replaced after an event.  A call with the result `-1` has accessed no page. -/
def nextEvicted (s : Sys) (E : Evicted) : Event → Evicted
  | .call p cl st _ =>
      match s.procs p with
      | none => E
      | some pr =>
          match (s.ctx pr).page cl with
          | none => E
          | some g => if st = 0 then E.access (s.ctx pr) p g else E
  | .load p _ _ _ => fun k => if k.1 = p then none else E k
  | .release p => fun k => if k.1 = p then none else E k

/-- The memory system with the pages that were replaced. -/
def swapLts : Lts (Sys × Evicted) Event := memLts.withGhost nextEvicted

/-- What an access of page `g` of process `p` that returns the frame `r` should find. -/
structure SwapKept (s : Sys) (E : Evicted) (p g : ℕ) (pr : Process) (r : Option ℕ) (c : Ctx) :
    Prop where
  reloaded : ∀ swpfpn bytes, E (p, g) = some (swpfpn, bytes) →
    pagingPagePresent (pr.mm.pgd g) = false ∧ pagingPteSwp (pr.mm.pgd g) = swpfpn ∧
      ∃ fpn, r = some fpn ∧ ∀ j < pagingPagesz, c.frameBytes fpn j = bytes j
  exclusive : ∀ fpn, r = some fpn → ∀ k, (s.commit p c).own residentFrame k = some fpn → k = (p, g)

/-- No page that was replaced is accessed, and none is replaced again. -/
def SwapSafe (x : Sys × Evicted) : Event → Prop
  | .call p cl _ _ => ∀ pr ∈ x.1.procs p, ∀ g, (x.1.ctx pr).page cl = some g →
      x.2 (p, g) = none ∧ VictimAt (x.1.ctx pr) g
  | .load _ _ _ _ => True
  | .release _ => True

/-! ### The bits of the entries follow the history -/

/-- A replaced page keeps `PRESENT`, and `SWAPPED` marks replaced pages only. -/
structure Tracked (s : Sys) (E : Evicted) : Prop where
  present : ∀ p g, E (p, g) ≠ none →
    ∃ pr, s.procs p = some pr ∧ pagingPagePresent (pr.mm.pgd g) = true
  swapped : ∀ p pr g, s.procs p = some pr → pagingPageSwapped (pr.mm.pgd g) = true →
    E (p, g) ≠ none

variable {n m : ℕ} {s s' : Sys} {E : Evicted} {p : ℕ} {pr : Process} {c : Ctx}

/-- It is enough to look at the pages of the process that made the call. -/
theorem Tracked.commit {E' : Evicted} (h : Tracked s E)
    (hother : ∀ k : ℕ × ℕ, k.1 ≠ p → E' k = E k)
    (hpres : ∀ g, E' (p, g) ≠ none → pagingPagePresent (c.mm.pgd g) = true)
    (hswap : ∀ g, pagingPageSwapped (c.mm.pgd g) = true → E' (p, g) ≠ none) :
    Tracked (s.commit p c) E' := by
  constructor
  · intro q g hq
    by_cases hne : q = p
    · subst hne
      exact ⟨_, Function.update_self .., hpres g hq⟩
    · rw [hother (q, g) hne] at hq
      obtain ⟨qr, hqr, hg⟩ := h.present q g hq
      exact ⟨qr, update_of_ne hne hqr, hg⟩
  · intro q qr g hq hg
    cases update_eq_some.mp hq with
    | inl hq =>
        obtain ⟨rfl, hv⟩ := hq
        obtain rfl := Option.some.inj hv
        exact hswap g hg
    | inr hq =>
        rw [hother (q, g) hq.1]
        exact h.swapped q qr g hq.2 hg

theorem Tracked.update {x : Option Process} (h : Tracked s E)
    (hx : ∀ pr, x = some pr → ∀ g, pr.mm.pgd g = 0) :
    Tracked { s with procs := Function.update s.procs p x }
      (fun k => if k.1 = p then none else E k) := by
  constructor
  · intro q g hq
    have hne : q ≠ p := by
      rintro rfl
      simp at hq
    simp only [hne, if_false] at hq
    obtain ⟨qr, hqr, hg⟩ := h.present q g hq
    exact ⟨qr, update_of_ne hne hqr, hg⟩
  · intro q qr g hq hg
    cases update_eq_some.mp hq with
    | inl hq =>
        rw [hx qr hq.2 g] at hg
        exact absurd hg (by simp)
    | inr hq =>
        simp only [hq.1, if_false]
        exact h.swapped q qr g hq.2 hg

theorem access_of_ne {g : ℕ} {k : ℕ × ℕ} (hne : k.1 ≠ p) : E.access c p g k = E k := by
  have h : ∀ g', k ≠ (p, g') := by
    rintro g' rfl
    exact hne rfl
  rcases he : c.evicts g with _ | ⟨vic, swpfpn⟩
  · simp only [Evicted.access, he]
    exact Function.update_of_ne (h g) _ _
  · simp only [Evicted.access, he]
    rw [Function.update_of_ne (h g), Function.update_of_ne (h vic)]

theorem access_of_evicts_none {g : ℕ} (hnone : E (p, g) = none) (he : c.evicts g = none) :
    E.access c p g = E := by
  simp only [Evicted.access, he]
  rw [← hnone, Function.update_eq_self]

theorem access_of_evicts_some {g vic swpfpn : ℕ} (he : c.evicts g = some (vic, swpfpn)) :
    E.access c p g = Function.update (Function.update E (p, vic)
      (some (swpfpn, c.frameBytes (pagingPteFpn (c.mm.pgd vic))))) (p, g) none := by
  simp only [Evicted.access, he]

theorem evictPgd_of_ne {g vic swpfpn g' : ℕ} (hne : g' ≠ g) :
    evictPgd c g vic swpfpn g' =
      if g' = vic then pteSetSwap (c.mm.pgd vic) c.activeMswpId swpfpn else c.mm.pgd g' := by
  unfold evictPgd
  rw [Function.update_of_ne hne, Function.update_apply]

theorem Tracked.present_of_proc (h : Tracked s E) (hp : s.procs p = some pr) {g : ℕ}
    (hg : E (p, g) ≠ none) : pagingPagePresent (pr.mm.pgd g) = true := by
  obtain ⟨qr, hq, hpres⟩ := h.present p g hg
  rw [hp] at hq
  obtain rfl := Option.some.inj hq
  exact hpres

theorem Tracked.keep (h : Tracked s E) (hp : s.procs p = some pr) (hpgd : c.mm.pgd = pr.mm.pgd) :
    Tracked (s.commit p c) E := by
  refine h.commit (fun _ _ => rfl) ?_ ?_ <;> rw [hpgd]
  · exact fun g => h.present_of_proc hp
  · exact fun g => h.swapped p pr g hp

variable [PteLaws]

theorem resident_evictPgd {vic swpfpn : ℕ} (g : ℕ) : Resident (evictPgd c g vic swpfpn g) := by
  unfold evictPgd
  rw [Function.update_self]
  exact resident_pteSetFpn _ _

theorem Tracked.page {g : ℕ} {r : Option ℕ} {c₁ : Ctx} (h : Tracked s E)
    (hp : s.procs p = some pr) (hnone : E (p, g) = none) (hs : PageStep (s.ctx pr) g r c₁)
    (hc : c.mm = c₁.mm) : Tracked (s.commit p c) (E.access (s.ctx pr) p g) := by
  cases hs with
  | hit hg =>
      have he : (s.ctx pr).evicts g = none := if_pos hg
      rw [access_of_evicts_none hnone he]
      exact h.keep hp (by rw [hc]; rfl)
  | full hg hfifo hswp =>
      have he : (s.ctx pr).evicts g = none := by simp [Ctx.evicts, hg, hswp]
      rw [access_of_evicts_none hnone he]
      exact h.keep hp (by rw [hc]; rfl)
  | @evict vic swpfpn _ _ _ _ hg hfifo hswp _ _ =>
      have he : (s.ctx pr).evicts g = some (vic, swpfpn) := by
        simp [Ctx.evicts, hg, hswp, hfifo]
      have hpgd : c.mm.pgd = evictPgd (s.ctx pr) g vic swpfpn := by rw [hc]
      rw [access_of_evicts_some he]
      refine h.commit (fun k hk => ?_) (fun g' hg' => ?_) fun g' hg' => ?_
      · rw [← access_of_evicts_some he]
        exact access_of_ne hk
      · rw [hpgd]
        by_cases hne : g' = g
        · subst hne
          exact (resident_evictPgd g').1
        · rw [evictPgd_of_ne hne]
          split_ifs with hv
          · exact present_pteSetSwap _ _ _
          · rw [Function.update_of_ne (by simpa using hne),
              Function.update_of_ne (by simpa using hv)] at hg'
            exact h.present_of_proc hp hg'
      · rw [hpgd] at hg'
        by_cases hne : g' = g
        · subst hne
          rw [(resident_evictPgd g').2] at hg'
          cases hg'
        · rw [Function.update_of_ne (by simpa using hne)]
          by_cases hv : g' = vic
          · subst hv
            simp
          · rw [evictPgd_of_ne hne, if_neg hv] at hg'
            rw [Function.update_of_ne (by simpa using hv)]
            exact h.swapped p pr g' hp hg'

theorem Tracked.step {e : Event} (h : Tracked s E) (hs : MemStep s e s')
    (hsafe : SwapSafe (s, E) e) (hclear : Cleared e) : Tracked s' (nextEvicted s E e) := by
  cases hs with
  | load mm₀ pgd₀ activeMswpId _ =>
      apply h.update
      intro pr hpr
      obtain rfl := Option.some.inj hpr
      exact hclear
  | release _ => exact h.update (by simp)
  | @call p pr cl st val c hp hc =>
      rcases hg : (s.ctx pr).page cl with _ | g
      · simp only [nextEvicted, hp, hg]
        obtain ⟨a, frames, hpgd⟩ := pgd_of_ok hc hg
        refine h.commit (fun _ _ => rfl) (fun g hE => ?_) fun g hsw => ?_
        · have hpres := h.present_of_proc hp hE
          rw [hpgd]
          rcases mapPages_cases frames (s.ctx pr).mm.pgd a g with he | ⟨fpn, _, he⟩
          · rw [he]
            exact hpres
          · rw [he]
            exact present_pteSetFpn _ _
        · rw [hpgd] at hsw
          rcases mapPages_cases frames (s.ctx pr).mm.pgd a g with he | ⟨fpn, _, he⟩
          · rw [he] at hsw
            exact h.swapped p pr g hp hsw
          · rw [he, swapped_pteSetFpn] at hsw
            cases hsw
      · simp only [nextEvicted, hp, hg]
        rcases page_of_ok hc hg with ⟨rfl, hmm⟩ | ⟨rfl, r, c₁, hstep, hmm⟩
        · rw [if_neg (by decide)]
          exact h.keep hp (by rw [hmm]; rfl)
        · rw [if_pos rfl]
          exact h.page hp (hsafe pr hp g hg).1 hstep hmm

theorem Owned.step_swapSafe {e : Event} (hfpn : FpnFits n) (hswp : SwpoffFits m)
    (h : Owned n m s) (hs : MemStep s e s') (hsafe : SwapSafe (s, E) e) (hclear : Cleared e) :
    Owned n m s' := by
  refine h.step hfpn hswp hs ?_ hclear
  cases e with
  | call _ _ _ _ => exact fun pr hp g hg => (hsafe pr hp g hg).2
  | load _ _ _ _ => trivial
  | release _ => trivial

/-! ### What an access finds -/

omit [PteLaws] in
/-- A page that was replaced is taken for one in RAM. -/
theorem Tracked.not_swapKept {g : ℕ} {r : Option ℕ} (h : Tracked s E) (hp : s.procs p = some pr)
    (hE : E (p, g) ≠ none) : ¬ SwapKept s E p g pr r c := by
  intro hkept
  obtain ⟨⟨swpfpn, bytes⟩, hb⟩ := Option.ne_none_iff_exists'.mp hE
  have hpres := h.present_of_proc hp hE
  rw [(hkept.reloaded swpfpn bytes hb).1] at hpres
  cases hpres

theorem Tracked.swapKept {g : ℕ} {r : Option ℕ} (h : Tracked s E) (ho : Owned n m s)
    (hswp : SwpoffFits m) (hp : s.procs p = some pr) (hvic : VictimAt (s.ctx pr) g)
    (hs : PageStep (s.ctx pr) g r c) (hE : E (p, g) = none) : SwapKept s E p g pr r c := by
  refine ⟨fun swpfpn bytes hb => ?_, fun fpn hr k hk => ?_⟩
  · rw [hE] at hb
    cases hb
  · have hown : (s.commit p c).own residentFrame (p, g) = some fpn := by
      rw [own_commit_self]
      cases hs with
      | hit hpres =>
          have hsw : pagingPageSwapped (pr.mm.pgd g) = false := by
            by_contra hne
            exact h.swapped p pr g hp (by simpa using hne) hE
          rw [← hr]
          exact frameOf_of_resident ⟨hpres, hsw⟩
      | full _ _ _ => cases hr
      | evict _ _ _ _ _ =>
          rw [← hr]
          exact frameOf_of_resident (resident_evictPgd _)
    exact (ho.page hswp hp hvic hs).ram.inj hk hown

end

/-- **Swapping.**  In every run in which no page that was replaced is accessed or replaced again,
an access with a resident victim finds what it should exactly if its page was not replaced. -/
theorem swapKept_iff [Header] [PteLaws] {n m : ℕ} (hfpn : FpnFits n) (hswp : SwpoffFits m)
    {s₀ s : Sys} {E : Evicted} {es : List Event} (h₀ : Booted n m s₀)
    (hr : (swapLts.restrict fun x e => SwapSafe x e ∧ Cleared e).Run (s₀, fun _ => none) es (s, E))
    {p g : ℕ} {pr : Process} {r : Option ℕ} {c : Ctx} (hp : s.procs p = some pr)
    (hvic : VictimAt (s.ctx pr) g) (hget : pgGetpage (s.ctx pr) g = .ok (r, c)) :
    SwapKept s E p g pr r c ↔ E (p, g) = none := by
  have hinit : Tracked s₀ (fun _ => none) :=
    ⟨fun _ _ h => absurd rfl h, fun p pr g hp => by simp [h₀.procs] at hp⟩
  have h : Owned n m s ∧ Tracked s E := by
    refine hr.invariant (I := fun x => Owned n m x.1 ∧ Tracked x.1 x.2) ?_ ⟨h₀.owned, hinit⟩
    rintro ⟨s, E⟩ e ⟨s', E'⟩ ⟨ho, ht⟩ ⟨⟨hs, rfl⟩, hsafe, hclear⟩
    exact ⟨ho.step_swapSafe hfpn hswp hs hsafe hclear, ht.step hs hsafe hclear⟩
  obtain ⟨_, hstep⟩ := pgGetpage_ok hget
  refine ⟨fun hkept => ?_, h.2.swapKept h.1 hswp hp hvic hstep⟩
  by_contra hE
  exact h.2.not_swapKept hp hE hkept

section decidable

variable [Header]

instance (c : Ctx) (g : ℕ) : Decidable (VictimAt c g) :=
  decidable_of_iff (pagingPagePresent (c.mm.pgd g) = false → c.dev.mswp.freeFpList ≠ [] →
    (c.mm.fifoPgn.getLast?).all (fun vic => Resident (c.mm.pgd vic)) = true) (by
      simp [VictimAt, Option.all_eq_true])

instance (x : Sys × Evicted) : ∀ e, Decidable (SwapSafe x e)
  | .call p cl _ _ => decidable_of_iff ((x.1.procs p).all (fun pr =>
      ((x.1.ctx pr).page cl).all (fun g => x.2 (p, g) = none ∧ VictimAt (x.1.ctx pr) g)) = true)
      (by simp [SwapSafe, Option.all_eq_true])
  | .load _ _ _ _ => inferInstanceAs (Decidable True)
  | .release _ => inferInstanceAs (Decidable True)

end decidable

/-- A page is allocated and written; an access of the next page then replaces it. -/
def replaceSample : List Event :=
  [loadBlank 0, .call 0 (.alloc 256 1) 0 none, .call 0 (.write 5 1 7) 0 none,
    .call 0 (.read 1 256 0) 0 (some 0)]

theorem run_replace22 : ∃ s E pr r c r' c',
    ((@swapLts header22).restrict fun x e => @SwapSafe header22 x e ∧ Cleared e).Run
      (boot22, fun _ => none) replaceSample (s, E) ∧ s.procs 0 = some pr ∧
    @pgGetpage header22 (s.ctx pr) 0 = .ok (r, c) ∧ E (0, 0) ≠ none ∧
    @pgGetpage header22 (s.ctx pr) 1 = .ok (r', c') ∧ E (0, 1) = none ∧
    @pagingPagePresent header22 (pr.mm.pgd 0) = true ∧
    @pagingPagePresent header22 (pr.mm.pgd 1) = true := by
  let := header22
  have hsome : (Lts.replay (Lts.guarded (Lts.nextGhost Sys.next nextEvicted) SwapSafe)
      (boot22, fun _ => none) replaceSample).any (fun x => (x.1.procs 0).any fun pr =>
        (pgGetpage (x.1.ctx pr) 0).isOk ∧ (x.2 (0, 0)).isSome ∧
        (pgGetpage (x.1.ctx pr) 1).isOk ∧ (x.2 (0, 1)).isNone ∧
        pagingPagePresent (pr.mm.pgd 0) = true ∧ pagingPagePresent (pr.mm.pgd 1) = true) =
      true := by decide +kernel
  obtain ⟨⟨s, E⟩, hs, hx⟩ := (Option.any_eq_true _ _).mp hsome
  obtain ⟨pr, hp, hx⟩ := (Option.any_eq_true _ _).mp hx
  obtain ⟨h₀, hE₀, h₁, hE₁, hpres⟩ := of_decide_eq_true hx
  have hrun : (swapLts.restrict SwapSafe).Run (boot22, fun _ => none) replaceSample (s, E) :=
    Lts.Run.of_replay_guarded (Lts.withGhost_of_nextGhost fun _ _ _ => memStep_of_next) hs
  rcases hg₀ : pgGetpage (s.ctx pr) 0 with _ | ⟨r, c⟩
  · rw [hg₀] at h₀
    cases h₀
  rcases hg₁ : pgGetpage (s.ctx pr) 1 with _ | ⟨r', c'⟩
  · rw [hg₁] at h₁
    cases h₁
  exact ⟨s, E, pr, r, c, r', c', hrun.restrict_and (by simp [replaceSample, loadBlank, Cleared]),
    hp, hg₀, Option.isSome_iff_ne_none.mp hE₀, hg₁, Option.isNone_iff_eq_none.mp hE₁, hpres⟩

theorem swapKept_sample : ∃ s E pr r c, (@swapLts header22).Run (boot22, fun _ => none)
    replaceSample (s, E) ∧ s.procs 0 = some pr ∧
      @pgGetpage header22 (s.ctx pr) 1 = .ok (r, c) ∧ @SwapKept header22 s E 0 1 pr r c := by
  let := header22
  let := header22_pteLaws
  obtain ⟨s, E, pr, _, _, r, c, hrun, hp, _, _, hget, hE, _, hpres⟩ := run_replace22
  have hvic : VictimAt (s.ctx pr) 1 := by
    intro hnot
    rw [show (s.ctx pr).mm = pr.mm from rfl, hpres] at hnot
    cases hnot
  exact ⟨s, E, pr, r, c, hrun.of_restrict, hp, hget,
    (swapKept_iff (by decide) (by decide) booted_boot22 hrun hp hvic hget).mpr hE⟩

theorem not_swapKept_sample : ∃ s E pr r c, (@swapLts header22).Run (boot22, fun _ => none)
    replaceSample (s, E) ∧ s.procs 0 = some pr ∧
      @pgGetpage header22 (s.ctx pr) 0 = .ok (r, c) ∧ ¬ @SwapKept header22 s E 0 0 pr r c := by
  let := header22
  obtain ⟨s, E, pr, r, c, _, _, hrun, hp, hget, hE, _, _, hpres, _⟩ := run_replace22
  refine ⟨s, E, pr, r, c, hrun.of_restrict, hp, hget, fun hkept => ?_⟩
  obtain ⟨⟨swpfpn, bytes⟩, hb⟩ := Option.ne_none_iff_exists'.mp hE
  rw [(hkept.reloaded swpfpn bytes hb).1] at hpres
  cases hpres

end BtlOs
