import BtlOs.System
import Mathlib.Algebra.Order.BigOperators.Group.Finset

/-! # The release of a process's frames (`free_pcb_memph`)

`free_pcb_memph` walks the page table and gives one number a page to a free list.  It tests
`PRESENT` the wrong way round: a page that was never mapped gives a frame 0 to the RAM, and a
page in RAM gives what its entry has in the `SWPOFF` field to the swap device.  Only a table whose
pages are all swapped out is released as it should be (`gives_back_iff`). -/

namespace BtlOs

open CLang BitField Header

section

variable [Header]

/-! ### The loop -/

/-- The body of the loop.  The fields have fewer than 32 bits, so that `fpn` is the field. -/
def freePage (c : Ctx) (pagenum : ℕ) : Exec Ctx := do
  let pte ← c.mm.pgdGet pagenum
  if !pagingPagePresent pte then
    let fpn := pagingPteFpn pte
    .ok { c with dev := { c.dev with mram := c.dev.mram.putFreefp fpn } }
  else
    let fpn := pagingPteSwp pte
    .ok { c with dev := { c.dev with mswp := c.dev.mswp.putFreefp fpn } }

/-- The loop over `n` pages from `pagenum` on. -/
def freePages : ℕ → ℕ → Ctx → Exec Ctx
  | _, 0, c => .ok c
  | pagenum, n + 1, c => do
      let c ← freePage c pagenum
      freePages (pagenum + 1) n c

/-- `free_pcb_memph`. -/
def freePcbMemph (c : Ctx) : Exec (ℤ × Ctx) := do
  let c ← freePages 0 pagingMaxPgn c
  .ok (0, c)

/-! ### Tables that are built from zero -/

/-- A call of `pte_set_fpn` or `pte_set_swap` on an entry of the table. -/
inductive PteWrite where
  | setFpn (pgn fpn : ℕ)
  | setSwap (pgn : ℕ) (swptyp : ℤ) (swpoff : ℕ)

/-- Where a page is. -/
inductive Place where
  | frame (fpn : ℕ)
  | swap (swpoff : ℕ)
deriving DecidableEq

namespace Place

def fpn : Place → Option ℕ
  | frame fpn => some fpn
  | swap _ => none

def swpoff : Place → Option ℕ
  | frame _ => none
  | swap swpoff => some swpoff

end Place

namespace PteWrite

def pgn : PteWrite → ℕ
  | setFpn pgn _ => pgn
  | setSwap pgn _ _ => pgn

/-- The entry after the call. -/
def entry (pte : Pte) : PteWrite → Pte
  | setFpn _ fpn => pteSetFpn pte fpn
  | setSwap _ swptyp swpoff => pteSetSwap pte swptyp swpoff

def place : PteWrite → Place
  | setFpn _ fpn => .frame fpn
  | setSwap _ _ swpoff => .swap swpoff

end PteWrite

/-- The page table that the calls build over an all-zero table. -/
def builtTable (ws : List PteWrite) : ℕ → Pte :=
  ws.foldl (fun pgd w => Function.update pgd w.pgn (w.entry (pgd w.pgn))) fun _ => 0

/-- Where the last call for a page put it; `none` for a page that was never mapped. -/
def lastPlace (ws : List PteWrite) : ℕ → Option Place :=
  ws.foldl (fun places w => Function.update places w.pgn (some w.place)) fun _ => none

/-- The frame numbers of the pages last set by `pte_set_fpn`, one a page. -/
def frameNumbers (ws : List PteWrite) : List ℕ :=
  (List.range pagingMaxPgn).filterMap fun g => (lastPlace ws g).bind Place.fpn

/-- The swap offsets of the pages last set by `pte_set_swap`, one a page. -/
def swapOffsets (ws : List PteWrite) : List ℕ :=
  (List.range pagingMaxPgn).filterMap fun g => (lastPlace ws g).bind Place.swpoff

/-- The frames are back in the two pools. -/
structure GivenBack (ws : List PteWrite) (c c' : Ctx) : Prop where
  ram : ∃ added, added.Perm (frameNumbers ws) ∧
    c'.dev.mram.freeFpList = added ++ c.dev.mram.freeFpList
  swp : ∃ added, added.Perm (swapOffsets ws) ∧
    c'.dev.mswp.freeFpList = added ++ c.dev.mswp.freeFpList
  ramNodup : (frameNumbers ws ++ c.dev.mram.freeFpList).Nodup → c'.dev.mram.freeFpList.Nodup
  swpNodup : (swapOffsets ws ++ c.dev.mswp.freeFpList).Nodup → c'.dev.mswp.freeFpList.Nodup

/-- **The release.**  `free_pcb_memph` returns and the frames are back in the two pools. -/
def GivesBack (ws : List PteWrite) (c : Ctx) : Prop :=
  ∃ c', freePcbMemph c = .ok (0, c') ∧ GivenBack ws c c'

/-- Every page of the table is swapped out, at an offset that the field holds. -/
def AllSwapped (ws : List PteWrite) : Prop :=
  ∀ g < pagingMaxPgn, ∃ swpoff < 2 ^ (pteSwpoffHibit + 1 - pteSwpoffLobit),
    lastPlace ws g = some (.swap swpoff)

/-! ### What the loop adds -/

/-- What the entry gives to the RAM. -/
def ramGift (pte : Pte) : Option ℕ :=
  if pagingPagePresent pte then none else some (pagingPteFpn pte)

/-- What the entry gives to the swap device. -/
def swpGift (pte : Pte) : Option ℕ :=
  if pagingPagePresent pte then some (pagingPteSwp pte) else none

/-- The free lists after the numbers `ram` and `swp` were put in this order. -/
def Ctx.withFreed (c : Ctx) (ram swp : List ℕ) : Ctx :=
  { c with dev :=
    ⟨{ c.dev.mram with freeFpList := ram.reverse ++ c.dev.mram.freeFpList },
      { c.dev.mswp with freeFpList := swp.reverse ++ c.dev.mswp.freeFpList }⟩ }

variable {c c' : Ctx} {ws : List PteWrite}

theorem freePage_eq {g : ℕ} (hg : g < pagingMaxPgn) : freePage c g =
    .ok (c.withFreed (ramGift (c.mm.pgd g)).toList (swpGift (c.mm.pgd g)).toList) := by
  unfold freePage ramGift swpGift
  rw [Mm.pgdGet_eq_ok.mpr ⟨hg, rfl⟩, ok_bind]
  cases pagingPagePresent (c.mm.pgd g) <;> rfl

omit [Header] in
theorem Ctx.withFreed_withFreed (ram swp ram' swp' : List ℕ) :
    (c.withFreed ram swp).withFreed ram' swp' = c.withFreed (ram ++ ram') (swp ++ swp') := by
  simp [withFreed]

theorem freePages_eq {g n : ℕ} (hn : g + n ≤ pagingMaxPgn) : freePages g n c =
    .ok (c.withFreed ((List.range' g n).filterMap fun g => ramGift (c.mm.pgd g))
      ((List.range' g n).filterMap fun g => swpGift (c.mm.pgd g))) := by
  induction n generalizing g c with
  | zero => rfl
  | succ n ih =>
      rw [freePages, freePage_eq (by omega), ok_bind, ih (by omega), Ctx.withFreed_withFreed,
        List.range'_succ, List.filterMap_cons, List.filterMap_cons]
      unfold ramGift swpGift
      cases pagingPagePresent (c.mm.pgd g) <;> rfl

theorem freePcbMemph_eq : freePcbMemph c =
    .ok (0, c.withFreed ((List.range pagingMaxPgn).filterMap fun g => ramGift (c.mm.pgd g))
      ((List.range pagingMaxPgn).filterMap fun g => swpGift (c.mm.pgd g))) := by
  unfold freePcbMemph
  rw [freePages_eq (Nat.zero_add _).le, ok_bind, ← List.range_eq_range']

/-! ### The entries of a built table -/

/-- The entry of a page that is at this place. -/
def Entry (place : Option Place) (pte : Pte) : Prop :=
  match place with
  | none => pte = 0
  | some (.frame fpn) =>
      pagingPagePresent pte = true ∧ pagingPteFpn pte = fpn % 2 ^ (pteFpnHibit + 1 - pteFpnLobit)
  | some (.swap swpoff) => pagingPagePresent pte = true ∧
      pagingPteSwp pte = swpoff % 2 ^ (pteSwpoffHibit + 1 - pteSwpoffLobit)

theorem builtTable_concat (w : PteWrite) : builtTable (ws ++ [w]) =
    Function.update (builtTable ws) w.pgn (w.entry (builtTable ws w.pgn)) := by
  simp [builtTable]

omit [Header] in
theorem lastPlace_concat (w : PteWrite) :
    lastPlace (ws ++ [w]) = Function.update (lastPlace ws) w.pgn (some w.place) := by
  simp [lastPlace]

variable [PteLaws]

theorem PteWrite.entry_place (w : PteWrite) (pte : Pte) : Entry (some w.place) (w.entry pte) := by
  cases w with
  | setFpn g fpn => exact ⟨present_pteSetFpn pte fpn, pagingPteFpn_pteSetFpn_mod pte fpn⟩
  | setSwap g t o => exact ⟨present_pteSetSwap pte t o, getval_setval_mod PteLaws.swpoff_hibit⟩

theorem entry_builtTable (ws : List PteWrite) (g : ℕ) :
    Entry (lastPlace ws g) (builtTable ws g) := by
  induction ws using List.reverseRecOn with
  | nil => rfl
  | append_singleton ws w ih =>
      rw [builtTable_concat, lastPlace_concat]
      by_cases hg : g = w.pgn
      · subst hg
        rw [Function.update_self, Function.update_self]
        exact w.entry_place _
      · rwa [Function.update_of_ne hg, Function.update_of_ne hg]

/-- A page is `PRESENT` from its first mapping on, also while it is swapped out. -/
theorem present_builtTable (ws : List PteWrite) (g : ℕ) :
    pagingPagePresent (builtTable ws g) = (lastPlace ws g).isSome := by
  have h := entry_builtTable ws g
  cases hp : lastPlace ws g with
  | none =>
      rw [hp] at h
      rw [show builtTable ws g = 0 from h]
      exact present_zero
  | some place =>
      rw [hp] at h
      cases place with
      | frame fpn => exact h.1
      | swap swpoff => exact h.1

/-! ### The pools after the release -/

omit [Header] [PteLaws] in
theorem isSome_of_length_filterMap {α β : Type} {l : List α} {f g : α → Option β}
    (hle : ∀ a, (f a).isSome → (g a).isSome)
    (hlen : (l.filterMap g).length = (l.filterMap f).length) {a : α} (ha : a ∈ l)
    (hg : (g a).isSome) : (f a).isSome := by
  rw [List.length_filterMap_eq_countP, List.length_filterMap_eq_countP,
    List.countP_eq_length_filter, List.countP_eq_length_filter] at hlen
  have hsub : (l.filter fun a => (f a).isSome).Sublist (l.filter fun a => (g a).isSome) :=
    List.monotone_filter_right l hle
  have hmem : a ∈ l.filter fun a => (g a).isSome := List.mem_filter.mpr ⟨ha, hg⟩
  rw [← hsub.eq_of_length hlen.symm] at hmem
  exact (List.mem_filter.mp hmem).2

theorem filterMap_gifts (hpgd : c.mm.pgd = builtTable ws) {swpoff : ℕ → ℕ}
    (h : ∀ g < pagingMaxPgn, lastPlace ws g = some (.swap (swpoff g))) :
    ((List.range pagingMaxPgn).filterMap fun g => ramGift (c.mm.pgd g)) = [] ∧
    ((List.range pagingMaxPgn).filterMap fun g => swpGift (c.mm.pgd g)) =
      (List.range pagingMaxPgn).map fun g =>
        swpoff g % 2 ^ (pteSwpoffHibit + 1 - pteSwpoffLobit) := by
  have hentry : ∀ g ∈ List.range pagingMaxPgn, Entry (some (.swap (swpoff g))) (c.mm.pgd g) := by
    intro g hg
    rw [hpgd, ← h g (List.mem_range.mp hg)]
    exact entry_builtTable ws g
  constructor
  · apply List.filterMap_eq_nil_iff.mpr
    intro g hg
    rw [ramGift, if_pos (hentry g hg).1]
  · rw [← List.filterMap_eq_map]
    apply List.filterMap_congr
    intro g hg
    rw [swpGift, if_pos (hentry g hg).1, (hentry g hg).2]
    rfl

omit [PteLaws] in
theorem numbers_of_swapped {swpoff : ℕ → ℕ}
    (h : ∀ g < pagingMaxPgn, lastPlace ws g = some (.swap (swpoff g))) :
    frameNumbers ws = [] ∧ swapOffsets ws = (List.range pagingMaxPgn).map swpoff := by
  constructor
  · apply List.filterMap_eq_nil_iff.mpr
    intro g hg
    rw [h g (List.mem_range.mp hg)]
    rfl
  · unfold swapOffsets
    rw [← List.filterMap_eq_map]
    apply List.filterMap_congr
    intro g hg
    rw [h g (List.mem_range.mp hg)]
    rfl

omit [Header] [PteLaws] in
theorem added_perm {gifts numbers free free' : List ℕ} (h : free' = gifts.reverse ++ free)
    (hadded : ∃ added, added.Perm numbers ∧ free' = added ++ free) : gifts.Perm numbers := by
  obtain ⟨added, hperm, he⟩ := hadded
  rw [← List.append_cancel_right (h.symm.trans he)] at hperm
  exact (List.reverse_perm gifts).symm.trans hperm

theorem GivenBack.allSwapped (hpgd : c.mm.pgd = builtTable ws)
    (hfree : freePcbMemph c = .ok (0, c')) (h : GivenBack ws c c') : AllSwapped ws := by
  obtain ⟨_, rfl⟩ := Prod.mk.inj (Except.ok.inj (freePcbMemph_eq.symm.trans hfree))
  have hram := added_perm rfl h.ram
  have hswp := added_perm rfl h.swp
  have hpres : ∀ g, pagingPagePresent (c.mm.pgd g) = (lastPlace ws g).isSome := fun g => by
    rw [hpgd, present_builtTable]
  -- a page that gives a number to the swap device is swapped out
  have hswapped : ∀ g < pagingMaxPgn, (lastPlace ws g).isSome →
      ((lastPlace ws g).bind Place.swpoff).isSome := by
    intro g hg hsome
    refine isSome_of_length_filterMap (g := fun g => swpGift (c.mm.pgd g)) ?_ hswp.length_eq
      (List.mem_range.mpr hg) ?_
    · intro g hs
      rw [swpGift, hpres g]
      cases hp : lastPlace ws g <;> simp_all
    · rw [swpGift, hpres g, if_pos hsome]
      rfl
  -- so no page is in RAM, and no page gives a number to the RAM
  have hnone : frameNumbers ws = [] := by
    apply List.filterMap_eq_nil_iff.mpr
    intro g hg
    have hs := hswapped g (List.mem_range.mp hg)
    cases hp : lastPlace ws g with
    | none => rfl
    | some place =>
        rw [hp] at hs
        cases place with
        | frame fpn => cases hs rfl
        | swap swpoff => rfl
  rw [hnone] at hram
  have hplace : ∀ g, ∃ swpoff, g < pagingMaxPgn → lastPlace ws g = some (.swap swpoff) := by
    intro g
    by_cases hg : g < pagingMaxPgn
    · have hgift := List.filterMap_eq_nil_iff.mp hram.eq_nil g (List.mem_range.mpr hg)
      rw [ramGift, hpres g] at hgift
      cases hp : lastPlace ws g with
      | none => simp [hp] at hgift
      | some place =>
          have hs := hswapped g hg (by rw [hp]; rfl)
          rw [hp] at hs
          cases place with
          | frame fpn => cases hs
          | swap swpoff => exact ⟨swpoff, fun _ => rfl⟩
    · exact ⟨0, fun h => absurd h hg⟩
  choose swpoff hplace using hplace
  intro g hg
  refine ⟨swpoff g, ?_, hplace g hg⟩
  -- an offset that is cut off makes the sum of all offsets smaller
  rw [(filterMap_gifts hpgd hplace).2, (numbers_of_swapped hplace).2] at hswp
  by_contra hge
  refine absurd hswp.sum_eq (ne_of_lt ?_)
  refine List.sum_lt_sum _ _ (fun g _ => Nat.mod_le _ _) ⟨g, List.mem_range.mpr hg, ?_⟩
  exact lt_of_lt_of_le (Nat.mod_lt _ (Nat.two_pow_pos _)) (Nat.le_of_not_lt hge)

/-- **When the frames are given back.**  They are exactly where every page of the table is swapped
out at an offset that the field holds. -/
theorem gives_back_iff (ws : List PteWrite) (c : Ctx) (hpgd : c.mm.pgd = builtTable ws) :
    GivesBack ws c ↔ AllSwapped ws := by
  constructor
  · rintro ⟨c', hfree, h⟩
    exact h.allSwapped hpgd hfree
  · intro h
    choose! swpoff hlt hplace using h
    obtain ⟨hram, hswp⟩ := filterMap_gifts hpgd hplace
    obtain ⟨hframes, hoffsets⟩ := numbers_of_swapped hplace
    have hmod : ((List.range pagingMaxPgn).map fun g =>
        swpoff g % 2 ^ (pteSwpoffHibit + 1 - pteSwpoffLobit)) = swapOffsets ws := by
      rw [hoffsets]
      exact List.map_congr_left fun g hg => Nat.mod_eq_of_lt (hlt g (List.mem_range.mp hg))
    refine ⟨_, freePcbMemph_eq, ?_⟩
    rw [hram, hswp, hmod]
    have hperm := List.reverse_perm (swapOffsets ws)
    refine ⟨⟨[], by rw [hframes], rfl⟩, ⟨_, hperm, rfl⟩, fun hn => ?_, fun hn => ?_⟩
    · rwa [hframes] at hn
    · exact ((hperm.append_right _).nodup_iff).mpr hn

end

/-! ### Tables of a small machine -/

/-- A process with this table; the RAM frame 0 and no swap frame is taken. -/
def tableCtx (ws : List PteWrite) : Ctx :=
  ⟨{ initMm blankMm fun _ => 0 with pgd := @builtTable header22 ws },
    ⟨{ boot22.dev.mram with freeFpList := [1] }, boot22.dev.mswp⟩, 0, false⟩

theorem lastPlace_swapRange (n : ℕ) {g : ℕ} (hg : g < n) :
    lastPlace ((List.range n).map fun g => .setSwap g 0 g) g = some (.swap g) := by
  induction n with
  | zero => exact absurd hg (Nat.not_lt_zero g)
  | succ n ih =>
      rw [List.range_succ, List.map_append, List.map_singleton, lastPlace_concat]
      by_cases he : g = n
      · subst he
        exact Function.update_self _ _ _
      · rw [Function.update_of_ne (show g ≠ (PteWrite.setSwap n 0 n).pgn from he)]
        exact ih (by omega)

theorem gives_back_iff_sample : @GivesBack header22
    ((List.range 16384).map fun g => .setSwap g 0 g)
    (tableCtx ((List.range 16384).map fun g => .setSwap g 0 g)) := by
  let := header22
  let := header22_pteLaws
  refine (gives_back_iff _ (tableCtx _) rfl).mpr fun g hg => ⟨g, ?_, lastPlace_swapRange _ hg⟩
  exact lt_trans hg (show 16384 < 2 ^ (25 + 1 - 5) by decide)

/-- One page is in RAM: the swap device is given the frame 0, which is in its list already. -/
theorem not_given_back : ∃ c',
    @freePcbMemph header22 (tableCtx [.setFpn 0 0]) = .ok (0, c') ∧
    (tableCtx [.setFpn 0 0]).dev.mswp.freeFpList.Nodup ∧ ¬ c'.dev.mswp.freeFpList.Nodup ∧
      ¬ @GivesBack header22 [.setFpn 0 0] (tableCtx [.setFpn 0 0]) := by
  let := header22
  let := header22_pteLaws
  refine ⟨_, freePcbMemph_eq, by decide, fun hnodup => ?_, ?_⟩
  · have hgift : 0 ∈ (List.range pagingMaxPgn).filterMap fun g =>
        swpGift ((tableCtx [.setFpn 0 0]).mm.pgd g) :=
      List.mem_filterMap.mpr ⟨0, List.mem_range.mpr (by decide), by decide⟩
    have hdisj := (List.nodup_append'.mp hnodup).2.2
    exact hdisj (List.mem_reverse.mpr hgift) (show 0 ∈ boot22.dev.mswp.freeFpList by decide)
  · rintro ⟨c', hfree, h⟩
    obtain ⟨swpoff, _, hplace⟩ := h.allSwapped rfl hfree 0 (by decide)
    exact absurd hplace (by simp [lastPlace, PteWrite.pgn, PteWrite.place])

end BtlOs
