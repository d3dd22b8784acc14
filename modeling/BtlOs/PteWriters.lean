import BtlOs.Pte
import BtlOs.Memphy

/-! # The writers of page-table entries (`mm.c`)

`init_pte` writes the entry of an on-line page or of a swapped one, as `pte_set_fpn` and
`pte_set_swap` do, and clears `DIRTY`.  Unlike them it refuses the frame number 0, which is the
first one that `MEMPHY_get_freefp` hands out.

A call is described by the value that it writes: `Shows` is what a reader then decodes, and
`SameFields` compares two writers. -/

namespace BtlOs

open CLang BitField Header

/-- `PAGING_PTE_DIRTY_MASK`. -/
class DirtyHeader where
  pteDirtyMask : Pte

open DirtyHeader

/-- `DIRTY` is a flag of its own. -/
class DirtyLaws [Header] [DirtyHeader] : Prop where
  dirty_present : Disjoint pteDirtyMask ptePresentMask
  dirty_swapped : Disjoint pteDirtyMask pteSwappedMask

variable [Header]

/-- The `SWPTYP` field of an entry. -/
def pagingPteSwptyp (pte : Pte) : ℕ := (getval pte pteSwptypMask pteSwptypLobit).toNat

/-- What an entry says about its page. -/
inductive PteValue where
  | online (fpn : ℕ)
  | swapped (swptyp swpoff : ℕ)
deriving DecidableEq

/-- The decoded values. -/
def Shows (pte : Pte) : PteValue → Prop
  | .online fpn => pagingPagePresent pte = true ∧ pagingPageSwapped pte = false ∧
      pagingPteFpn pte = fpn
  | .swapped swptyp swpoff => pagingPagePresent pte = true ∧ pagingPageSwapped pte = true ∧
      pagingPteSwptyp pte = swptyp ∧ pagingPteSwp pte = swpoff

/-- The flags and the fields of the value are the same in both entries. -/
def SameFields (pte pte' : Pte) (v : PteValue) : Prop :=
  pagingPagePresent pte = pagingPagePresent pte' ∧
  pagingPageSwapped pte = pagingPageSwapped pte' ∧
  match v with
  | .online _ => pagingPteFpn pte = pagingPteFpn pte'
  | .swapped _ _ => pagingPteSwptyp pte = pagingPteSwptyp pte' ∧
      pagingPteSwp pte = pagingPteSwp pte'

namespace PteValue

/-- The value fits its fields. -/
def Fits : PteValue → Prop
  | .online fpn => fpn < 2 ^ (pteFpnHibit + 1 - pteFpnLobit)
  | .swapped swptyp swpoff => swptyp < 2 ^ (pteSwptypHibit + 1 - pteSwptypLobit) ∧
      swpoff < 2 ^ (pteSwpoffHibit + 1 - pteSwpoffLobit)

instance (v : PteValue) : Decidable v.Fits :=
  match v with
  | .online _ => inferInstanceAs (Decidable (_ < _))
  | .swapped _ _ => inferInstanceAs (Decidable (_ ∧ _))

/-- `pte_set_fpn` or `pte_set_swap`. -/
def set (pte : Pte) : PteValue → Pte
  | .online fpn => pteSetFpn pte fpn
  | .swapped swptyp swpoff => pteSetSwap pte swptyp swpoff

end PteValue

theorem Shows.sameFields {pte pte' : Pte} {v : PteValue} (h : Shows pte v) (h' : Shows pte' v) :
    SameFields pte pte' v := by
  cases v with
  | online _ => exact ⟨h.1.trans h'.1.symm, h.2.1.trans h'.2.1.symm, h.2.2.trans h'.2.2.symm⟩
  | swapped _ _ =>
      exact ⟨h.1.trans h'.1.symm, h.2.1.trans h'.2.1.symm, h.2.2.1.trans h'.2.2.1.symm,
        h.2.2.2.trans h'.2.2.2.symm⟩

section

variable [DirtyHeader]

/-- `init_pte`: the status and the entry; `drt` is not looked at. -/
def initPte (pte : Pte) (pre fpn _drt swp swptyp swpoff : ℤ) : ℤ × Pte :=
  if pre ≠ 0 then
    if swp = 0 then
      if fpn = 0 then (-1, pte)
      else
        let pte := setbit pte ptePresentMask
        let pte := clrbit pte pteSwappedMask
        let pte := clrbit pte pteDirtyMask
        (0, setval pte (BitVec.ofInt 32 fpn) pteFpnMask pteFpnLobit)
    else
      let pte := setbit pte ptePresentMask
      let pte := setbit pte pteSwappedMask
      let pte := clrbit pte pteDirtyMask
      let pte := setval pte (BitVec.ofInt 32 swptyp) pteSwptypMask pteSwptypLobit
      (0, setval pte (BitVec.ofInt 32 swpoff) pteSwpoffMask pteSwpoffLobit)
  else (0, pte)

/-- The calls of the writers.  `init_pte` gets all its arguments: those that it looks at only in
the other case are arbitrary. -/
inductive PteCall where
  | initFpn (pre drt swptyp swpoff : ℤ) (fpn : ℕ)
  | initSwap (pre fpn drt swp : ℤ) (swptyp swpoff : ℕ)
  | setFpn (fpn : ℕ)
  | setSwap (swptyp swpoff : ℕ)

namespace PteCall

def value : PteCall → PteValue
  | .initFpn _ _ _ _ fpn => .online fpn
  | .initSwap _ _ _ _ swptyp swpoff => .swapped swptyp swpoff
  | .setFpn fpn => .online fpn
  | .setSwap swptyp swpoff => .swapped swptyp swpoff

/-- The status and the entry after a call. -/
def apply (pte : Pte) : PteCall → ℤ × Pte
  | .initFpn pre drt swptyp swpoff fpn => initPte pte pre fpn drt 0 swptyp swpoff
  | .initSwap pre fpn drt swp swptyp swpoff => initPte pte pre fpn drt swp swptyp swpoff
  | .setFpn fpn => (0, pteSetFpn pte fpn)
  | .setSwap swptyp swpoff => (0, pteSetSwap pte swptyp swpoff)

/-- `pre != 0`, and `swp != 0` for a swapped page; the value fits. -/
def Valid (c : PteCall) : Prop :=
  c.value.Fits ∧ match c with
  | .initFpn pre _ _ _ _ => pre ≠ 0
  | .initSwap pre _ _ swp _ _ => pre ≠ 0 ∧ swp ≠ 0
  | _ => True

/-- `init_pte` with the frame number 0. -/
def Refused : PteCall → Prop
  | .initFpn _ _ _ _ fpn => fpn = 0
  | _ => False

instance (c : PteCall) : Decidable c.Refused :=
  match c with
  | .initFpn _ _ _ _ fpn => inferInstanceAs (Decidable (fpn = 0))
  | .initSwap .. => inferInstanceAs (Decidable False)
  | .setFpn _ => inferInstanceAs (Decidable False)
  | .setSwap _ _ => inferInstanceAs (Decidable False)

/-- The call succeeds, its fields are those that the other writer gives the same entry, and they
decode to its arguments. -/
structure Agrees (c : PteCall) (pte : Pte) : Prop where
  succeeds : (c.apply pte).1 = 0
  same : SameFields (c.apply pte).2 (c.value.set pte) c.value
  shows : Shows (c.apply pte).2 c.value

end PteCall

/-- The entry after a sequence of calls. -/
def writeAll (pte : Pte) (calls : List PteCall) : Pte :=
  calls.foldl (fun pte c => (c.apply pte).2) pte

/-! ### What the writers show -/

section

variable [PteLaws]

open PteLaws

omit [DirtyHeader] in
theorem shows_setval_fpn {pte : Pte} {fpn : ℕ} (hfits : (PteValue.online fpn).Fits)
    (hpresent : pagingPagePresent pte = true) (hswapped : pagingPageSwapped pte = false) :
    Shows (setval pte (BitVec.ofNat 32 fpn) pteFpnMask pteFpnLobit) (.online fpn) := by
  refine ⟨?_, ?_, getval_setval fpn_hibit hfits⟩
  · simp [hpresent]
  · simp [hswapped]

omit [DirtyHeader] in
theorem shows_setval_swp (pte : Pte) {swptyp swpoff : ℕ}
    (hfits : (PteValue.swapped swptyp swpoff).Fits) (hpresent : pagingPagePresent pte = true)
    (hswapped : pagingPageSwapped pte = true) :
    Shows (setval (setval pte (BitVec.ofNat 32 swptyp) pteSwptypMask pteSwptypLobit)
      (BitVec.ofNat 32 swpoff) pteSwpoffMask pteSwpoffLobit) (.swapped swptyp swpoff) := by
  refine ⟨?_, ?_, ?_, getval_setval swpoff_hibit hfits.2⟩
  · simp [hpresent]
  · simp [hswapped]
  · unfold pagingPteSwptyp
    rw [getval_setval_of_disjoint swptyp_swpoff.symm]
    exact getval_setval swptyp_hibit hfits.1

omit [DirtyHeader] in
theorem PteValue.shows_set {v : PteValue} (hfits : v.Fits) (pte : Pte) : Shows (v.set pte) v := by
  cases v with
  | online fpn => exact shows_setval_fpn hfits (by simp) (by simp)
  | swapped swptyp swpoff =>
      have h := shows_setval_swp (setbit (setbit pte ptePresentMask) pteSwappedMask) hfits
        (by simp) (by simp)
      rw [← BitVec.ofInt_natCast 32 swptyp] at h
      exact h

variable [DirtyLaws]

open DirtyLaws

omit [PteLaws] in
@[simp] theorem present_clrbit_dirty (pte : Pte) :
    pagingPagePresent (clrbit pte pteDirtyMask) = pagingPagePresent pte :=
  testbit_congr (clrbit_and_of_disjoint dirty_present)

omit [PteLaws] in
@[simp] theorem swapped_clrbit_dirty (pte : Pte) :
    pagingPageSwapped (clrbit pte pteDirtyMask) = pagingPageSwapped pte :=
  testbit_congr (clrbit_and_of_disjoint dirty_swapped)

theorem shows_initPte_fpn {pre : ℤ} {fpn : ℕ} (hfits : (PteValue.online fpn).Fits)
    (hpre : pre ≠ 0) (hfpn : fpn ≠ 0) (pte : Pte) (drt swptyp swpoff : ℤ) :
    (initPte pte pre fpn drt 0 swptyp swpoff).1 = 0 ∧
      Shows (initPte pte pre fpn drt 0 swptyp swpoff).2 (.online fpn) := by
  have hfpn' : (fpn : ℤ) ≠ 0 := Int.natCast_ne_zero.mpr hfpn
  unfold initPte
  rw [if_pos hpre, if_pos rfl, if_neg hfpn', BitVec.ofInt_natCast]
  exact ⟨rfl, shows_setval_fpn hfits (by simp) (by simp)⟩

theorem shows_initPte_swp {pre swp : ℤ} {swptyp swpoff : ℕ}
    (hfits : (PteValue.swapped swptyp swpoff).Fits) (hpre : pre ≠ 0) (hswp : swp ≠ 0) (pte : Pte)
    (fpn drt : ℤ) : (initPte pte pre fpn drt swp swptyp swpoff).1 = 0 ∧
      Shows (initPte pte pre fpn drt swp swptyp swpoff).2 (.swapped swptyp swpoff) := by
  unfold initPte
  rw [if_pos hpre, if_neg hswp, BitVec.ofInt_natCast, BitVec.ofInt_natCast]
  exact ⟨rfl, shows_setval_swp _ hfits (by simp) (by simp)⟩

omit [PteLaws] [DirtyLaws] in
/-- The frame number 0 is refused, whatever the entry is. -/
theorem initPte_zero {pre : ℤ} (hpre : pre ≠ 0) (pte : Pte) (drt swptyp swpoff : ℤ) :
    initPte pte pre 0 drt 0 swptyp swpoff = (-1, pte) := by
  unfold initPte
  rw [if_pos hpre, if_pos rfl, if_pos rfl]

namespace PteCall

theorem agrees_iff {c : PteCall} (hc : c.Valid) (pte : Pte) : c.Agrees pte ↔ ¬ c.Refused := by
  obtain ⟨hfits, hcase⟩ := hc
  constructor
  · intro h hrefused
    cases c with
    | initFpn pre drt swptyp swpoff fpn =>
        obtain rfl : fpn = 0 := hrefused
        have hst : (initPte pte pre (0 : ℕ) drt 0 swptyp swpoff).1 = 0 := h.succeeds
        rw [Nat.cast_zero, initPte_zero hcase] at hst
        cases hst
    | initSwap => exact hrefused
    | setFpn => exact hrefused
    | setSwap => exact hrefused
  · intro hne
    have hshows : (c.apply pte).1 = 0 ∧ Shows (c.apply pte).2 c.value := by
      cases c with
      | initFpn pre drt swptyp swpoff fpn => exact shows_initPte_fpn hfits hcase hne pte drt _ _
      | initSwap pre fpn drt swp swptyp swpoff =>
          exact shows_initPte_swp hfits hcase.1 hcase.2 pte fpn drt
      | setFpn fpn => exact ⟨rfl, PteValue.shows_set hfits pte⟩
      | setSwap swptyp swpoff => exact ⟨rfl, PteValue.shows_set hfits pte⟩
    exact ⟨hshows.1, hshows.2.sameFields (PteValue.shows_set hfits pte), hshows.2⟩

end PteCall

/-- **When the writers agree**: in a sequence of calls every one succeeds and writes the fields
that its sibling writes exactly where none of them is `init_pte` with the frame number 0; and the
decoded values are those of the last call, if this one is not refused. -/
theorem pte_writers_agree_iff {calls : List PteCall} (h : ∀ c ∈ calls, c.Valid) (pte : Pte) :
    ((∀ l c r, calls = l ++ c :: r → c.Agrees (writeAll pte l)) ↔ ∀ c ∈ calls, ¬ c.Refused) ∧
    ∀ l c, calls = l ++ [c] → ¬ c.Refused → Shows (writeAll pte calls) c.value := by
  refine ⟨⟨fun hall c hc => ?_, fun hne l c r hcalls => ?_⟩, fun l c hcalls hne => ?_⟩
  · obtain ⟨l, r, hcalls⟩ := List.append_of_mem hc
    exact (PteCall.agrees_iff (h c hc) _).mp (hall l c r hcalls)
  · have hc : c ∈ calls := hcalls ▸ List.mem_append_right l List.mem_cons_self
    exact (PteCall.agrees_iff (h c hc) _).mpr (hne c hc)
  · have hc : c ∈ calls := hcalls ▸ List.mem_append_right l List.mem_cons_self
    have hlast : writeAll pte calls = (c.apply (writeAll pte l)).2 := by
      rw [hcalls, writeAll, List.foldl_append]
      rfl
    rw [hlast]
    exact ((PteCall.agrees_iff (h c hc) _).mpr hne).shows

end

end

/-! ### The first frame -/

omit [Header] in
theorem getFreefp_format {mp mp' : Memphy} {pagesz : ℤ} {fpNext₀ : List ℕ}
    (h : mp.format pagesz fpNext₀ = (0, mp')) : ∃ mp'', mp'.getFreefp = some (0, mp'') := by
  unfold Memphy.format at h
  by_cases hnumfp : mp.maxsz.tdiv pagesz ≤ 0
  · rw [if_pos hnumfp] at h
    cases h
  · rw [if_neg hnumfp] at h
    obtain ⟨_, rfl⟩ := Prod.mk.inj h
    exact ⟨_, rfl⟩

/-- `DIRTY` in bit 28. -/
@[reducible] def dirty28 : DirtyHeader := ⟨1#32 <<< 28⟩

omit [Header] in
theorem dirty28_laws : @DirtyLaws header22 dirty28 :=
  @DirtyLaws.mk header22 dirty28 (by decide) (by decide)

omit [Header] in
theorem pte_writers_agree_iff_sample :
    @Shows header22 (@writeAll header22 dirty28 0xffffffff#32
      [.initFpn 1 0 0 0 1, .setSwap 0 5, .initFpn 1 0 0 0 2]) (.online 2) := by
  let := header22
  let := dirty28
  let := header22_pteLaws
  let := dirty28_laws
  have hvalid : ∀ c ∈ [PteCall.initFpn 1 0 0 0 1, .setSwap 0 5, .initFpn 1 0 0 0 2], c.Valid := by
    intro c hc
    simp only [List.mem_cons, List.not_mem_nil, or_false] at hc
    rcases hc with rfl | rfl | rfl
    · exact ⟨by decide, by decide⟩
    · exact ⟨by decide, trivial⟩
    · exact ⟨by decide, by decide⟩
  exact (pte_writers_agree_iff hvalid _).2 [.initFpn 1 0 0 0 1, .setSwap 0 5] _ rfl (by decide)

omit [Header] in
/-- `init_pte` refuses the first frame of a device of two, which `pte_set_fpn` writes. -/
theorem not_pte_writers_agree : ∃ mp mp' mp'' : Memphy,
    mp.format 256 [] = (0, mp') ∧ mp'.getFreefp = some (0, mp'') ∧
    ∀ pte, @initPte header22 dirty28 pte 1 0 0 0 0 0 = (-1, pte) ∧
      @Shows header22 (@pteSetFpn header22 pte 0) (.online 0) ∧
      ¬ @PteCall.Agrees header22 dirty28 (.initFpn 1 0 0 0 0) pte := by
  let := header22
  let := dirty28
  let := header22_pteLaws
  let := dirty28_laws
  have hformat : (⟨fun _ => 0, 512, true, 0, []⟩ : Memphy).format 256 [] =
      (0, ⟨fun _ => 0, 512, true, 0, [0, 1]⟩) := rfl
  obtain ⟨mp'', hfirst⟩ := getFreefp_format hformat
  refine ⟨_, _, mp'', hformat, hfirst, fun pte => ⟨?_, ?_, fun h => ?_⟩⟩
  · exact initPte_zero (by decide) pte 0 0 0
  · have hfits : (PteValue.online 0).Fits := by decide
    exact PteValue.shows_set hfits pte
  · have hst : (initPte pte 1 (0 : ℕ) 0 0 0 0).1 = 0 := h.succeeds
    rw [Nat.cast_zero, initPte_zero (by decide)] at hst
    cases hst

end BtlOs
