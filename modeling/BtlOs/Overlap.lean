import BtlOs.Lookup

/-! # Areas that grow (`validate_overlap_vm_area`, `inc_vma_limit`)

The overlap test compares the other areas with the request as it was made, and the area grows by
the request rounded up to pages.  Both miss the same areas: an area begins on a page border, and
between the end of the request and the end of the grown area there is none. -/

namespace BtlOs

open CLang Header Segments

/-- The address lies in the area. -/
abbrev VmArea.Inside (vma : VmArea) (a : ℕ) : Prop :=
  Segments.Inside VmArea.vmStart VmArea.vmEnd vma a

/-- No address lies in two areas. -/
abbrev DisjointAreas (l : List VmArea) : Prop := Parted VmArea.vmStart VmArea.vmEnd l

section

variable [Header]

/-- The areas of a map of which `vma` grows: ascending ids, bounds on page borders, no two areas
with a common address.  `vma` alone may be empty. -/
structure AreasOk (l : List VmArea) (vma : VmArea) : Prop where
  mem : vma ∈ l
  ids : AscendingIds l
  aligned : ∀ s ∈ l, pagingPagesz ∣ s.vmStart ∧ pagingPagesz ∣ s.vmEnd
  nonempty : ∀ s ∈ l, s ≠ vma → s.vmStart < s.vmEnd
  le : vma.vmStart ≤ vma.vmEnd
  sbrk : vma.sbrk = vma.vmEnd
  disjoint : DisjointAreas l

variable [PageLaws] {c c' : Ctx} {vma other : VmArea} {vmaid st : ℤ} {incSz : ℕ}

/-! ### The overlap test -/

theorem roundUp_lt_add (n : ℕ) : roundUp n < n + pagingPagesz := by
  have hp := pagesz_pos
  have hle : roundUp n ≤ n + pagingPagesz - 1 := Nat.div_mul_le_self _ _
  omega

/-- No page border lies between a request and the request rounded up. -/
theorem lt_add_of_lt_add_roundUp {a e n : ℕ} (ha : pagingPagesz ∣ a) (he : pagingPagesz ∣ e)
    (h : a < e + roundUp n) : a < e + n := by
  obtain ⟨i, rfl⟩ := ha
  obtain ⟨j, rfl⟩ := he
  obtain ⟨m, hm⟩ := dvd_roundUp n
  have hround := roundUp_lt_add n
  rw [hm, ← Nat.mul_add] at h
  have hlt : i < j + m := lt_of_mul_lt_mul_left h (Nat.zero_le _)
  have hborder : pagingPagesz * i + pagingPagesz ≤ pagingPagesz * j + pagingPagesz * m := by
    calc pagingPagesz * i + pagingPagesz = pagingPagesz * (i + 1) := (Nat.mul_succ _ _).symm
      _ ≤ pagingPagesz * (j + m) := Nat.mul_le_mul_left _ hlt
      _ = pagingPagesz * j + pagingPagesz * m := Nat.mul_add _ _ _
  omega

/-- The test on the request finds every area with an address in the rounded request. -/
theorem overlapsVma_of_inside {a e : ℕ} (hstart : pagingPagesz ∣ other.vmStart)
    (he : pagingPagesz ∣ e) (hb : e + incSz < 2 ^ 31) (ha : other.Inside a) (hle : e ≤ a)
    (hlt : a < e + roundUp incSz) : overlapsVma e ((e + incSz : ℕ) : ℤ) other = true := by
  obtain ⟨hlo, hhi⟩ := ha
  have hmeet : e < other.vmStart → other.vmStart < e + incSz := fun _ =>
    lt_add_of_lt_add_roundUp hstart he (by omega)
  unfold overlapsVma
  rw [ulong_natCast (by omega), ulong_natCast (by omega)]
  simp only [Bool.or_eq_true, Bool.and_eq_true, decide_eq_true_eq]
  -- where the area does not begin before the request, it begins in it
  omega

/-! ### The call on an area -/

omit [PageLaws] in
theorem AreasOk.lookup (h : AreasOk c.mm.mmap vma) (hid : int32 vma.vmId = vmaid) :
    ∃ k, c.mm.mmap[k]? = some vma ∧ getVmaByNum c.mm vmaid = .ok (some k) := by
  obtain ⟨k, hk⟩ := List.mem_iff_getElem?.mp h.mem
  exact ⟨k, hk, getVmaByNum_of_id h.ids hk hid⟩

theorem AreasOk.region (h : AreasOk c.mm.mmap vma) (hid : int32 vma.vmId = vmaid)
    (hb : vma.vmEnd + incSz < 2 ^ 31) :
    getVmAreaNodeAtBrk c.mm vmaid incSz pagingPagesz =
      .ok (some ⟨vma.vmEnd, vma.vmEnd + incSz⟩) := by
  obtain ⟨k, hk, hlookup⟩ := h.lookup hid
  have hp := pagesz_pos
  have hsz : pagingPagesz < 2 ^ 31 := PageLaws.pagesz_lt
  have hround : (vma.vmEnd + pagingPagesz - 1) / pagingPagesz * pagingPagesz = vma.vmEnd :=
    roundUp_of_dvd (h.aligned vma h.mem).2
  have hbrk : ((vma.sbrk : ℤ) + pagingPagesz - 1) = ((vma.vmEnd + pagingPagesz - 1 : ℕ) : ℤ) := by
    rw [h.sbrk]
    omega
  have hstart : ((vma.vmEnd + pagingPagesz - 1 : ℕ) : ℤ) / pagingPagesz * pagingPagesz =
      vma.vmEnd := by
    exact_mod_cast hround
  have hend : ulong ((vma.vmEnd : ℤ) + incSz) = vma.vmEnd + incSz := by
    exact_mod_cast ulong_natCast (n := vma.vmEnd + incSz) (by omega)
  unfold getVmAreaNodeAtBrk
  rw [hlookup, ok_bind, if_neg (by simp), Mm.area_eq_ok.mpr ⟨k, rfl, hk⟩, ok_bind]
  simp only [hbrk, ulong_natCast (show vma.vmEnd + pagingPagesz - 1 < 2 ^ 64 by omega),
    ulong_natCast (show pagingPagesz < 2 ^ 64 by omega), hstart,
    ulong_natCast (show vma.vmEnd < 2 ^ 64 by omega), hend]

theorem AreasOk.validate (h : AreasOk c.mm.mmap vma) (hb : vma.vmEnd + incSz < 2 ^ 31)
    (hid : int32 vma.vmId = vmaid) (hother : other ∈ c.mm.mmap) {a : ℕ} (ha : other.Inside a)
    (hle : vma.vmEnd ≤ a) (hlt : a < vma.vmEnd + roundUp incSz) :
    validateOverlapVmArea c.mm vmaid (int32 vma.vmEnd) (int32 (vma.vmEnd + incSz : ℕ)) = -1 := by
  have hne : ulong vmaid ≠ other.vmId := by
    intro he
    -- another area has another id, and `vma` ends before the address
    have hvmaid : int32 other.vmId = vmaid := by
      rw [← he, int32_ulong, ← hid, int32_int32]
    obtain ⟨k, hk, hlookup⟩ := h.lookup hid
    obtain ⟨j, hj⟩ := List.mem_iff_getElem?.mp hother
    have hlookup' := getVmaByNum_of_id h.ids hj hvmaid
    rw [hlookup] at hlookup'
    obtain rfl := Option.some.inj (Except.ok.inj hlookup')
    obtain rfl := Option.some.inj (hk.symm.trans hj)
    exact absurd ha.2 (by omega)
  have hfound := overlapsVma_of_inside (h.aligned other hother).1 (h.aligned vma h.mem).2 hb ha
    hle hlt
  unfold validateOverlapVmArea
  rw [int32_natCast (by omega), int32_natCast hb, if_neg (List.ne_nil_of_mem hother), if_pos]
  refine List.any_eq_true.mpr ⟨other, hother, ?_⟩
  rw [Bool.and_eq_true]
  exact ⟨decide_eq_true hne, hfound⟩

/-- The pages of the request meet no area, or the call is refused. -/
theorem AreasOk.refused (h : AreasOk c.mm.mmap vma) (hb : vma.vmEnd + incSz < 2 ^ 31)
    (hid : int32 vma.vmId = vmaid) (hother : other ∈ c.mm.mmap) {a : ℕ} (ha : other.Inside a)
    (hle : vma.vmEnd ≤ a) (hlt : a < vma.vmEnd + roundUp incSz) : c.IncRefused vmaid incSz :=
  .inr ⟨_, h.region hid hb, h.validate hb hid hother ha hle hlt⟩

omit [PageLaws] in
/-- A call that is refused changes nothing. -/
theorem incVmaLimit_of_refused {incSz : ℤ} {k : ℕ} (hk : c.mm.mmap[k]? = some vma)
    (hlookup : getVmaByNum c.mm vmaid = .ok (some k)) (hrefused : c.IncRefused vmaid incSz) :
    incVmaLimit c vmaid incSz = .ok (-1, c) := by
  cases hrefused with
  | inl hnil => exact incVmaLimit_nil hnil incSz
  | inr hoverlap =>
      obtain ⟨region, hregion, hvalidate⟩ := hoverlap
      unfold incVmaLimit
      simp only [hregion, hlookup, ok_bind, Mm.area_eq_ok.mpr ⟨k, rfl, hk⟩, hvalidate, if_true]

omit [PageLaws] in
theorem incVmaLimit_area_returns {incSz : ℤ} {k : ℕ} {region : VmRg}
    (hk : c.mm.mmap[k]? = some vma) (hlookup : getVmaByNum c.mm vmaid = .ok (some k))
    (hregion : getVmAreaNodeAtBrk c.mm vmaid incSz pagingPagesz = .ok (some region))
    (hpages : incPages incSz = 0 ∨
      pagingPgn (int32 vma.vmEnd) + incPages incSz ≤ pagingMaxPgn) :
    ∃ r, incVmaLimit c vmaid incSz = .ok r := by
  unfold incVmaLimit
  simp only [hregion, hlookup, ok_bind, Mm.area_eq_ok.mpr ⟨k, rfl, hk⟩]
  split_ifs with hoverlap
  · exact ⟨_, rfl⟩
  · exact bind_returns (vmMapRam_returns (.inr hpages)) fun _ _ => ⟨_, rfl⟩

theorem AreasOk.set_raised (h : AreasOk c.mm.mmap vma) (hb : vma.vmEnd + incSz < 2 ^ 31)
    (hround : roundUp incSz < 2 ^ 31) (hid : int32 vma.vmId = vmaid) {k : ℕ}
    (hk : c.mm.mmap[k]? = some vma) (hne : ¬ c.IncRefused vmaid incSz) :
    DisjointAreas (c.mm.mmap.set k (vma.raised (pagingPageAlignsz incSz))) := by
  have hend : (vma.raised (pagingPageAlignsz incSz)).vmEnd = vma.vmEnd + roundUp incSz := by
    show ulong (vma.vmEnd + pagingPageAlignsz incSz) = _
    rw [PageLaws.alignsz incSz hround]
    exact_mod_cast ulong_natCast (n := vma.vmEnd + roundUp incSz) (by omega)
  refine h.disjoint.set fun j other hjk hj a ha hother => ?_
  obtain ⟨hlo, hhi⟩ := ha
  rw [hend] at hhi
  by_cases hold : a < vma.vmEnd
  · exact h.disjoint.not_inside hjk hj hk hother ⟨hlo, hold⟩
  · exact hne (h.refused hb hid (List.mem_of_getElem? hj) hother (not_lt.mp hold) hhi)

theorem AreasOk.returns (h : AreasOk c.mm.mmap vma) (hid : int32 vma.vmId = vmaid)
    (hb : vma.vmEnd + incSz < 2 ^ 31) (hround : roundUp incSz < 2 ^ 31)
    (hpages : vma.vmEnd + roundUp incSz ≤ pagingMaxPgn * pagingPagesz) :
    ∃ r, incVmaLimit c vmaid incSz = .ok r := by
  obtain ⟨k, hk, hlookup⟩ := h.lookup hid
  apply incVmaLimit_area_returns hk hlookup (h.region hid hb)
  have hpos := pagesz_pos
  have hnum : incPages incSz = pages incSz := by
    unfold incPages
    rw [PageLaws.alignsz incSz hround, Int.tdiv_eq_ediv_of_nonneg (by omega)]
    rfl
  have hdiv : vma.vmEnd / pagingPagesz * pagingPagesz = vma.vmEnd :=
    Nat.div_mul_cancel (h.aligned vma h.mem).2
  have hM : vma.vmEnd / pagingPagesz + pages incSz ≤ pagingMaxPgn := by
    apply Nat.le_of_mul_le_mul_right _ hpos
    rw [Nat.add_mul, hdiv, pages_mul]
    exact hpages
  rw [hnum, int32_natCast (by omega)]
  cases Nat.eq_zero_or_pos (pages incSz) with
  | inl h0 => exact .inl h0
  | inr h0 =>
      right
      rw [PageLaws.pgn _ ((Nat.div_lt_iff_lt_mul hpos).mp (by omega))]
      exact hM

/-- **Growing one area never runs into another.**  The areas are disjoint after every call that
returns; where the pages of the request meet an area, the call returns -1 and changes nothing; and
it returns where these pages are in the page table. -/
theorem growing_stays_apart (h : AreasOk c.mm.mmap vma) (hid : int32 vma.vmId = vmaid)
    (hb : vma.vmEnd + incSz < 2 ^ 31) (hround : roundUp incSz < 2 ^ 31) :
    (∀ st c', incVmaLimit c vmaid incSz = .ok (st, c') → DisjointAreas c'.mm.mmap) ∧
    ((∃ other ∈ c.mm.mmap, ∃ a, other.Inside a ∧ vma.vmEnd ≤ a ∧
        a < vma.vmEnd + roundUp incSz) → incVmaLimit c vmaid incSz = .ok (-1, c)) ∧
    (vma.vmEnd + roundUp incSz ≤ pagingMaxPgn * pagingPagesz →
      ∃ r, incVmaLimit c vmaid incSz = .ok r) := by
  obtain ⟨k, hk, hlookup⟩ := h.lookup hid
  refine ⟨fun st c' hinc => ?_, ?_, fun hpages => ?_⟩
  · cases incEnd_of_ok hinc with
    | refused _ => exact h.disjoint
    | oom hne hlookup' hk' _ =>
        obtain rfl := Option.some.inj (Except.ok.inj (hlookup.symm.trans hlookup'))
        obtain rfl := Option.some.inj (hk.symm.trans hk')
        exact h.set_raised hb hround hid hk hne
    | grow hne hlookup' hk' _ =>
        obtain rfl := Option.some.inj (Except.ok.inj (hlookup.symm.trans hlookup'))
        obtain rfl := Option.some.inj (hk.symm.trans hk')
        exact h.set_raised hb hround hid hk hne
  · rintro ⟨other, hother, a, ha, hle, hlt⟩
    exact incVmaLimit_of_refused hk hlookup (h.refused hb hid hother ha hle hlt)
  · exact h.returns hid hb hround hpages

omit [Header] [PageLaws] in
/-- The areas `0 ≤ a < 256` and `512 ≤ a < 768`: 200 bytes more for the first fit between them,
and for 257 the page border at 512 is passed. -/
theorem growing_stays_apart_sample :
    let c : Ctx := { blankCtx with mm := { blankMm with
      mmap := [⟨0, 0, 256, 256, []⟩, ⟨1, 512, 768, 768, []⟩] } }
    (∃ r, @incVmaLimit header22 c 0 200 = .ok r ∧ DisjointAreas r.2.mm.mmap) ∧
      @incVmaLimit header22 c 0 257 = .ok (-1, c) := by
  let := header22
  let := header22_pageLaws
  intro c
  have hok : AreasOk c.mm.mmap ⟨0, 0, 256, 256, []⟩ :=
    { mem := List.mem_cons_self
      ids := List.pairwise_pair.mpr (by decide)
      aligned := by decide
      nonempty := by decide
      le := by decide
      sbrk := rfl
      disjoint := by
        refine List.pairwise_pair.mpr fun a ha hb => ?_
        exact absurd ha.2 (not_lt.mpr (le_trans (by decide) hb.1)) }
  have hfits := @growing_stays_apart _ _ c ⟨0, 0, 256, 256, []⟩ 0 200 hok rfl (by decide)
    (by decide)
  have hmeets := @growing_stays_apart _ _ c ⟨0, 0, 256, 256, []⟩ 0 257 hok rfl (by decide)
    (by decide)
  obtain ⟨r, hr⟩ := hfits.2.2 (by decide)
  refine ⟨⟨r, hr, hfits.1 _ _ hr⟩, hmeets.2.1 ?_⟩
  exact ⟨_, List.mem_cons_of_mem _ List.mem_cons_self, 512, ⟨by decide, by decide⟩, by decide,
    by decide⟩

end

end BtlOs
