import BtlOs.Lib.BitField
import BtlOs.Lib.CLang

/-! # The headers

The sources include headers (`mm.h`, `common.h`, `syscall.h`) that are not part of the
repository.  `Header` collects what the sources take from them: the paging constants, the address
and page-table macros and the operation codes of the memory-map system call.  A development over
an arbitrary `Header` speaks about every choice of these constants.

What the macros promise by their names is stated separately, in two groups:

* `PageLaws`: `PAGING_PAGE_ALIGNSZ` rounds up to a multiple of `PAGING_PAGESZ`, `PAGING_PGN` and
  `PAGING_OFFST` split an address by it;
* `PteLaws`: the flags lie outside the fields of a page-table entry, `SWPTYP` and `SWPOFF` do
  not overlap (`FPN` may overlap both), and `PAGING_FPN` reads the field that `pte_set_fpn`
  writes. -/

namespace BtlOs

open CLang BitField

/-- A byte of a device (`BYTE` is `char`). -/
abbrev Byte := BitVec 8

/-- A page-table entry (`uint32_t`). -/
abbrev Pte := BitVec 32

class Header where
  pagingPagesz : ℕ
  pagingMaxPgn : ℕ
  pagingMaxSymtblSz : ℕ
  pagingPageAlignsz : ℤ → ℤ
  pagingPgn : ℤ → ℕ
  pagingOffst : ℤ → ℕ
  pagingFpn : Pte → ℕ
  ptePresentMask : Pte
  pteSwappedMask : Pte
  pteFpnLobit : ℕ
  pteFpnHibit : ℕ
  pteSwptypLobit : ℕ
  pteSwptypHibit : ℕ
  pteSwpoffLobit : ℕ
  pteSwpoffHibit : ℕ
  sysmemMapOp : ℤ
  sysmemIncOp : ℤ
  sysmemSwpOp : ℤ
  sysmemIoRead : ℤ
  sysmemIoWrite : ℤ
  /-- The operations are case labels of one `switch` over an `int`. -/
  sysmemNodup : [sysmemMapOp, sysmemIncOp, sysmemSwpOp, sysmemIoRead, sysmemIoWrite].Nodup
  sysmemInt : ∀ op ∈ [sysmemMapOp, sysmemIncOp, sysmemSwpOp, sysmemIoRead, sysmemIoWrite],
    int32 op = op

namespace Header

variable [Header]

def pteFpnMask : Pte := genmask 32 pteFpnHibit pteFpnLobit
def pteSwptypMask : Pte := genmask 32 pteSwptypHibit pteSwptypLobit
def pteSwpoffMask : Pte := genmask 32 pteSwpoffHibit pteSwpoffLobit

/-- `PAGING_PAGE_PRESENT(pte)`. -/
def pagingPagePresent (pte : Pte) : Bool := testbit pte ptePresentMask

/-- The `SWAPPED` bit of an entry. -/
def pagingPageSwapped (pte : Pte) : Bool := testbit pte pteSwappedMask

/-- `PAGING_PTE_FPN(pte)`. -/
def pagingPteFpn (pte : Pte) : ℕ := (getval pte pteFpnMask pteFpnLobit).toNat

/-- `PAGING_PTE_SWP(pte)`. -/
def pagingPteSwp (pte : Pte) : ℕ := (getval pte pteSwpoffMask pteSwpoffLobit).toNat

/-- The least multiple of `PAGING_PAGESZ` that is not below `n`. -/
def roundUp (n : ℕ) : ℕ := (n + pagingPagesz - 1) / pagingPagesz * pagingPagesz

/-- Frame numbers below `n` fit the `FPN` field. -/
def FpnFits (n : ℕ) : Prop := n ≤ 2 ^ (pteFpnHibit + 1 - pteFpnLobit)

/-- Swap offsets below `n` fit the `SWPOFF` field. -/
def SwpoffFits (n : ℕ) : Prop := n ≤ 2 ^ (pteSwpoffHibit + 1 - pteSwpoffLobit)

instance (n : ℕ) : Decidable (FpnFits n) := inferInstanceAs (Decidable (_ ≤ _))
instance (n : ℕ) : Decidable (SwpoffFits n) := inferInstanceAs (Decidable (_ ≤ _))

end Header

open Header

/-- The address macros do what their names say. -/
class PageLaws [Header] : Prop where
  pagesz_pos : 0 < pagingPagesz
  pagesz_lt : pagingPagesz < 2 ^ 31
  symtblSz_lt : pagingMaxSymtblSz < 2 ^ 31
  alignsz : ∀ n : ℕ, roundUp n < 2 ^ 31 → pagingPageAlignsz n = roundUp n
  pgn : ∀ a : ℕ, a < pagingMaxPgn * pagingPagesz → pagingPgn a = a / pagingPagesz
  offst : ∀ a : ℕ, a < pagingMaxPgn * pagingPagesz → pagingOffst a = a % pagingPagesz

/-- The layout of a page-table entry. -/
class PteLaws [Header] : Prop where
  fpn_hibit : pteFpnHibit < 32
  swptyp_hibit : pteSwptypHibit < 32
  swpoff_hibit : pteSwpoffHibit < 32
  present_ne : ptePresentMask ≠ 0#32
  swapped_ne : pteSwappedMask ≠ 0#32
  present_swapped : Disjoint ptePresentMask pteSwappedMask
  fpn_present : Disjoint pteFpnMask ptePresentMask
  fpn_swapped : Disjoint pteFpnMask pteSwappedMask
  swptyp_present : Disjoint pteSwptypMask ptePresentMask
  swptyp_swapped : Disjoint pteSwptypMask pteSwappedMask
  swpoff_present : Disjoint pteSwpoffMask ptePresentMask
  swpoff_swapped : Disjoint pteSwpoffMask pteSwappedMask
  swptyp_swpoff : Disjoint pteSwptypMask pteSwpoffMask
  pagingFpn_eq : ∀ pte, pagingFpn pte = pagingPteFpn pte

/-! ### Page arithmetic -/

section pages

variable [Header] [PageLaws]

theorem pagesz_pos : 0 < pagingPagesz := PageLaws.pagesz_pos

theorem le_roundUp (n : ℕ) : n ≤ roundUp n := by
  have hp := pagesz_pos
  have h := Nat.div_add_mod (n + pagingPagesz - 1) pagingPagesz
  have h' := Nat.mod_lt (n + pagingPagesz - 1) hp
  unfold roundUp
  rw [Nat.mul_comm]
  omega

omit [PageLaws] in
theorem dvd_roundUp (n : ℕ) : pagingPagesz ∣ roundUp n := ⟨_, Nat.mul_comm _ _⟩

theorem roundUp_of_dvd {n : ℕ} (h : pagingPagesz ∣ n) : roundUp n = n := by
  obtain ⟨k, rfl⟩ := h
  have hp := pagesz_pos
  unfold roundUp
  have e : pagingPagesz * k + pagingPagesz - 1 = pagingPagesz * k + (pagingPagesz - 1) := by omega
  rw [e, Nat.mul_add_div hp, Nat.div_eq_of_lt (by omega), Nat.add_zero, Nat.mul_comm]

end pages

/-- A header for concrete runs: pages of 256 bytes, 22-bit addresses, `PRESENT` in bit 31,
`SWAPPED` in bit 30, `FPN` in the bits `0 … 12`, `SWPTYP` in `0 … 4`, `SWPOFF` in `5 … 25`. -/
@[reducible] def header22 : Header where
  pagingPagesz := 256
  pagingMaxPgn := 16384
  pagingMaxSymtblSz := 30
  pagingPageAlignsz sz := int32 ((int32 (sz + 255)).tdiv 256 * 256)
  pagingPgn a := (a % 2 ^ 22).toNat / 256
  pagingOffst a := (a % 256).toNat
  pagingFpn pte := (getval pte (genmask 32 12 0) 0).toNat
  ptePresentMask := genmask 32 31 31
  pteSwappedMask := genmask 32 30 30
  pteFpnLobit := 0
  pteFpnHibit := 12
  pteSwptypLobit := 0
  pteSwptypHibit := 4
  pteSwpoffLobit := 5
  pteSwpoffHibit := 25
  sysmemMapOp := 1
  sysmemIncOp := 2
  sysmemSwpOp := 3
  sysmemIoRead := 4
  sysmemIoWrite := 5
  sysmemNodup := by decide
  sysmemInt := by decide

theorem header22_pageLaws : @PageLaws header22 :=
  letI := header22
  { pagesz_pos := by decide
    pagesz_lt := by decide
    symtblSz_lt := by decide
    alignsz := by
      intro n h
      change (n + 256 - 1) / 256 * 256 < 2 ^ 31 at h
      have e : int32 ((n : ℤ) + 255) = ((n + 255 : ℕ) : ℤ) := by
        rw [int32_of_range (by omega) (by omega)]
        omega
      show int32 ((int32 ((n : ℤ) + 255)).tdiv 256 * 256) = ((n + 256 - 1) / 256 * 256 : ℕ)
      rw [e, Int.tdiv_eq_ediv_of_nonneg (by omega), int32_of_range (by omega) (by omega)]
      omega
    pgn := by
      intro a h
      show ((a : ℤ) % 2 ^ 22).toNat / 256 = a / 256
      change a < 16384 * 256 at h
      omega
    offst := by
      intro a h
      show ((a : ℤ) % 256).toNat = a % 256
      omega }

theorem header22_pteLaws : @PteLaws header22 :=
  letI := header22
  { fpn_hibit := by decide
    swptyp_hibit := by decide
    swpoff_hibit := by decide
    present_ne := by decide
    swapped_ne := by decide
    present_swapped := by decide
    fpn_present := by decide
    fpn_swapped := by decide
    swptyp_present := by decide
    swptyp_swapped := by decide
    swpoff_present := by decide
    swpoff_swapped := by decide
    swptyp_swpoff := by decide
    pagingFpn_eq := fun _ => rfl }

end BtlOs
