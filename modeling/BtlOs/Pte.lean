import BtlOs.Header

/-! # Page-table entries (`mm.c`)

The two writers `pte_set_swap` and `pte_set_fpn`.  Both set `PRESENT`; they differ in `SWAPPED`
and in the field they fill.  The lemmas say what every reader of an entry sees after a write. -/

namespace BtlOs

open CLang BitField Header

variable [Header]

/-- `pte_set_swap`: entry of a swapped page. -/
def pteSetSwap (pte : Pte) (swptyp : ℤ) (swpoff : ℕ) : Pte :=
  let pte := setbit pte ptePresentMask
  let pte := setbit pte pteSwappedMask
  let pte := setval pte (BitVec.ofInt 32 swptyp) pteSwptypMask pteSwptypLobit
  setval pte (BitVec.ofNat 32 swpoff) pteSwpoffMask pteSwpoffLobit

/-- `pte_set_fpn`: entry of an on-line page. -/
def pteSetFpn (pte : Pte) (fpn : ℕ) : Pte :=
  let pte := setbit pte ptePresentMask
  let pte := clrbit pte pteSwappedMask
  setval pte (BitVec.ofNat 32 fpn) pteFpnMask pteFpnLobit

/-- The entry of a page that is in RAM. -/
def Resident (pte : Pte) : Prop := pagingPagePresent pte = true ∧ pagingPageSwapped pte = false

instance (pte : Pte) : Decidable (Resident pte) := inferInstanceAs (Decidable (_ ∧ _))

variable [PteLaws]

open PteLaws

/-! ### The flags -/

/-- A write to the `FPN` field keeps the flags. -/
@[simp] theorem present_setval_fpn (pte value : Pte) :
    pagingPagePresent (setval pte value pteFpnMask pteFpnLobit) = pagingPagePresent pte :=
  testbit_congr (setval_and_of_disjoint fpn_present)

@[simp] theorem swapped_setval_fpn (pte value : Pte) :
    pagingPageSwapped (setval pte value pteFpnMask pteFpnLobit) = pagingPageSwapped pte :=
  testbit_congr (setval_and_of_disjoint fpn_swapped)

@[simp] theorem present_setval_swptyp (pte value : Pte) :
    pagingPagePresent (setval pte value pteSwptypMask pteSwptypLobit) = pagingPagePresent pte :=
  testbit_congr (setval_and_of_disjoint swptyp_present)

@[simp] theorem swapped_setval_swptyp (pte value : Pte) :
    pagingPageSwapped (setval pte value pteSwptypMask pteSwptypLobit) = pagingPageSwapped pte :=
  testbit_congr (setval_and_of_disjoint swptyp_swapped)

@[simp] theorem present_setval_swpoff (pte value : Pte) :
    pagingPagePresent (setval pte value pteSwpoffMask pteSwpoffLobit) = pagingPagePresent pte :=
  testbit_congr (setval_and_of_disjoint swpoff_present)

@[simp] theorem swapped_setval_swpoff (pte value : Pte) :
    pagingPageSwapped (setval pte value pteSwpoffMask pteSwpoffLobit) = pagingPageSwapped pte :=
  testbit_congr (setval_and_of_disjoint swpoff_swapped)

@[simp] theorem present_setbit (pte : Pte) :
    pagingPagePresent (setbit pte ptePresentMask) = true :=
  testbit_setbit present_ne

@[simp] theorem present_setbit_swapped (pte : Pte) :
    pagingPagePresent (setbit pte pteSwappedMask) = pagingPagePresent pte :=
  testbit_congr (setbit_and_of_disjoint present_swapped.symm)

@[simp] theorem present_clrbit_swapped (pte : Pte) :
    pagingPagePresent (clrbit pte pteSwappedMask) = pagingPagePresent pte :=
  testbit_congr (clrbit_and_of_disjoint present_swapped.symm)

@[simp] theorem swapped_setbit (pte : Pte) :
    pagingPageSwapped (setbit pte pteSwappedMask) = true :=
  testbit_setbit swapped_ne

omit [PteLaws] in
@[simp] theorem swapped_clrbit (pte : Pte) :
    pagingPageSwapped (clrbit pte pteSwappedMask) = false :=
  testbit_clrbit _ _

/-! ### The writers -/

@[simp] theorem present_pteSetSwap (pte : Pte) (t : ℤ) (o : ℕ) :
    pagingPagePresent (pteSetSwap pte t o) = true := by
  simp [pteSetSwap]

@[simp] theorem swapped_pteSetSwap (pte : Pte) (t : ℤ) (o : ℕ) :
    pagingPageSwapped (pteSetSwap pte t o) = true := by
  simp [pteSetSwap]

theorem pagingPteSwp_pteSetSwap {n o : ℕ} (hn : SwpoffFits n) (ho : o < n) (pte : Pte) (t : ℤ) :
    pagingPteSwp (pteSetSwap pte t o) = o :=
  getval_setval swpoff_hibit (lt_of_lt_of_le ho hn)

@[simp] theorem present_pteSetFpn (pte : Pte) (f : ℕ) :
    pagingPagePresent (pteSetFpn pte f) = true := by
  simp [pteSetFpn]

@[simp] theorem swapped_pteSetFpn (pte : Pte) (f : ℕ) :
    pagingPageSwapped (pteSetFpn pte f) = false := by
  simp [pteSetFpn]

theorem pagingPteFpn_pteSetFpn {n f : ℕ} (hn : FpnFits n) (hf : f < n) (pte : Pte) :
    pagingPteFpn (pteSetFpn pte f) = f :=
  getval_setval fpn_hibit (lt_of_lt_of_le hf hn)

/-- What is read back does not depend on the old entry. -/
theorem pagingPteFpn_pteSetFpn_mod (pte : Pte) (f : ℕ) :
    pagingPteFpn (pteSetFpn pte f) = f % 2 ^ (pteFpnHibit + 1 - pteFpnLobit) :=
  getval_setval_mod fpn_hibit

theorem pagingPteFpn_pteSetFpn_le (pte : Pte) (f : ℕ) : pagingPteFpn (pteSetFpn pte f) ≤ f := by
  rw [pagingPteFpn_pteSetFpn_mod]
  exact Nat.mod_le f _

theorem pagingPteFpn_pteSetFpn_pagingPteFpn (pte vicpte : Pte) :
    pagingPteFpn (pteSetFpn pte (pagingPteFpn vicpte)) = pagingPteFpn vicpte :=
  getval_setval fpn_hibit (getval_lt fpn_hibit)

theorem resident_pteSetFpn (pte : Pte) (f : ℕ) : Resident (pteSetFpn pte f) := by
  simp [Resident]

theorem not_resident_pteSetSwap (pte : Pte) (t : ℤ) (o : ℕ) :
    ¬ Resident (pteSetSwap pte t o) := by
  simp [Resident]

omit [PteLaws] in
/-- A cleared entry is the entry of a page that was never mapped. -/
@[simp] theorem present_zero : pagingPagePresent 0#32 = false := by
  simp [pagingPagePresent, testbit]

omit [PteLaws] in
@[simp] theorem swapped_zero : pagingPageSwapped 0#32 = false := by
  simp [pagingPageSwapped, testbit]

end BtlOs
