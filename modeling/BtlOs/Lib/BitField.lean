import Mathlib.Data.Nat.Bits
import Mathlib.Tactic.Linarith

/-! # Bit fields of a machine word

Masks, flag bits and fields of a word of `w` bits, in the usual C idiom: `genmask hi lo` is the
mask of the bits `lo … hi`, `setval` replaces a field under its mask, `getval` reads it back.
The rules are the two a user of such a word needs: what was written into a field is read back
(`getval_setval`), and a write leaves every bit outside its mask alone (`setval_and_of_disjoint`,
`getval_setval_of_disjoint`). -/

namespace BitField

variable {w : ℕ}

/-- The mask of the bits `lo … hi`. -/
def genmask (w hi lo : ℕ) : BitVec w :=
  (BitVec.allOnes w <<< lo) &&& (BitVec.allOnes w >>> (w - 1 - hi))

def setbit (v mask : BitVec w) : BitVec w := v ||| mask

def clrbit (v mask : BitVec w) : BitVec w := v &&& ~~~mask

def setval (v value mask : BitVec w) (offst : ℕ) : BitVec w :=
  (v &&& ~~~mask) ||| ((value <<< offst) &&& mask)

def getval (v mask : BitVec w) (offst : ℕ) : BitVec w := (v &&& mask) >>> offst

/-- The test of a one-bit mask. -/
def testbit (v mask : BitVec w) : Bool := v &&& mask != 0#w

/-- The masks share no bit. -/
def Disjoint (m m' : BitVec w) : Prop := m &&& m' = 0#w

instance (m m' : BitVec w) : Decidable (Disjoint m m') := inferInstanceAs (Decidable (_ = _))

/-! ### Bits -/

theorem getLsbD_genmask {hi lo i : ℕ} (hw : hi < w) :
    (genmask w hi lo).getLsbD i = (decide (lo ≤ i) && decide (i ≤ hi)) := by
  unfold genmask
  simp only [BitVec.getLsbD_and, BitVec.getLsbD_shiftLeft, BitVec.getLsbD_allOnes,
    BitVec.getLsbD_ushiftRight]
  by_cases h₁ : lo ≤ i <;> by_cases h₂ : i ≤ hi <;> simp [h₁, h₂] <;> omega

theorem Disjoint.symm {m m' : BitVec w} (h : Disjoint m m') : Disjoint m' m := by
  unfold Disjoint at *
  rwa [BitVec.and_comm]

theorem Disjoint.not_and {m m' : BitVec w} (h : Disjoint m m') {i : ℕ} (hi : m.getLsbD i = true) :
    m'.getLsbD i = false := by
  have := congrArg (fun v => v.getLsbD i) h
  simpa [hi] using this

/-! ### Writes read through a mask -/

theorem setval_and_of_disjoint {v value m m' : BitVec w} {o : ℕ} (h : Disjoint m m') :
    setval v value m o &&& m' = v &&& m' := by
  apply BitVec.eq_of_getLsbD_eq
  intro i hi
  unfold setval
  simp only [BitVec.getLsbD_and, BitVec.getLsbD_or, BitVec.getLsbD_not]
  by_cases hm : m'.getLsbD i = true
  · rw [h.symm.not_and hm, hm]
    simp [hi]
  · simp [hm]

theorem setbit_and_of_disjoint {v m m' : BitVec w} (h : Disjoint m m') :
    setbit v m &&& m' = v &&& m' := by
  apply BitVec.eq_of_getLsbD_eq
  intro i _
  unfold setbit
  simp only [BitVec.getLsbD_and, BitVec.getLsbD_or]
  by_cases hm : m'.getLsbD i = true
  · rw [h.symm.not_and hm, hm]
    simp
  · simp [hm]

theorem clrbit_and_of_disjoint {v m m' : BitVec w} (h : Disjoint m m') :
    clrbit v m &&& m' = v &&& m' := by
  apply BitVec.eq_of_getLsbD_eq
  intro i hi
  unfold clrbit
  simp only [BitVec.getLsbD_and, BitVec.getLsbD_not]
  by_cases hm : m'.getLsbD i = true
  · rw [h.symm.not_and hm, hm]
    simp [hi]
  · simp [hm]

theorem setbit_and_self (v m : BitVec w) : setbit v m &&& m = m := by
  apply BitVec.eq_of_getLsbD_eq
  intro i _
  simp only [setbit, BitVec.getLsbD_and, BitVec.getLsbD_or]
  cases m.getLsbD i <;> simp

theorem clrbit_and_self (v m : BitVec w) : clrbit v m &&& m = 0#w := by
  apply BitVec.eq_of_getLsbD_eq
  intro i hi
  simp only [clrbit, BitVec.getLsbD_and, BitVec.getLsbD_not]
  cases m.getLsbD i <;> simp [hi]

/-- A field reads back what was written, as far as it is wide enough. -/
theorem getval_setval_mod {v : BitVec w} {hi lo n : ℕ} (hw : hi < w) :
    (getval (setval v (BitVec.ofNat w n) (genmask w hi lo) lo) (genmask w hi lo) lo).toNat =
      n % 2 ^ (hi + 1 - lo) := by
  apply Nat.eq_of_testBit_eq
  intro i
  rw [BitVec.testBit_toNat, Nat.testBit_mod_two_pow]
  unfold getval setval
  simp only [BitVec.getLsbD_ushiftRight, BitVec.getLsbD_and, BitVec.getLsbD_or,
    BitVec.getLsbD_not, getLsbD_genmask hw, BitVec.getLsbD_shiftLeft, BitVec.getLsbD_ofNat]
  by_cases hle : lo + i ≤ hi
  · have h₁ : lo + i < w := by omega
    have h₂ : i < w := by omega
    have h₃ : i < hi + 1 - lo := by omega
    simp [hle, h₁, h₂, h₃]
  · have h₃ : ¬ i < hi + 1 - lo := by omega
    simp [hle, h₃]

theorem getval_setval {v : BitVec w} {hi lo n : ℕ} (hw : hi < w)
    (hn : n < 2 ^ (hi + 1 - lo)) :
    (getval (setval v (BitVec.ofNat w n) (genmask w hi lo) lo) (genmask w hi lo) lo).toNat = n := by
  rw [getval_setval_mod hw, Nat.mod_eq_of_lt hn]

theorem getval_lt {v : BitVec w} {hi lo : ℕ} (hw : hi < w) :
    (getval v (genmask w hi lo) lo).toNat < 2 ^ (hi + 1 - lo) := by
  apply Nat.lt_pow_two_of_testBit
  intro i hi'
  have h : ¬ lo + i ≤ hi := by omega
  rw [BitVec.testBit_toNat]
  simp [getval, getLsbD_genmask hw, h]

theorem getval_setval_of_disjoint {v value m m' : BitVec w} {o o' : ℕ} (h : Disjoint m m') :
    getval (setval v value m o) m' o' = getval v m' o' := by
  unfold getval
  rw [setval_and_of_disjoint h]

theorem testbit_congr {v v' m : BitVec w} (h : v &&& m = v' &&& m) :
    testbit v m = testbit v' m := by
  unfold testbit
  rw [h]

theorem testbit_setbit {v m : BitVec w} (hm : m ≠ 0#w) : testbit (setbit v m) m = true := by
  simp [testbit, setbit_and_self, hm]

theorem testbit_clrbit (v m : BitVec w) : testbit (clrbit v m) m = false := by
  simp [testbit, clrbit_and_self]

end BitField
