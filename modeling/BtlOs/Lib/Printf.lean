import BtlOs.Lib.Stdio
import BtlOs.Lib.Decoding
import Mathlib.Data.Nat.Digits.Defs

/-! # Formatted output of C

The integer conversions of `printf`: `%d`, `%ld` and `%lu` with a width, and `%x` and `%X` with
leading zeros.  What the first print is read back by `scanf` (`scanNumber_printfD`); the others are
injective over their own class of characters. -/

namespace Printf

open Stdio Decoding

/-! ### Conversions -/

/-- The digits of a number, at least one. -/
def numeral (base : ℕ) (digit : ℕ → BitVec 8) (n : ℕ) : Text :=
  if n = 0 then [digit 0] else ((Nat.digits base n).map digit).reverse

/-- `0`, …, `9`, `a`, …, `f`. -/
def lowerDigit (d : ℕ) : BitVec 8 := BitVec.ofNat 8 (if d < 10 then 48 + d else 87 + d)

/-- `0`, …, `9`, `A`, …, `F`. -/
def upperDigit (d : ℕ) : BitVec 8 := BitVec.ofNat 8 (if d < 10 then 48 + d else 55 + d)

/-- A field of at least this width. -/
def pad (c : BitVec 8) (width : ℕ) (t : Text) : Text := List.replicate (width - t.length) c ++ t

/-- `%d`, `%ld`, and `%lu` where the number is not negative; with a width. -/
def printfD (width : ℕ) (z : ℤ) : Text :=
  pad 32 width ((if z < 0 then [45] else []) ++ numeral 10 lowerDigit z.natAbs)

/-- `%0*lu`. -/
def printfZero (width n : ℕ) : Text := pad 48 width (numeral 10 lowerDigit n)

/-- `%0*x`. -/
def printfx (width n : ℕ) : Text := pad 48 width (numeral 16 lowerDigit n)

/-- `%0*X`. -/
def printfX (width n : ℕ) : Text := pad 48 width (numeral 16 upperDigit n)

/-! ### The value of the digits -/

/-- The number of a text in a base, digit by digit. -/
def value (base : ℕ) (val : BitVec 8 → ℕ) (t : Text) : ℕ := t.foldl (fun n b => base * n + val b) 0

variable {base : ℕ} {digit : ℕ → BitVec 8} {val : BitVec 8 → ℕ}

theorem value_numeral (hval : ∀ d < base, val (digit d) = d) (hb : 1 < base) (n : ℕ) :
    value base val (numeral base digit n) = n := by
  unfold numeral value
  split_ifs with hn
  · rw [hn]
    simpa using hval 0 (Nat.zero_lt_of_lt hb)
  · rw [List.foldl_reverse, List.foldr_map]
    conv_rhs => rw [← Nat.ofDigits_digits base n, Nat.ofDigits_eq_foldr]
    have hlt : ∀ d ∈ Nat.digits base n, d < base := fun d hd => Nat.digits_lt_base hb hd
    generalize Nat.digits base n = l at hlt
    induction l with
    | nil => rfl
    | cons d l ih =>
        rw [List.foldr_cons, List.foldr_cons, ih fun x hx => hlt x (List.mem_cons_of_mem _ hx),
          hval d (hlt d List.mem_cons_self)]
        simp [Nat.add_comm]

theorem value_pad {c : BitVec 8} (hc : val c = 0) (width : ℕ) (t : Text) :
    value base val (pad c width t) = value base val t := by
  unfold pad value
  rw [List.foldl_append]
  congr 1
  induction width - t.length with
  | zero => rfl
  | succ n ih => rw [List.replicate_succ, List.foldl_cons, hc, Nat.mul_zero, Nat.add_zero, ih]

theorem mem_numeral {p : BitVec 8 → Bool} (hp : ∀ d < base, p (digit d) = true) (hb : 1 < base)
    (n : ℕ) : ∀ b ∈ numeral base digit n, p b = true := by
  intro b hmem
  unfold numeral at hmem
  split_ifs at hmem with hn
  · obtain rfl := List.mem_singleton.mp hmem
    exact hp 0 (Nat.zero_lt_of_lt hb)
  · obtain ⟨d, hd, rfl⟩ := List.mem_map.mp (List.mem_reverse.mp hmem)
    exact hp d (Nat.digits_lt_base hb hd)

theorem mem_pad {p : BitVec 8 → Bool} {c : BitVec 8} (hc : p c = true) {width : ℕ} {t : Text}
    (ht : ∀ b ∈ t, p b = true) : ∀ b ∈ pad c width t, p b = true := by
  intro b hmem
  cases List.mem_append.mp hmem with
  | inl hmem => rwa [List.eq_of_mem_replicate hmem]
  | inr hmem => exact ht b hmem

theorem numeral_ne_nil (n : ℕ) : numeral base digit n ≠ [] := by
  unfold numeral
  split_ifs with hn
  · exact List.cons_ne_nil _ _
  · simpa [Nat.digits_ne_nil_iff_ne_zero] using hn

/-! ### Decimal fields -/

theorem isdigit_lowerDigit : ∀ d < 10, isdigit (lowerDigit d) = true := by decide

theorem digitsValue_eq (t : Text) : digitsValue t = value 10 (fun b => b.toNat - 48) t := rfl

theorem lowerDigit_ten : ∀ d < 10, (lowerDigit d).toNat - 48 = d := by decide

/-- **Round trip.**  `scanf` reads what `printf` has printed, up to a character that is no digit. -/
theorem scanNumber_printfD (width : ℕ) (z : ℤ) {rest : Text}
    (hrest : ∀ b ∈ rest.head?, isdigit b = false) :
    scanNumber (printfD width z ++ rest) = (some z, rest) := by
  have hdigits := mem_numeral isdigit_lowerDigit (by decide) z.natAbs
  have hvalue : digitsValue (numeral 10 lowerDigit z.natAbs) = z.natAbs :=
    value_numeral lowerDigit_ten (by decide) z.natAbs
  have hnum : Numeral ((if z < 0 then [45] else []) ++ numeral 10 lowerDigit z.natAbs) z := by
    by_cases hz : z < 0
    · rw [if_pos hz]
      have h := Numeral.of_sign (numeral_ne_nil _) hdigits (.inr (.inl ⟨rfl, rfl⟩))
      rwa [hvalue, show (-1 : ℤ) * z.natAbs = z by omega] at h
    · rw [if_neg hz]
      have h := Numeral.of_sign (numeral_ne_nil _) hdigits (.inl ⟨rfl, rfl⟩)
      rwa [hvalue, show (1 : ℤ) * z.natAbs = z by omega] at h
  rw [scanNumber_eq_some]
  refine ⟨⟨_, _, List.append_assoc .., fun b hb => ?_, hnum⟩, hrest⟩
  rw [List.eq_of_mem_replicate hb]
  rfl

theorem scanNumber_printfZero (width n : ℕ) {rest : Text}
    (hrest : ∀ b ∈ rest.head?, isdigit b = false) :
    scanNumber (printfZero width n ++ rest) = (some (n : ℤ), rest) := by
  have hdigits : ∀ b ∈ printfZero width n, isdigit b = true :=
    mem_pad (by decide) (mem_numeral isdigit_lowerDigit (by decide) n)
  have hvalue : digitsValue (printfZero width n) = n := by
    rw [digitsValue_eq, printfZero, value_pad (by decide), value_numeral lowerDigit_ten (by decide)]
  have hne : printfZero width n ≠ [] := by
    unfold printfZero pad
    simp [numeral_ne_nil]
  have hnum := Numeral.of_sign hne hdigits (.inl ⟨rfl, rfl⟩)
  rw [hvalue, one_mul] at hnum
  exact scanNumber_eq_some.mpr ⟨⟨[], _, rfl, by simp, hnum⟩, hrest⟩

variable {t : Text}

theorem head_append {p : BitVec 8 → Bool} (ht : t.head?.map p = some false) (r : Text) :
    ∀ b ∈ (t ++ r).head?, p b = false := by
  obtain ⟨c, hc, hcp⟩ := Option.map_eq_some_iff.mp ht
  intro b hb
  rw [List.head?_append, hc] at hb
  rwa [← Option.some.inj hb]

/-- A decimal field in front of a literal that does not start with a digit. -/
theorem decodes_printfD (width : ℕ) (ht : t.head?.map isdigit = some false) :
    Decodes (fun _ : ℤ => True) fun z => printfD width z ++ t := by
  refine .of_reader (fun s => (scanNumber s).1.map fun z =>
    (z, (scanNumber s).2.drop t.length)) fun z r _ => ?_
  rw [List.append_assoc, scanNumber_printfD width z (head_append ht r), List.drop_left]
  rfl

theorem decodes_printfZero (width : ℕ) (ht : t.head?.map isdigit = some false) :
    Decodes (fun _ : ℕ => True) fun n => printfZero width n ++ t := by
  refine .of_reader (fun s => (scanNumber s).1.map fun z =>
    (z.toNat, (scanNumber s).2.drop t.length)) fun n r _ => ?_
  rw [List.append_assoc, scanNumber_printfZero width n (head_append ht r), List.drop_left]
  rfl

/-! ### Hexadecimal fields -/

/-- A character of a number in base 16. -/
def isxdigit (b : BitVec 8) : Bool :=
  isdigit b || 65 ≤ b.toNat && b.toNat ≤ 70 || 97 ≤ b.toNat && b.toNat ≤ 102

def xdigitValue (b : BitVec 8) : ℕ :=
  if b.toNat ≤ 57 then b.toNat - 48 else if b.toNat ≤ 70 then b.toNat - 55 else b.toNat - 87

theorem decodes_hex (hclass : ∀ d < 16, isxdigit (digit d) = true)
    (hval : ∀ d < 16, xdigitValue (digit d) = d) (width : ℕ)
    (ht : t.head?.map isxdigit = some false) :
    Decodes (fun _ : ℕ => True) fun n => pad 48 width (numeral 16 digit n) ++ t := by
  refine .of_class ht (fun n _ => mem_pad (by decide) (mem_numeral hclass (by decide) n)) ?_
  intro n m _ _ he
  have hvalue : ∀ k, value 16 xdigitValue (pad 48 width (numeral 16 digit k)) = k := by
    intro k
    rw [value_pad (by decide), value_numeral hval (by decide)]
  rw [← hvalue n, he, hvalue m]

theorem decodes_printfx (width : ℕ) (ht : t.head?.map isxdigit = some false) :
    Decodes (fun _ : ℕ => True) fun n => printfx width n ++ t :=
  decodes_hex (by decide) (by decide) width ht

theorem decodes_printfX (width : ℕ) (ht : t.head?.map isxdigit = some false) :
    Decodes (fun _ : ℕ => True) fun n => printfX width n ++ t :=
  decodes_hex (by decide) (by decide) width ht

end Printf
