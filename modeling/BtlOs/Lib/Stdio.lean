import BtlOs.Lib.CLang
import Mathlib.Data.List.DropRight

/-! # Formatted input of C

The part of `<stdio.h>` that reads text: `%s`, `%d` and `%u` conversions, white space in a format,
and lines.  A stream is the text that is left.  A conversion that fails ends the call of `scanf`:
it has assigned the values before it, and what it looked at is gone from the stream.

A text that holds words and numbers is described apart from that (`Word`, `Numeral`, `Numbers`);
`scanWord_eq_some` and `scan_of_numbers` say that `scanf` reads them.  `Number` and `Reads` describe
all that `scanf` takes for numbers (`scanNumber_eq_some`, `scan_of_reads`, `reads_of_scan`). -/

namespace Stdio

open CLang

abbrev Text := List (BitVec 8)

variable {s s' w rest : Text} {z : ℤ}

/-! ### Characters -/

def isspace (b : BitVec 8) : Bool := b.toNat = 32 || 9 ≤ b.toNat && b.toNat ≤ 13

def isdigit (b : BitVec 8) : Bool := 48 ≤ b.toNat && b.toNat ≤ 57

/-- A string literal. -/
def chars (s : String) : Text := s.toList.map fun c => BitVec.ofNat 8 c.toNat

/-- The string that starts an array: what stands before the first `'\0'`. -/
def cStr (s : Text) : Text := s.takeWhile (· ≠ 0)

/-- A white-space directive. -/
def skipSpaces (s : Text) : Text := s.dropWhile isspace

/-! ### Conversions -/

/-- `%s`: the next word; nothing is assigned at the end of the stream. -/
def scanWord (s : Text) : Option (Text × Text) :=
  let s := skipSpaces s
  if s = [] then none else some (s.takeWhile (!isspace ·), s.dropWhile (!isspace ·))

/-- An optional sign. -/
def sign : Text → ℤ × Text
  | [] => (1, [])
  | b :: s => if b = 45 then (-1, s) else if b = 43 then (1, s) else (1, b :: s)

def digitsValue (ds : Text) : ℕ := ds.foldl (fun n d => 10 * n + (d.toNat - 48)) 0

/-- `%d` and `%u` without the assignment: no number where no digit follows the sign. -/
def scanNumber (s : Text) : Option ℤ × Text :=
  let (sgn, s) := sign (skipSpaces s)
  let ds := s.takeWhile isdigit
  (if ds = [] then none else some (sgn * digitsValue ds), s.dropWhile isdigit)

/-- The conversions to 32 bits. -/
inductive Conv where
  | d
  | u
deriving DecidableEq, Repr

/-- The result is defined for these numbers; `%u` takes a sign and converts a negative number. -/
def Conv.Holds : Conv → ℤ → Prop
  | d, z => -2 ^ 31 ≤ z ∧ z < 2 ^ 31
  | u, z => -2 ^ 32 < z ∧ z < 2 ^ 32

instance (c : Conv) (z : ℤ) : Decidable (c.Holds z) :=
  match c with
  | .d => inferInstanceAs (Decidable (_ ∧ _))
  | .u => inferInstanceAs (Decidable (_ ∧ _))

inductive Directive where
  | space
  | conv (c : Conv)
deriving DecidableEq, Repr

/-- `fscanf` and `sscanf`: the values that are assigned, and what is left. -/
def scan : List Directive → Text → Exec (List ℕ × Text)
  | [], s => .ok ([], s)
  | .space :: fmt, s => scan fmt (skipSpaces s)
  | .conv c :: fmt, s =>
      match scanNumber s with
      | (none, rest) => .ok ([], rest)
      | (some z, rest) => do
          require (c.Holds z)
          let (values, rest) ← scan fmt rest
          .ok (uint32 z :: values, rest)

/-- At most `n` characters, up to the first newline. -/
def takeLine : ℕ → Text → Text × Text
  | 0, s => ([], s)
  | _, [] => ([], [])
  | n + 1, b :: s =>
      if b = 10 then ([b], s)
      else
        let (line, rest) := takeLine n s
        (b :: line, rest)

/-- `fgets` with a buffer of `size` characters; `none` for `NULL`. -/
def fgets (size : ℕ) (s : Text) : Option (Text × Text) :=
  if s = [] then none else some (takeLine (size - 1) s)

/-! ### Words and numbers in a text -/

/-- The text starts with the word `w`, after white space. -/
structure Word (s w rest : Text) : Prop where
  spaces : ∃ sp, s = sp ++ (w ++ rest) ∧ ∀ b ∈ sp, isspace b = true
  ne_nil : w ≠ []
  word : ∀ b ∈ w, isspace b = false
  ends : ∀ b ∈ rest.head?, isspace b = true

/-- The word is the number `z`: an optional sign and digits. -/
structure Numeral (w : Text) (z : ℤ) : Prop where
  ne_nil : (sign w).2 ≠ []
  digits : ∀ b ∈ (sign w).2, isdigit b = true
  value : z = (sign w).1 * digitsValue (sign w).2

/-- The text starts with one number for each conversion. -/
inductive Numbers : List Conv → Text → List ℕ → Text → Prop
  | nil {s : Text} : Numbers [] s [] s
  | cons {c : Conv} {cs : List Conv} {s w mid rest : Text} {z : ℤ} {values : List ℕ} :
      Word s w mid → Numeral w z → c.Holds z → Numbers cs mid values rest →
        Numbers (c :: cs) s (uint32 z :: values) rest

/-- The conversions of a format. -/
def convs (fmt : List Directive) : List Conv :=
  fmt.filterMap fun
    | .space => none
    | .conv c => some c

/-! ### White space -/

@[simp] theorem skipSpaces_skipSpaces (s : Text) : skipSpaces (skipSpaces s) = skipSpaces s :=
  List.dropWhile_idempotent isspace s

theorem Word.skipSpaces_eq (h : Word s w rest) : skipSpaces s = w ++ rest := by
  obtain ⟨sp, rfl, hsp⟩ := h.spaces
  unfold skipSpaces
  rw [List.dropWhile_append_of_pos hsp]
  cases hw : w with
  | nil => exact absurd hw h.ne_nil
  | cons b w' =>
      have hb := h.word b (by simp [hw])
      rw [List.cons_append, List.dropWhile_cons_of_neg (by simp [hb])]

theorem Word.rest_takeWhile (h : Word s w rest) {p : BitVec 8 → Bool}
    (hp : ∀ b, isspace b = true → p b = false) :
    rest.takeWhile p = [] ∧ rest.dropWhile p = rest := by
  cases hr : rest with
  | nil => exact ⟨rfl, rfl⟩
  | cons b rest' =>
      have hb := hp b (h.ends b (by simp [hr]))
      exact ⟨List.takeWhile_cons_of_neg (by simp [hb]), List.dropWhile_cons_of_neg (by simp [hb])⟩

theorem scanWord_eq_some : scanWord s = some (w, rest) ↔ Word s w rest := by
  unfold scanWord
  constructor
  · intro h
    obtain ⟨hs, h⟩ := Option.ite_none_left_eq_some.mp h
    obtain ⟨rfl, rfl⟩ := Prod.mk.inj (Option.some.inj h)
    have hfirst : ∀ b ∈ (skipSpaces s).head?, isspace b = false := by
      intro b hb
      have := List.head?_dropWhile_not isspace s
      rwa [show (s.dropWhile isspace).head? = some b from hb] at this
    refine ⟨⟨s.takeWhile isspace, ?_, fun c hc => List.mem_takeWhile_imp hc⟩, ?_, ?_, ?_⟩
    · rw [List.takeWhile_append_dropWhile]
      exact List.takeWhile_append_dropWhile.symm
    · cases hc : skipSpaces s with
      | nil => exact absurd hc hs
      | cons b s₁ =>
          rw [List.takeWhile_cons_of_pos (by simp [hfirst b (by simp [hc])])]
          exact List.cons_ne_nil _ _
    · intro c hc
      simpa using List.mem_takeWhile_imp hc
    · intro c hc
      have := List.head?_dropWhile_not (!isspace ·) (skipSpaces s)
      rw [Option.mem_def.mp hc] at this
      simpa using this
  · intro h
    have hword : ∀ b ∈ w, (!isspace b) = true := fun b hb => by simp [h.word b hb]
    obtain ⟨htake, hdrop⟩ := h.rest_takeWhile (p := (!isspace ·)) (by simp)
    have hne : w ++ rest ≠ [] := fun he => h.ne_nil (List.append_eq_nil_iff.mp he).1
    dsimp only
    rw [h.skipSpaces_eq, if_neg hne, List.takeWhile_append_of_pos hword,
      List.dropWhile_append_of_pos hword, htake, hdrop, List.append_nil]

theorem Word.of_skipSpaces (h : Word s w rest) (hs : skipSpaces s' = skipSpaces s) :
    Word s' w rest := by
  rw [← scanWord_eq_some] at h ⊢
  rw [← h]
  unfold scanWord
  rw [hs]

theorem scanWord_nil : scanWord [] = none := rfl

theorem not_word_nil : ¬ Word [] w rest := by
  rw [← scanWord_eq_some, scanWord_nil]
  exact Option.some_ne_none _ ∘ Eq.symm

/-! ### Numbers -/

theorem not_isspace_of_isdigit {b : BitVec 8} (h : isdigit b = true) : isspace b = false := by
  unfold isdigit at h
  unfold isspace
  simp only [Bool.and_eq_true, decide_eq_true_eq] at h
  simp only [Bool.or_eq_false_iff, Bool.and_eq_false_iff, decide_eq_false_iff_not]
  omega

theorem sign_append (hw : w ≠ []) : sign (w ++ rest) = ((sign w).1, (sign w).2 ++ rest) := by
  cases w with
  | nil => exact absurd rfl hw
  | cons b w =>
      rw [List.cons_append, sign, sign]
      split_ifs <;> rfl

/-- A word that is a number is read as this number. -/
theorem Word.scanNumber (h : Word s w rest) (hz : Numeral w z) :
    scanNumber s = (some z, rest) := by
  obtain ⟨htake, hdrop⟩ := h.rest_takeWhile (p := isdigit) fun b hb => by
    by_contra hd
    rw [not_isspace_of_isdigit (by simpa using hd)] at hb
    cases hb
  unfold Stdio.scanNumber
  rw [h.skipSpaces_eq, sign_append h.ne_nil]
  dsimp only
  rw [List.takeWhile_append_of_pos hz.digits, List.dropWhile_append_of_pos hz.digits, htake, hdrop,
    List.append_nil, if_neg hz.ne_nil, hz.value]

/-- `scanf` reads the numbers of a text.  The format may skip the white space after them. -/
theorem scan_of_numbers (fmt : List Directive) {values : List ℕ}
    (h : Numbers (convs fmt) s values rest) (hs : skipSpaces s' = skipSpaces s) :
    ∃ rest', scan fmt s' = .ok (values, rest') ∧ skipSpaces rest' = skipSpaces rest := by
  induction fmt generalizing s s' values with
  | nil =>
      cases h
      exact ⟨s', rfl, hs⟩
  | cons directive fmt ih =>
      cases directive with
      | space =>
          rw [scan]
          exact ih h (by rw [skipSpaces_skipSpaces, hs])
      | conv c =>
          cases h with
          | cons hw hz hc hrest =>
              obtain ⟨rest', hscan, hskip⟩ := ih hrest rfl
              refine ⟨rest', ?_, hskip⟩
              rw [scan, (hw.of_skipSpaces hs).scanNumber hz]
              simp only [require_pos hc, hscan, ok_bind]

theorem scan_length_le {fmt : List Directive} {values : List ℕ}
    (h : scan fmt s = .ok (values, rest)) : values.length ≤ (convs fmt).length := by
  induction fmt generalizing s values rest with
  | nil =>
      obtain ⟨rfl, _⟩ := Prod.mk.inj (Except.ok.inj h)
      exact Nat.zero_le _
  | cons directive fmt ih =>
      cases directive with
      | space => exact ih h
      | conv c =>
          rw [scan] at h
          split at h
          · obtain ⟨rfl, _⟩ := Prod.mk.inj (Except.ok.inj h)
            exact Nat.zero_le _
          · obtain ⟨_, _, h⟩ := bind_eq_ok.mp h
            obtain ⟨⟨vs, rest₁⟩, hrest, h⟩ := bind_eq_ok.mp h
            obtain ⟨rfl, _⟩ := Prod.mk.inj (Except.ok.inj h)
            exact Nat.succ_le_succ (ih hrest)

theorem Numbers.length_eq {cs : List Conv} {values : List ℕ} (h : Numbers cs s values rest) :
    values.length = cs.length := by
  induction h with
  | nil => rfl
  | cons _ _ _ _ ih => exact congrArg Nat.succ ih

/-! ### Strings -/

theorem cStr_append (h : (0 : BitVec 8) ∉ w) : cStr (w ++ rest) = w ++ cStr rest :=
  List.takeWhile_append_of_pos fun _ hb => decide_eq_true fun he => h (he ▸ hb)

theorem cStr_of_not_mem (h : (0 : BitVec 8) ∉ w) : cStr w = w := by
  have hw : cStr (w ++ []) = w ++ cStr [] := cStr_append h
  rwa [List.append_nil, show cStr [] = [] from rfl, List.append_nil] at hw

theorem Word.cStr (h : Word s w rest) (h₀ : (0 : BitVec 8) ∉ w) : Word (cStr s) w (cStr rest) := by
  obtain ⟨sp, rfl, hsp⟩ := h.spaces
  have hzero : (0 : BitVec 8) ∉ sp := fun hm => absurd (hsp 0 hm) (by decide)
  refine ⟨⟨sp, ?_, hsp⟩, h.ne_nil, h.word, ?_⟩
  · rw [cStr_append hzero, cStr_append h₀]
  · intro b hb
    rw [Stdio.cStr, List.head?_takeWhile] at hb
    exact h.ends b (Option.mem_filter_iff.mp hb).1

theorem Numeral.zero_not_mem (h : Numeral w z) : (0 : BitVec 8) ∉ w := by
  intro hm
  have hdigits := h.digits
  cases w with
  | nil => cases hm
  | cons b w =>
      have hrest : (0 : BitVec 8) ∉ (sign (b :: w)).2 := fun hm => absurd (hdigits 0 hm) (by decide)
      rw [sign] at hrest
      split_ifs at hrest with h₁ h₂
      · subst h₁
        exact hrest ((List.mem_cons.mp hm).resolve_left (by decide))
      · subst h₂
        exact hrest ((List.mem_cons.mp hm).resolve_left (by decide))
      · exact hrest hm

theorem Numbers.cStr {cs : List Conv} {values : List ℕ} (h : Numbers cs s values rest) :
    Numbers cs (cStr s) values (cStr rest) := by
  induction h with
  | nil => exact .nil
  | cons hw hz hc _ ih => exact .cons (hw.cStr hz.zero_not_mem) hz hc ih

/-! ### One reading of a text -/

theorem Word.unique {w' rest' : Text} (h : Word s w rest) (h' : Word s w' rest') :
    w = w' ∧ rest = rest' := by
  rw [← scanWord_eq_some] at h h'
  exact Prod.mk.inj (Option.some.inj (h.symm.trans h'))

theorem Numbers.unique {cs : List Conv} {values values' : List ℕ} {rest' : Text}
    (h : Numbers cs s values rest) (h' : Numbers cs s values' rest') :
    values = values' ∧ rest = rest' := by
  induction h generalizing values' with
  | nil =>
      cases h'
      exact ⟨rfl, rfl⟩
  | cons hw hz _ _ ih =>
      cases h' with
      | cons hw' hz' _ hrest' =>
          obtain ⟨rfl, rfl⟩ := hw.unique hw'
          obtain ⟨rfl, hrest⟩ := ih hrest'
          rw [hz.value, hz'.value]
          exact ⟨rfl, hrest⟩

/-! ### What a conversion reads -/

/-- The text starts with the number `z`, after white space, up to a character that is no digit. -/
structure Number (s : Text) (z : ℤ) (rest : Text) : Prop where
  number : ∃ sp w, s = sp ++ (w ++ rest) ∧ (∀ b ∈ sp, isspace b = true) ∧ Numeral w z
  ends : ∀ b ∈ rest.head?, isdigit b = false

/-- A number is an optional sign and digits. -/
theorem Numeral.of_sign {p ds : Text} {sgn : ℤ} (hds : ds ≠ []) (hdigit : ∀ b ∈ ds, isdigit b = true)
    (hp : p = [] ∧ sgn = 1 ∨ p = [45] ∧ sgn = -1 ∨ p = [43] ∧ sgn = 1) :
    Numeral (p ++ ds) (sgn * digitsValue ds) := by
  have hsign : sign (p ++ ds) = (sgn, ds) := by
    rcases hp with ⟨rfl, rfl⟩ | ⟨rfl, rfl⟩ | ⟨rfl, rfl⟩
    · cases hd : ds with
      | nil => exact absurd hd hds
      | cons b ds' =>
          have hb := hdigit b (by simp [hd])
          have h₄₅ : b ≠ 45 := by
            rintro rfl
            exact absurd hb (by decide)
          have h₄₃ : b ≠ 43 := by
            rintro rfl
            exact absurd hb (by decide)
          rw [List.nil_append, sign, if_neg h₄₅, if_neg h₄₃]
    · rfl
    · rfl
  exact ⟨by rwa [hsign], by rwa [hsign], by rw [hsign]⟩

theorem sign_split (s : Text) : ∃ p, s = p ++ (sign s).2 ∧ (p = [] ∧ (sign s).1 = 1 ∨
    p = [45] ∧ (sign s).1 = -1 ∨ p = [43] ∧ (sign s).1 = 1) := by
  cases s with
  | nil => exact ⟨[], rfl, .inl ⟨rfl, rfl⟩⟩
  | cons b s =>
      simp only [sign]
      split_ifs with h₄₅ h₄₃
      · exact ⟨[45], by rw [h₄₅]; rfl, .inr (.inl ⟨rfl, rfl⟩)⟩
      · exact ⟨[43], by rw [h₄₃]; rfl, .inr (.inr ⟨rfl, rfl⟩)⟩
      · exact ⟨[], rfl, .inl ⟨rfl, rfl⟩⟩

theorem Numeral.head (h : Numeral w z) : ∃ b w', w = b :: w' ∧ isspace b = false := by
  cases w with
  | nil => exact absurd rfl h.ne_nil
  | cons b w =>
      refine ⟨b, w, rfl, ?_⟩
      have hdigits := h.digits
      simp only [sign] at hdigits
      split_ifs at hdigits with h₄₅ h₄₃
      · rw [h₄₅]
        rfl
      · rw [h₄₃]
        rfl
      · exact not_isspace_of_isdigit (hdigits b List.mem_cons_self)

theorem Number.skipSpaces_eq (h : Number s z rest) :
    ∃ w, skipSpaces s = w ++ rest ∧ Numeral w z := by
  obtain ⟨sp, w, rfl, hsp, hw⟩ := h.number
  obtain ⟨b, w', rfl, hb⟩ := hw.head
  refine ⟨b :: w', ?_, hw⟩
  unfold skipSpaces
  rw [List.dropWhile_append_of_pos hsp, List.cons_append, List.dropWhile_cons_of_neg (by simp [hb])]

theorem scanNumber_eq_some : scanNumber s = (some z, rest) ↔ Number s z rest := by
  constructor
  · intro h
    obtain ⟨p, hp, hsign⟩ := sign_split (skipSpaces s)
    unfold scanNumber at h
    generalize hu : sign (skipSpaces s) = u at h hp hsign
    obtain ⟨hz, hrest⟩ := Prod.mk.inj h
    obtain ⟨hds, hz⟩ := Option.ite_none_left_eq_some.mp hz
    have hnum := Numeral.of_sign hds (fun b hb => List.mem_takeWhile_imp hb) hsign
    rw [Option.some.inj hz] at hnum
    refine ⟨⟨s.takeWhile isspace, _, ?_, fun b hb => List.mem_takeWhile_imp hb, hnum⟩, ?_⟩
    · rw [← hrest, List.append_assoc, List.takeWhile_append_dropWhile, ← hp]
      exact List.takeWhile_append_dropWhile.symm
    · rw [← hrest]
      intro b hb
      have := List.head?_dropWhile_not isdigit u.2
      rwa [Option.mem_def.mp hb] at this
  · intro h
    obtain ⟨w, hs, hw⟩ := h.skipSpaces_eq
    have hne : w ≠ [] := by
      obtain ⟨b, w', rfl, _⟩ := hw.head
      exact List.cons_ne_nil _ _
    have hrest : rest.takeWhile isdigit = [] ∧ rest.dropWhile isdigit = rest := by
      cases hr : rest with
      | nil => exact ⟨rfl, rfl⟩
      | cons b rest' =>
          have hb := h.ends b (by simp [hr])
          exact ⟨List.takeWhile_cons_of_neg (by simp [hb]), List.dropWhile_cons_of_neg (by simp [hb])⟩
    unfold scanNumber
    rw [hs, sign_append hne]
    dsimp only
    rw [List.takeWhile_append_of_pos hw.digits, List.dropWhile_append_of_pos hw.digits, hrest.1,
      hrest.2, List.append_nil, if_neg hw.ne_nil, hw.value]

theorem Number.of_skipSpaces (h : Number s z rest) (hs : skipSpaces s' = skipSpaces s) :
    Number s' z rest := by
  rw [← scanNumber_eq_some] at h ⊢
  rw [← h]
  unfold scanNumber
  rw [hs]

/-- The text starts with one number for each conversion. -/
inductive Reads : List Conv → Text → List ℕ → Text → Prop
  | nil {s : Text} : Reads [] s [] s
  | cons {c : Conv} {cs : List Conv} {s mid rest : Text} {z : ℤ} {values : List ℕ} :
      Number s z mid → c.Holds z → Reads cs mid values rest →
        Reads (c :: cs) s (uint32 z :: values) rest

theorem scan_of_reads (fmt : List Directive) {values : List ℕ}
    (h : Reads (convs fmt) s values rest) (hs : skipSpaces s' = skipSpaces s) :
    ∃ rest', scan fmt s' = .ok (values, rest') ∧ skipSpaces rest' = skipSpaces rest := by
  induction fmt generalizing s s' values with
  | nil =>
      cases h
      exact ⟨s', rfl, hs⟩
  | cons directive fmt ih =>
      cases directive with
      | space =>
          rw [scan]
          exact ih h (by rw [skipSpaces_skipSpaces, hs])
      | conv c =>
          cases h with
          | cons hz hc hrest =>
              obtain ⟨rest', hscan, hskip⟩ := ih hrest rfl
              refine ⟨rest', ?_, hskip⟩
              rw [scan, scanNumber_eq_some.mpr (hz.of_skipSpaces hs)]
              simp only [require_pos hc, hscan, ok_bind]

theorem reads_of_scan (fmt : List Directive) {values : List ℕ} (hs : skipSpaces s' = skipSpaces s)
    (h : scan fmt s = .ok (values, rest)) (hlen : values.length = (convs fmt).length) :
    ∃ rest', Reads (convs fmt) s' values rest' ∧ skipSpaces rest' = skipSpaces rest := by
  induction fmt generalizing s s' values with
  | nil =>
      obtain ⟨rfl, rfl⟩ := Prod.mk.inj (Except.ok.inj h)
      exact ⟨s', .nil, hs⟩
  | cons directive fmt ih =>
      cases directive with
      | space =>
          rw [scan] at h
          exact ih (by rw [skipSpaces_skipSpaces, hs]) h hlen
      | conv c =>
          unfold scan at h
          split at h
          · obtain ⟨rfl, _⟩ := Prod.mk.inj (Except.ok.inj h)
            simp [convs] at hlen
          · rename_i z mid hscan
            obtain ⟨_, hc, h⟩ := bind_eq_ok.mp h
            obtain ⟨⟨values', rest₁⟩, hvalues, h⟩ := bind_eq_ok.mp h
            obtain ⟨rfl, rfl⟩ := Prod.mk.inj (Except.ok.inj h)
            obtain ⟨rest', hreads, hskip⟩ := ih rfl hvalues (Nat.succ.inj hlen)
            exact ⟨rest', .cons ((scanNumber_eq_some.mp hscan).of_skipSpaces hs)
              (require_eq_ok.mp hc) hreads, hskip⟩

end Stdio
