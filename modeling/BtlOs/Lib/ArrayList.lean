import Mathlib.Data.List.Basic
import Mathlib.Logic.Function.Basic

/-! # Lists in arrays

An array of pointers that is used as a list: the cells below the length hold the elements, and
`Holds` says which ones.  The operations are the loops by which C code does without a list type:
`shift` closes a gap, `find` searches, `putLast` and `removeAt` append and remove.  Each has one
rule that names the list operation it implements. -/

namespace ArrayList

variable {α : Type} {f : ℕ → Option α} {l : List α}

/-- The first cells of `f` hold the elements of `l`. -/
def Holds (f : ℕ → Option α) (l : List α) : Prop := ∀ i < l.length, f i = l[i]?

/-- The elements in the first `n` cells. -/
def toList (f : ℕ → Option α) (n : ℕ) : List α := (List.range n).filterMap f

/-- `n` rounds of `a[i] = a[i + 1]; i++`. -/
def shift : ℕ → ℕ → (ℕ → Option α) → ℕ → Option α
  | _, 0, f => f
  | i, n + 1, f => shift (i + 1) n (Function.update f i (f (i + 1)))

/-- The first of the `n` cells from `i` on whose element satisfies `P`. -/
def find (f : ℕ → Option α) (P : α → Bool) : ℕ → ℕ → Option ℕ
  | _, 0 => none
  | i, n + 1 => if (f i).any P then some i else find f P (i + 1) n

/-- The element in the first of the `n` cells that satisfies `P`. -/
def first (f : ℕ → Option α) (P : α → Bool) (n : ℕ) : Option α := (find f P 0 n).bind f

def putLast (f : ℕ → Option α) (n : ℕ) (x : α) : ℕ → Option α := Function.update f n (some x)

/-- Removal of cell `i` of `n`. -/
def removeAt (f : ℕ → Option α) (n i : ℕ) : ℕ → Option α :=
  Function.update (shift i (n - 1 - i) f) (n - 1) none

/-! ### Rules -/

theorem holds_toList {n : ℕ} (h : ∀ i < n, (f i).isSome = true) :
    Holds f (toList f n) ∧ (toList f n).length = n := by
  induction n with
  | zero => exact ⟨fun i hi => absurd hi (by simp [toList]), rfl⟩
  | succ n ih =>
      obtain ⟨hold, hlen⟩ := ih fun i hi => h i (by omega)
      obtain ⟨x, hx⟩ := Option.isSome_iff_exists.mp (h n (by omega))
      have hsucc : toList f (n + 1) = toList f n ++ [x] := by
        simp [toList, List.range_succ, List.filterMap_append, hx]
      constructor
      · intro i hi
        rw [hsucc] at hi ⊢
        simp only [List.length_append, List.length_singleton, hlen] at hi
        by_cases he : i < n
        · rw [List.getElem?_append_left (by omega)]
          exact hold i (by omega)
        · obtain rfl : i = n := by omega
          rw [List.getElem?_append_right (by omega), hlen, hx]
          simp
      · rw [hsucc]
        simp [hlen]

theorem Holds.toList_eq (h : Holds f l) : toList f l.length = l := by
  have hsome : ∀ i < l.length, (f i).isSome = true := by
    intro i hi
    rw [h i hi, List.getElem?_eq_getElem hi]
    rfl
  obtain ⟨hold, hlen⟩ := holds_toList hsome
  apply List.ext_getElem?
  intro i
  by_cases hi : i < l.length
  · rw [← hold i (by omega), h i hi]
  · rw [List.getElem?_eq_none (by omega), List.getElem?_eq_none (by omega)]

theorem shift_apply (n : ℕ) : ∀ (i : ℕ) (f : ℕ → Option α) (j : ℕ),
    shift i n f j = if i ≤ j ∧ j < i + n then f (j + 1) else f j := by
  induction n with
  | zero =>
      intro i f j
      rw [if_neg (by omega)]
      rfl
  | succ n ih =>
      intro i f j
      rw [shift, ih]
      by_cases hj : j = i
      · subst hj
        rw [if_neg (by omega), if_pos (by omega), Function.update_self]
      · by_cases hin : i + 1 ≤ j ∧ j < i + 1 + n
        · rw [if_pos hin, if_pos (by omega), Function.update_of_ne (by omega)]
        · rw [if_neg hin, if_neg (by omega), Function.update_of_ne hj]

theorem find_lt {P : α → Bool} (n : ℕ) : ∀ {i j : ℕ}, find f P i n = some j → j < i + n := by
  induction n with
  | zero =>
      intro i j h
      cases h
  | succ n ih =>
      intro i j h
      rw [find] at h
      split_ifs at h
      · obtain rfl := Option.some.inj h
        omega
      · have := ih h
        omega

theorem find_eq (P : α → Bool) (l : List α) : ∀ i, (∀ k < l.length, f (i + k) = l[k]?) →
    find f P i l.length = (l.findIdx? P).map (· + i) := by
  induction l with
  | nil => exact fun _ _ => rfl
  | cons x l ih =>
      intro i h
      have hx : f i = some x := h 0 (by simp)
      have htail : ∀ k < l.length, f (i + 1 + k) = l[k]? := by
        intro k hk
        rw [show i + 1 + k = i + (k + 1) by omega, h (k + 1) (by simpa using hk),
          List.getElem?_cons_succ]
      rw [List.length_cons, find, hx, List.findIdx?_cons, ih (i + 1) htail]
      by_cases hP : P x = true
      · simp [hP]
      · simp only [Option.any_some, hP, if_false, Option.map_map, Bool.false_eq_true]
        apply congrArg (fun g => Option.map g (l.findIdx? P))
        funext k
        simp only [Function.comp_apply]
        omega

theorem Holds.find (h : Holds f l) (P : α → Bool) : find f P 0 l.length = l.findIdx? P := by
  rw [find_eq P l 0 fun k hk => by rw [Nat.zero_add]; exact h k hk]
  simp

theorem Holds.first (h : Holds f l) (P : α → Bool) : first f P l.length = l.find? P := by
  unfold ArrayList.first
  rw [h.find P, List.find?_eq_bind_findIdx?_getElem?]
  cases hi : l.findIdx? P with
  | none => rfl
  | some i =>
      obtain ⟨hlt, _⟩ := List.findIdx?_eq_some_iff_getElem.mp hi
      exact h i hlt

theorem Holds.putLast (h : Holds f l) (x : α) : Holds (putLast f l.length x) (l ++ [x]) := by
  intro i hi
  rw [List.length_append, List.length_singleton] at hi
  unfold ArrayList.putLast
  by_cases he : i = l.length
  · subst he
    rw [Function.update_self]
    simp
  · rw [Function.update_of_ne he, List.getElem?_append_left (by omega)]
    exact h i (by omega)

theorem Holds.removeAt (h : Holds f l) {i : ℕ} (hi : i < l.length) :
    Holds (removeAt f l.length i) (l.eraseIdx i) := by
  intro j hj
  rw [List.length_eraseIdx_of_lt hi] at hj
  unfold ArrayList.removeAt
  rw [Function.update_of_ne (by omega), shift_apply, List.getElem?_eraseIdx]
  by_cases hij : j < i
  · rw [if_neg (by omega), if_pos hij]
    exact h j (by omega)
  · rw [if_pos (by omega), if_neg hij]
    exact h (j + 1) (by omega)

/-! ### Removal of the first match -/

section

variable {P Q : α → Bool}

theorem eraseP_key {κ : Type} [DecidableEq κ] (key : α → κ) {x : α} (hkeys : (l.map key).Nodup)
    (hx : l.find? P = some x) : l.eraseP (fun y => key y = key x) = l.eraseP P := by
  obtain ⟨hP, l₁, l₂, rfl, hl₁⟩ := List.find?_eq_some_iff_append.mp hx
  have hne : ∀ y ∈ l₁, ¬ decide (key y = key x) = true := by
    intro y hy he
    rw [List.map_append, List.nodup_append] at hkeys
    exact hkeys.2.2 (key y) (List.mem_map_of_mem hy) (key x) (by simp) (of_decide_eq_true he)
  rw [List.eraseP_append_right _ hne,
    List.eraseP_append_right _ fun y hy => by simpa using hl₁ y hy,
    List.eraseP_cons_of_pos (by simp), List.eraseP_cons_of_pos hP]

theorem forall_mem_eraseP_iff (hnodup : l.Nodup) :
    (∀ x ∈ l.eraseP P, ¬ Q x = true) ↔ ∀ x ∈ l, Q x = true → l.find? P = some x := by
  cases hf : l.find? P with
  | none =>
      rw [List.eraseP_of_forall_not (List.find?_eq_none.mp hf)]
      simp
  | some y =>
      obtain ⟨hP, l₁, l₂, rfl, hl₁⟩ := List.find?_eq_some_iff_append.mp hf
      have hy : y ∉ l₁ ∧ y ∉ l₂ := by
        rw [List.nodup_append, List.nodup_cons] at hnodup
        exact ⟨fun hmem => hnodup.2.2 y hmem y List.mem_cons_self rfl, hnodup.2.1.1⟩
      rw [List.eraseP_append_right _ fun x hx => by simpa using hl₁ x hx,
        List.eraseP_cons_of_pos hP]
      constructor
      · intro h x hx hQ
        by_contra hne
        have hx' : x ∈ l₁ ++ l₂ := by
          simp only [List.mem_append, List.mem_cons] at hx ⊢
          exact hx.imp_right fun hx => hx.resolve_left fun he => hne (congrArg some he.symm)
        exact h x hx' hQ
      · intro h x hx hQ
        have hx' : x ∈ l₁ ++ y :: l₂ := by
          simp only [List.mem_append, List.mem_cons] at hx ⊢
          exact hx.imp_right .inr
        obtain rfl := Option.some.inj (h x hx' hQ)
        exact (List.mem_append.mp hx).elim hy.1 hy.2

/-- The removal keeps the others and their order. -/
theorem filter_eraseP (h : ∀ x ∈ l, P x = true → Q x = false) :
    (l.eraseP P).filter Q = l.filter Q := by
  induction l with
  | nil => rfl
  | cons x l ih =>
      by_cases hP : P x = true
      · rw [List.eraseP_cons_of_pos hP, List.filter_cons_of_neg (by simp [h x (by simp) hP])]
      · have htail := ih fun y hy => h y (List.mem_cons_of_mem x hy)
        rw [List.eraseP_cons_of_neg hP, List.filter_cons, List.filter_cons, htail]

end

end ArrayList
