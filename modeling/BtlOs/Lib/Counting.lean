import Mathlib.Algebra.GroupWithZero.Nat
import Mathlib.Algebra.Order.BigOperators.Group.Finset
import Mathlib.Data.Finset.Card
import Mathlib.Order.Interval.Finset.Nat

/-! # Counting in lists

The entries of a list by a key: the numbers of entries with each of some keys add up to the number
of entries with one of them (`sum_countP`).  An increasing list between two bounds is no longer than
their distance (`length_le_of_pairwise`). -/

namespace Counting

variable {α κ : Type} [DecidableEq κ]

theorem sum_ite {l : List κ} (hl : l.Nodup) (k : κ) :
    (l.map fun p => if k = p then 1 else 0).sum = if k ∈ l then 1 else 0 := by
  induction l with
  | nil => simp
  | cons p l ih =>
      obtain ⟨hp, hl⟩ := List.nodup_cons.mp hl
      rw [List.map_cons, List.sum_cons, ih hl]
      by_cases hk : k = p
      · subst hk
        simp [hp]
      · simp [hk]

omit [DecidableEq κ] in
theorem sum_map_add (l : List κ) (f g : κ → ℕ) :
    (l.map fun p => f p + g p).sum = (l.map f).sum + (l.map g).sum := by
  induction l with
  | nil => rfl
  | cons p l ih =>
      simp only [List.map_cons, List.sum_cons, ih]
      omega

omit [DecidableEq κ] in
theorem sum_map_change {l : List κ} (hl : l.Nodup) {a : κ} (ha : a ∈ l) {f g : κ → ℕ}
    (hfg : ∀ b ∈ l, b ≠ a → g b = f b) : (l.map g).sum + f a = (l.map f).sum + g a := by
  induction l with
  | nil => cases ha
  | cons b l ih =>
      obtain ⟨hb, hl⟩ := List.nodup_cons.mp hl
      simp only [List.map_cons, List.sum_cons]
      cases List.mem_cons.mp ha with
      | inl he =>
          subst he
          have hsame : l.map g = l.map f := List.map_congr_left fun c hc =>
            hfg c (List.mem_cons_of_mem _ hc) fun he => hb (he ▸ hc)
          rw [hsame]
          omega
      | inr hmem =>
          have hne : b ≠ a := fun he => hb (he ▸ hmem)
          have hrest := ih hl hmem fun c hc => hfg c (List.mem_cons_of_mem _ hc)
          have hhead := hfg b List.mem_cons_self hne
          omega

/-- **Counting by keys.** -/
theorem sum_countP {l : List κ} (hl : l.Nodup) (key : α → κ) (es : List α) :
    (l.map fun p => es.countP fun e => key e = p).sum = es.countP fun e => key e ∈ l := by
  induction es with
  | nil => simp
  | cons e es ih =>
      simp only [List.countP_cons, decide_eq_true_eq, sum_map_add, ih, sum_ite hl]

theorem length_le_of_pairwise {l : List ℕ} {lo hi : ℕ} (hl : l.Pairwise (· < ·))
    (hlo : ∀ x ∈ l, lo ≤ x) (hhi : ∀ x ∈ l, x < hi) : l.length ≤ hi - lo := by
  have hnodup : l.Nodup := hl.imp Nat.ne_of_lt
  rw [← List.toFinset_card_of_nodup hnodup, ← Nat.card_Ico]
  apply Finset.card_le_card
  intro x hx
  have hx := List.mem_toFinset.mp hx
  exact Finset.mem_Ico.mpr ⟨hlo x hx, hhi x hx⟩

end Counting
