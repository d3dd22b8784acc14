import Mathlib.Logic.Function.Basic

/-! # Tables

A table is a function `κ → Option α`: an entry is entered by an update with `some` and removed by
an update with `none`.  A property of all entries is kept by an update that keeps it for the entry
it writes. -/

namespace Table

variable {κ α : Type} [DecidableEq κ] {f : κ → Option α} {p : κ}

theorem update_eq_some {q : κ} {v : Option α} {x : α} :
    Function.update f p v q = some x ↔ q = p ∧ v = some x ∨ q ≠ p ∧ f q = some x := by
  by_cases h : q = p
  · subst h
    simp
  · simp [h]

theorem update_of_ne {q : κ} {v : Option α} {x : α} (hne : q ≠ p) (h : f q = some x) :
    Function.update f p v q = some x :=
  update_eq_some.mpr (.inr ⟨hne, h⟩)

variable {P : κ → α → Prop}

theorem forall_update {v : Option α} (hnew : ∀ x, v = some x → P p x)
    (hold : ∀ q x, q ≠ p → f q = some x → P q x) (q : κ) (x : α)
    (hq : Function.update f p v q = some x) : P q x := by
  cases update_eq_some.mp hq with
  | inl h =>
      obtain ⟨rfl, hv⟩ := h
      exact hnew x hv
  | inr h => exact hold q x h.1 h.2

theorem forall_enter {y : α} (hnew : P p y) (hold : ∀ q x, q ≠ p → f q = some x → P q x)
    (q : κ) (x : α) (hq : Function.update f p (some y) q = some x) : P q x := by
  apply forall_update _ hold q x hq
  rintro _ ⟨⟩
  exact hnew

theorem forall_remove (hold : ∀ q x, f q = some x → P q x) (q : κ) (x : α)
    (hq : Function.update f p none q = some x) : P q x := by
  apply forall_update _ (fun q x _ => hold q x) q x hq
  rintro _ ⟨⟩

end Table
