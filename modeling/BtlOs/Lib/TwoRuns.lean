import BtlOs.Lib.CLang

/-! # Two runs of one function

`Both R x y`: the executions `x` and `y` are stuck in the same way, or both return, and their
results are related by `R`.  With `R` the agreement of two states on everything that an observer
may see, `Both R (f a) (f b)` says that what `f` returns to the observer does not depend on the
rest of the state.

The rules follow the shape of a function: `bind` where the two runs go on with related results,
`bind_same` where they go on with the same one. -/

namespace CLang

variable {α β γ δ : Type}

inductive Both (R : α → β → Prop) : Exec α → Exec β → Prop
  | ok {a : α} {b : β} : R a b → Both R (.ok a) (.ok b)
  | error {e : Stuck} : Both R (.error e) (.error e)

namespace Both

variable {R : α → β → Prop} {S : γ → δ → Prop} {x : Exec α} {y : Exec β}

/-- The continuations may use that the first run has returned. -/
theorem bind {f : α → Exec γ} {g : β → Exec δ} (h : Both R x y)
    (hf : ∀ a b, x = .ok a → R a b → Both S (f a) (g b)) : Both S (x >>= f) (y >>= g) := by
  cases h with
  | ok hab => exact hf _ _ rfl hab
  | error => exact .error

theorem bind_same {f : α → Exec γ} {g : α → Exec δ} {x : Exec α}
    (hf : ∀ a, x = .ok a → Both S (f a) (g a)) : Both S (x >>= f) (x >>= g) := by
  cases x with
  | ok a => exact hf a rfl
  | error e => exact .error

theorem mono {R' : α → β → Prop} (h : Both R x y) (hR : ∀ a b, x = .ok a → R a b → R' a b) :
    Both R' x y := by
  cases h with
  | ok hab => exact .ok (hR _ _ rfl hab)
  | error => exact .error

theorem of_ok {a : α} (h : Both R x y) (hx : x = .ok a) : ∃ b, y = .ok b ∧ R a b := by
  subst hx
  cases h with
  | ok hab => exact ⟨_, rfl, hab⟩

end Both

end CLang
