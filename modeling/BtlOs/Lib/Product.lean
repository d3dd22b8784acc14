import BtlOs.Lib.Lts

/-! # Products of transition systems

Two systems side by side: an event of the product moves the first one, the second one, or both, and
may depend on both states.  The second component of a run of the product is a run of its own system
(`Run.snd`), so what is known of the runs of that system holds in the product. -/

namespace Lts

variable {σ τ ι κ ε : Type}

/-- A step with the label, or none where there is no label. -/
inductive Moves (A : Lts σ ι) (s : σ) : Option ι → σ → Prop
  | stay : Moves A s none s
  | step {l : ι} {s' : σ} : A.step s l s' → Moves A s (some l) s'

variable {A : Lts σ ι} {B : Lts τ κ}

@[simp] theorem moves_none {s s' : σ} : A.Moves s none s' ↔ s' = s := by
  constructor
  · rintro ⟨⟩
    rfl
  · rintro rfl
    exact .stay

@[simp] theorem moves_some {s s' : σ} {l : ι} : A.Moves s (some l) s' ↔ A.step s l s' := by
  constructor
  · rintro (_ | h)
    exact h
  · exact .step

theorem Run.moves {s s₁ s₂ : σ} {ls : List ι} {l : Option ι} (h : A.Run s ls s₁)
    (hm : A.Moves s₁ l s₂) : A.Run s (ls ++ l.toList) s₂ := by
  cases hm with
  | stay => simpa using h
  | step hs => exact h.snoc hs

/-- An invariant of the steps is kept where none is made. -/
theorem Moves.keeps {I : σ → Prop} {s s' : σ} {l : Option ι} (h : A.Moves s l s')
    (hstep : ∀ l s', A.step s l s' → I s') (h₀ : I s) : I s' := by
  cases h with
  | stay => exact h₀
  | step hs => exact hstep _ _ hs

/-- The product of two systems over the events `ε`. -/
def product (A : Lts σ ι) (B : Lts τ κ) (left : ε → Option ι) (right : ε → Option κ)
    (guard : σ × τ → ε → Prop) : Lts (σ × τ) ε where
  step x e y := A.Moves x.1 (left e) y.1 ∧ B.Moves x.2 (right e) y.2 ∧ guard x e

variable {left : ε → Option ι} {right : ε → Option κ} {guard : σ × τ → ε → Prop} {x y : σ × τ}
  {es : List ε}

theorem filterMap_concat {α β : Type} (f : α → Option β) (l : List α) (a : α) :
    (l ++ [a]).filterMap f = l.filterMap f ++ (f a).toList := by
  cases h : f a with
  | none => simp [h]
  | some b => simp [h]

/-- **The second component** of a run. -/
theorem Run.snd (h : (A.product B left right guard).Run x es y) :
    B.Run x.2 (es.filterMap right) y.2 := by
  induction h with
  | nil => exact .nil
  | snoc _ hs ih =>
      rw [filterMap_concat]
      exact ih.moves hs.2.1

/-! ### Computed steps -/

/-- The state after the label, or the same where there is none. -/
def moved (next : σ → ι → Option σ) (s : σ) : Option ι → Option σ
  | none => some s
  | some l => next s l

theorem moves_of_moved {next : σ → ι → Option σ}
    (h : ∀ s l s', next s l = some s' → A.step s l s') {s s' : σ} {l : Option ι}
    (hs : moved next s l = some s') : A.Moves s l s' := by
  cases l with
  | none => exact moves_none.mpr (Option.some.inj hs).symm
  | some l => exact .step (h _ _ _ hs)

/-- The step of the product, where those of the two systems are computed. -/
def nextProduct (nextA : σ → ι → Option σ) (nextB : τ → κ → Option τ) (left : ε → Option ι)
    (right : ε → Option κ) (guard : σ × τ → ε → Prop) [∀ x e, Decidable (guard x e)] (x : σ × τ)
    (e : ε) : Option (σ × τ) :=
  if guard x e then
    (moved nextA x.1 (left e)).bind fun s => (moved nextB x.2 (right e)).map fun t => (s, t)
  else none

theorem product_of_next {nextA : σ → ι → Option σ} {nextB : τ → κ → Option τ}
    [∀ x e, Decidable (guard x e)] (hA : ∀ s l s', nextA s l = some s' → A.step s l s')
    (hB : ∀ t l t', nextB t l = some t' → B.step t l t') (x : σ × τ) (e : ε) (y : σ × τ)
    (h : nextProduct nextA nextB left right guard x e = some y) :
    (A.product B left right guard).step x e y := by
  unfold nextProduct at h
  split_ifs at h with hg
  obtain ⟨s, hs, h⟩ := Option.bind_eq_some_iff.mp h
  obtain ⟨t, ht, rfl⟩ := Option.map_eq_some_iff.mp h
  exact ⟨moves_of_moved hA hs, moves_of_moved hB ht, hg⟩

theorem Run.of_withGhost {γ : Type} {f : σ → γ → ι → γ} {x y : σ × γ} {ls : List ι}
    (h : (A.withGhost f).Run x ls y) : A.Run x.1 ls y.1 := by
  induction h with
  | nil => exact .nil
  | snoc _ hs ih => exact ih.snoc hs.1

end Lts
