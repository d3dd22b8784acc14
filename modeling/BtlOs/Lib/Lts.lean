import Mathlib.Data.List.Basic

/-! # Labelled transition systems

Runs of a labelled transition system, with the rules every safety argument uses: an invariant
that holds initially and is kept by each step holds after each run (`Run.invariant`), and a
condition that every step of a run meets may be assumed in the step (`restrict`).  A run is
extended at its end, so the label list is the history in the order in which it happened.  Where
steps are computed by a function, `replay` computes runs. -/

/-- A labelled transition system over states `σ` and labels `ι`. -/
structure Lts (σ ι : Type) where
  step : σ → ι → σ → Prop

namespace Lts

variable {σ ι : Type} (A : Lts σ ι)

/-- `Run s ls s'`: the labels `ls`, in this order, lead from `s` to `s'`. -/
inductive Run (s : σ) : List ι → σ → Prop
  | nil : Run s [] s
  | snoc {s₁ s₂ : σ} {ls : List ι} {l : ι} :
      Run s ls s₁ → A.step s₁ l s₂ → Run s (ls ++ [l]) s₂

/-- The steps that meet the condition `P` on the state before the step and the label. -/
def restrict (P : σ → ι → Prop) : Lts σ ι where
  step s l s' := A.step s l s' ∧ P s l

variable {A}

/-- **Invariance.** -/
theorem Run.invariant {I : σ → Prop} (hstep : ∀ s l s', I s → A.step s l s' → I s')
    {s s' : σ} {ls : List ι} (h : A.Run s ls s') (h₀ : I s) : I s' := by
  induction h with
  | nil => exact h₀
  | snoc _ hs ih => exact hstep _ _ _ ih hs

theorem Run.of_restrict {P : σ → ι → Prop} {s s' : σ} {ls : List ι}
    (h : (A.restrict P).Run s ls s') : A.Run s ls s' := by
  induction h with
  | nil => exact .nil
  | snoc _ hs ih => exact .snoc ih hs.1

theorem Run.restrict {Q : ι → Prop} {s s' : σ} {ls : List ι} (h : A.Run s ls s')
    (hQ : ∀ l ∈ ls, Q l) : (A.restrict fun _ l => Q l).Run s ls s' := by
  induction h with
  | nil => exact .nil
  | snoc _ hs ih =>
      exact .snoc (ih fun l hl => hQ l (List.mem_append_left _ hl))
        ⟨hs, hQ _ (List.mem_append_right _ List.mem_cons_self)⟩

/-- A condition on the labels alone may be added to the condition on the steps. -/
theorem Run.restrict_and {P : σ → ι → Prop} {Q : ι → Prop} {s s' : σ} {ls : List ι}
    (h : (A.restrict P).Run s ls s') (hQ : ∀ l ∈ ls, Q l) :
    (A.restrict fun s l => P s l ∧ Q l).Run s ls s' := by
  induction h with
  | nil => exact .nil
  | snoc _ hs ih =>
      refine .snoc (ih fun l hl => hQ l (List.mem_append_left _ hl)) ⟨hs.1, hs.2, ?_⟩
      exact hQ _ (List.mem_append_right _ List.mem_cons_self)

theorem Run.mono {P Q : σ → ι → Prop} (hPQ : ∀ s l, P s l → Q s l) {s s' : σ} {ls : List ι}
    (h : (A.restrict P).Run s ls s') : (A.restrict Q).Run s ls s' := by
  induction h with
  | nil => exact .nil
  | snoc _ hs ih => exact .snoc ih ⟨hs.1, hPQ _ _ hs.2⟩

theorem Run.append {s s₁ s₂ : σ} {ls₁ ls₂ : List ι} (h₁ : A.Run s ls₁ s₁)
    (h₂ : A.Run s₁ ls₂ s₂) : A.Run s (ls₁ ++ ls₂) s₂ := by
  induction h₂ with
  | nil => simpa using h₁
  | snoc _ hs ih =>
      rw [← List.append_assoc]
      exact .snoc ih hs

/-- **Simulation**: where the second system follows each step of the first, by a label of its own, it
follows its runs. -/
theorem Run.simulate_map {τ κ : Type} {B : Lts τ κ} {R : σ → τ → Prop} (g : ι → κ)
    (hstep : ∀ s t l s', R s t → A.step s l s' → ∃ t', B.step t (g l) t' ∧ R s' t')
    {s s' : σ} {ls : List ι} (h : A.Run s ls s') {t : τ} (h₀ : R s t) :
    ∃ t', B.Run t (ls.map g) t' ∧ R s' t' := by
  induction h with
  | nil => exact ⟨t, .nil, h₀⟩
  | snoc _ hs ih =>
      obtain ⟨t₁, hrun, h₁⟩ := ih
      obtain ⟨t', ht, h'⟩ := hstep _ _ _ _ h₁ hs
      refine ⟨t', ?_, h'⟩
      rw [List.map_append, List.map_singleton]
      exact hrun.snoc ht

theorem Run.simulate {τ : Type} {B : Lts τ ι} {R : σ → τ → Prop}
    (hstep : ∀ s t l s', R s t → A.step s l s' → ∃ t', B.step t l t' ∧ R s' t')
    {s s' : σ} {ls : List ι} (h : A.Run s ls s') {t : τ} (h₀ : R s t) :
    ∃ t', B.Run t ls t' ∧ R s' t' := by
  simpa using h.simulate_map (fun l => l) hstep h₀

/-! ### Ghost components -/

/-- The system with a component that follows the steps and does not influence them. -/
def withGhost {γ : Type} (A : Lts σ ι) (f : σ → γ → ι → γ) : Lts (σ × γ) ι where
  step x l y := A.step x.1 l y.1 ∧ y.2 = f x.1 x.2 l

/-! ### Computed runs -/

/-- The state after the labels, where `next` is defined at each of them. -/
def replay (next : σ → ι → Option σ) : σ → List ι → Option σ
  | s, [] => some s
  | s, l :: ls => (next s l).bind fun s₁ => replay next s₁ ls

theorem Run.of_replay {next : σ → ι → Option σ}
    (h : ∀ s l s', next s l = some s' → A.step s l s') {ls : List ι} {s s' : σ}
    (hr : replay next s ls = some s') : A.Run s ls s' := by
  induction ls generalizing s with
  | nil =>
      obtain rfl := Option.some.inj hr
      exact .nil
  | cons l ls ih =>
      obtain ⟨s₁, h₁, h₂⟩ := Option.bind_eq_some_iff.mp hr
      exact Run.append (.snoc .nil (h s l s₁ h₁)) (ih h₂)

/-- `next` with a ghost component. -/
def nextGhost {γ : Type} (next : σ → ι → Option σ) (f : σ → γ → ι → γ) (x : σ × γ) (l : ι) :
    Option (σ × γ) :=
  (next x.1 l).map fun s => (s, f x.1 x.2 l)

theorem withGhost_of_nextGhost {γ : Type} {next : σ → ι → Option σ} {f : σ → γ → ι → γ}
    (h : ∀ s l s', next s l = some s' → A.step s l s') (x : σ × γ) (l : ι) (y : σ × γ)
    (hy : nextGhost next f x l = some y) : (A.withGhost f).step x l y := by
  obtain ⟨s', hs, rfl⟩ := Option.map_eq_some_iff.mp hy
  exact ⟨h x.1 l s' hs, rfl⟩

/-- `next` where the step meets a condition. -/
def guarded (next : σ → ι → Option σ) (P : σ → ι → Prop) [∀ s l, Decidable (P s l)] (s : σ)
    (l : ι) : Option σ :=
  if P s l then next s l else none

theorem Run.of_replay_guarded {next : σ → ι → Option σ} {P : σ → ι → Prop}
    [∀ s l, Decidable (P s l)] (h : ∀ s l s', next s l = some s' → A.step s l s') {ls : List ι}
    {s s' : σ} (hr : replay (guarded next P) s ls = some s') : (A.restrict P).Run s ls s' := by
  refine Run.of_replay ?_ hr
  intro s l s' hg
  unfold guarded at hg
  split_ifs at hg with hp
  exact ⟨h s l s' hg, hp⟩

end Lts
