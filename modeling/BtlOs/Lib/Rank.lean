import BtlOs.Lib.Lts
import Mathlib.Tactic.Ring

/-! # Ranks

A rank is a bound on the steps to come.  Where every step of a run lowers it, but for those that
renew it, the run is no longer than its renewals allow (`length_le`).  Where moreover a step is
possible in each state that has not reached its goal, a goal or a renewal is within the rank of
every state (`exists_run`). -/

namespace Lts

variable {σ ι : Type} {A : Lts σ ι}

/-- Every step from a state with `I` keeps `I`, and lowers the rank or sets it anew, within the
bound. -/
structure Ranked (A : Lts σ ι) (I : σ → Prop) (rank : σ → ℕ) (renews : ι → Bool) (bound : ℕ) :
    Prop where
  keeps : ∀ s l s', I s → A.step s l s' → I s'
  renewed : ∀ s l s', I s → A.step s l s' → renews l = true → rank s' ≤ bound
  lowers : ∀ s l s', I s → A.step s l s' → renews l = false → rank s' < rank s

variable {I : σ → Prop} {rank : σ → ℕ} {renews : ι → Bool} {bound : ℕ} {s s' : σ} {ls : List ι}

theorem Ranked.run (hr : A.Ranked I rank renews bound) (h : A.Run s ls s') (h₀ : I s) : I s' :=
  h.invariant hr.keeps h₀

/-- More is invariant. -/
theorem Ranked.and {J : σ → Prop} (hr : A.Ranked I rank renews bound)
    (hkeeps : ∀ s l s', I s → J s → A.step s l s' → J s') :
    A.Ranked (fun s => I s ∧ J s) rank renews bound where
  keeps s l s' h hs := ⟨hr.keeps s l s' h.1 hs, hkeeps s l s' h.1 h.2 hs⟩
  renewed s l s' h hs := hr.renewed s l s' h.1 hs
  lowers s l s' h hs := hr.lowers s l s' h.1 hs

/-- **Length of a run**: its steps between two renewals use up the rank. -/
theorem Ranked.length_le (hr : A.Ranked I rank renews bound) (h : A.Run s ls s') (h₀ : I s) :
    ls.length + rank s' ≤ rank s + ls.countP renews * (bound + 1) := by
  induction h with
  | nil => simp
  | @snoc s₁ s₂ ls l hrun hs ih =>
      have h₁ := hr.run hrun h₀
      rw [List.length_append, List.countP_append, List.length_singleton, List.countP_singleton]
      cases hl : renews l with
      | false =>
          have hlt := hr.lowers _ _ _ h₁ hs hl
          simp
          omega
      | true =>
          have hle := hr.renewed _ _ _ h₁ hs hl
          simp only [if_true, Nat.add_mul, Nat.one_mul]
          omega

/-- **Progress**: from every state the goal or a renewal is reached within its rank. -/
theorem Ranked.exists_run (hr : A.Ranked I rank renews bound) (goal : σ → Prop)
    (henabled : ∀ s, I s → ¬ goal s → ∃ l s', A.step s l s') (h₀ : I s) :
    ∃ ls s', A.Run s ls s' ∧ ls.length ≤ rank s + 1 ∧
      (goal s' ∨ ∃ l ∈ ls, renews l = true) := by
  induction hk : rank s using Nat.strong_induction_on generalizing s with
  | _ k ih =>
      by_cases hgoal : goal s
      · exact ⟨[], s, .nil, Nat.zero_le _, .inl hgoal⟩
      · obtain ⟨l, s₁, hs⟩ := henabled s h₀ hgoal
        have hrun : A.Run s [l] s₁ := Run.nil.snoc hs
        cases hl : renews l with
        | true => exact ⟨[l], s₁, hrun, by simp, .inr ⟨l, List.mem_singleton_self l, hl⟩⟩
        | false =>
            have hlt := hr.lowers _ _ _ h₀ hs hl
            obtain ⟨ls, s', hrun', hlen, hend⟩ :=
              ih (rank s₁) (hk ▸ hlt) (hr.keeps _ _ _ h₀ hs) rfl
            refine ⟨[l] ++ ls, s', hrun.append hrun', ?_, ?_⟩
            · rw [List.length_append, List.length_singleton]
              omega
            · refine hend.imp_right ?_
              rintro ⟨l', hmem, hren⟩
              exact ⟨l', List.mem_append_right _ hmem, hren⟩

end Lts
