import Mathlib.Data.List.Basic

/-! # Machines with outputs

A machine that answers each input with an output and a next state.  `trace` is what it answers to a
list of inputs.  Where the states of two machines are related so that they answer the same and stay
related, they answer the same to all lists (`trace_simulate`). -/

namespace Mealy

variable {σ τ ι ο : Type}

/-- The outputs to the inputs, in order, and the state after them. -/
def trace (f : σ → ι → ο × σ) : σ → List ι → List ο × σ
  | s, [] => ([], s)
  | s, i :: is => ((f s i).1 :: (trace f (f s i).2 is).1, (trace f (f s i).2 is).2)

@[simp] theorem trace_nil (f : σ → ι → ο × σ) (s : σ) : trace f s [] = ([], s) := rfl

@[simp] theorem trace_cons (f : σ → ι → ο × σ) (s : σ) (i : ι) (is : List ι) : trace f s (i :: is) =
    ((f s i).1 :: (trace f (f s i).2 is).1, (trace f (f s i).2 is).2) := rfl

variable {f : σ → ι → ο × σ} {g : τ → ι → ο × τ}

/-- **Simulation**, for the inputs that meet a condition. -/
theorem trace_simulate {R : σ → τ → Prop} {P : ι → Prop}
    (hstep : ∀ s t i, P i → R s t → (f s i).1 = (g t i).1 ∧ R (f s i).2 (g t i).2) {s : σ} {t : τ}
    {is : List ι} (hR : R s t) (hP : ∀ i ∈ is, P i) :
    (trace f s is).1 = (trace g t is).1 ∧ R (trace f s is).2 (trace g t is).2 := by
  induction is generalizing s t with
  | nil => exact ⟨rfl, hR⟩
  | cons i is ih =>
      obtain ⟨hout, hnext⟩ := hstep s t i (hP i List.mem_cons_self) hR
      obtain ⟨houts, hlast⟩ := ih hnext fun k hk => hP k (List.mem_cons_of_mem _ hk)
      refine ⟨?_, hlast⟩
      rw [trace_cons, trace_cons, hout, houts]

end Mealy
