import Mathlib.Logic.Function.Basic
import Mathlib.Data.Nat.Notation

/-! # Copies of cells

A memory gives every location a value.  `Cells` are distinct locations in an order, and `copy`
copies one sequence of cells to another in one loop, which reads a cell after it has written the
cells before it.  Between disjoint cells the copy takes over the contents (`contents_copy`), and
everywhere else the memory stays as it was (`copy_of_ne`).  Contents therefore survive all copies
to other cells, and a copy back restores them (`contents_round_trip`). -/

namespace CellCopy

variable {L V : Type} [DecidableEq L]

/-- The loop: `n` cells of `src`, from the index `i` on, are copied to those of `dst`. -/
def copyFrom (src dst : ℕ → L) : ℕ → ℕ → (L → V) → L → V
  | 0, _, m => m
  | n + 1, i, m => copyFrom src dst n (i + 1) (Function.update m (dst i) (m (src i)))

section loop

variable {src dst : ℕ → L}

theorem copyFrom_of_ne (n i : ℕ) (m : L → V) {l : L} (h : ∀ j < i + n, i ≤ j → l ≠ dst j) :
    copyFrom src dst n i m l = m l := by
  induction n generalizing i m with
  | zero => rfl
  | succ n ih =>
      rw [copyFrom, ih (i + 1) _ fun j hj hij => h j (by omega) (by omega)]
      simp [h i (by omega) (Nat.le_refl i)]

/-- No cell is overwritten before it is read, nor after it is written. -/
theorem copyFrom_dst (n i : ℕ) (m : L → V)
    (hread : ∀ k < i + n, ∀ j < k, i ≤ j → src k ≠ dst j)
    (hwritten : ∀ k < i + n, ∀ j < k, i ≤ j → dst j ≠ dst k) {j : ℕ} (hij : i ≤ j)
    (hj : j < i + n) : copyFrom src dst n i m (dst j) = m (src j) := by
  induction n generalizing i m with
  | zero => omega
  | succ n ih =>
      rw [copyFrom]
      rcases Nat.eq_or_lt_of_le hij with rfl | hlt
      · rw [copyFrom_of_ne n (i + 1) _ fun k hk hik => hwritten k (by omega) i (by omega)
          (Nat.le_refl i)]
        simp
      · rw [ih (i + 1) _ (fun k hk j hjk hij => hread k (by omega) j hjk (by omega))
          (fun k hk j hjk hij => hwritten k (by omega) j hjk (by omega)) hlt (by omega)]
        simp [hread j hj i hlt (Nat.le_refl i)]

end loop

/-- `n` distinct locations in an order. -/
structure Cells (L : Type) (n : ℕ) where
  cell : ℕ → L
  inj : ∀ i < n, ∀ j < n, cell i = cell j → i = j

namespace Cells

variable {n : ℕ} {b src mid dst : Cells L n}

def Disjoint (b b' : Cells L n) : Prop := ∀ i < n, ∀ j < n, b.cell i ≠ b'.cell j

/-- The values of the cells in a memory. -/
def contents (b : Cells L n) (m : L → V) (i : Fin n) : V := m (b.cell i)

/-- All cells of `src` copied to those of `dst`. -/
def copy (src dst : Cells L n) (m : L → V) : L → V := copyFrom src.cell dst.cell n 0 m

/-- Copies made one after the other. -/
def copyAll (l : List (Cells L n × Cells L n)) (m : L → V) : L → V :=
  l.foldl (fun m c => copy c.1 c.2 m) m

theorem copy_of_ne (m : L → V) {l : L} (h : ∀ j < n, l ≠ dst.cell j) : copy src dst m l = m l :=
  copyFrom_of_ne n 0 m fun j hj _ => h j (by omega)

theorem copy_cell (h : src.Disjoint dst) (m : L → V) {j : ℕ} (hj : j < n) :
    copy src dst m (dst.cell j) = m (src.cell j) := by
  refine copyFrom_dst n 0 m (fun k hk j hjk _ => ?_) (fun k hk j hjk _ he => ?_) j.zero_le
    (by omega)
  · exact h k (by omega) j (by omega)
  · have := dst.inj j (by omega) k (by omega) he
    omega

theorem contents_copy (h : src.Disjoint dst) (m : L → V) :
    dst.contents (copy src dst m) = src.contents m :=
  funext fun i => copy_cell h m i.isLt

/-- The frame of a copy. -/
theorem contents_copy_of_disjoint (h : b.Disjoint dst) (m : L → V) :
    b.contents (copy src dst m) = b.contents m :=
  funext fun i => copy_of_ne m fun j hj => h i i.isLt j hj

theorem contents_copyAll {l : List (Cells L n × Cells L n)} (h : ∀ c ∈ l, b.Disjoint c.2)
    (m : L → V) : b.contents (copyAll l m) = b.contents m := by
  induction l generalizing m with
  | nil => rfl
  | cons c l ih =>
      obtain ⟨hc, hl⟩ := List.forall_mem_cons.mp h
      calc b.contents (copyAll l (copy c.1 c.2 m))
        _ = b.contents (copy c.1 c.2 m) := ih hl _
        _ = b.contents m := contents_copy_of_disjoint hc m

/-- What was copied to `mid` comes back from it, whatever was copied to other cells meanwhile. -/
theorem contents_round_trip {l : List (Cells L n × Cells L n)} (hout : src.Disjoint mid)
    (hl : ∀ c ∈ l, mid.Disjoint c.2) (hback : mid.Disjoint dst) (m : L → V) :
    dst.contents (copy mid dst (copyAll l (copy src mid m))) = src.contents m := by
  calc dst.contents (copy mid dst (copyAll l (copy src mid m)))
    _ = mid.contents (copyAll l (copy src mid m)) := contents_copy hback _
    _ = mid.contents (copy src mid m) := contents_copyAll hl _
    _ = src.contents m := contents_copy hout m

end Cells

end CellCopy
