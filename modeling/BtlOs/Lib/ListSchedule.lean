import BtlOs.Lib.Counting
import Mathlib.Data.Finset.Prod

/-! # List scheduling

Jobs of unit steps on `n` machines.  An entry of the schedule is one step: the machine and the slot
of it, and the job, if any.  Where in each slot all machines are busy or the job `p` runs, the slots
are bounded by the work of all jobs and that of `p` (`slots_le`): in a slot of the first kind `n`
steps are made, and there are no more slots of the second kind than `p` has steps. -/

namespace ListSchedule

open Counting

variable {α κ : Type} [DecidableEq κ] (machine slot : α → ℕ) (job : α → Option κ)

/-- The machine makes a step of one of the jobs in the slot. -/
def Busy (jobs : List κ) (es : List α) (c t : ℕ) : Prop :=
  ∃ e ∈ es, machine e = c ∧ slot e = t ∧ ∃ q ∈ jobs, job e = some q

/-- The job makes a step in the slot. -/
def Runs (es : List α) (p : κ) (t : ℕ) : Prop := ∃ e ∈ es, slot e = t ∧ job e = some p

variable {machine slot job} {jobs : List κ} {es : List α} {n : ℕ} {p : κ}

theorem card_le_countP {γ : Type} [DecidableEq γ] (key : α → γ) (P : α → Prop) [DecidablePred P]
    {s : Finset γ} (h : ∀ k ∈ s, ∃ e ∈ es, key e = k ∧ P e) :
    s.card ≤ es.countP fun e => decide (P e) := by
  have hsub : s ⊆ ((es.filter fun e => decide (P e)).map key).toFinset := by
    intro k hk
    obtain ⟨e, he, rfl, hP⟩ := h k hk
    rw [List.mem_toFinset]
    exact List.mem_map_of_mem (List.mem_filter.mpr ⟨he, decide_eq_true hP⟩)
  calc s.card ≤ ((es.filter fun e => decide (P e)).map key).toFinset.card :=
        Finset.card_le_card hsub
    _ ≤ ((es.filter fun e => decide (P e)).map key).length := List.toFinset_card_le _
    _ = es.countP fun e => decide (P e) := by rw [List.length_map, List.countP_eq_length_filter]

/-- The steps in the slots of `busy` and those of `p` in the slots of `rest` are different ones. -/
theorem busy_add_rest_le {busy rest : Finset ℕ} {w : κ → ℕ} (hjobs : jobs.Nodup) (hp : p ∈ jobs)
    (hw : ∀ q ∈ jobs, (es.countP fun e => job e = some q) ≤ w q) (hdis : Disjoint busy rest)
    (hbusy : ∀ t ∈ busy, ∀ c < n, Busy machine slot job jobs es c t)
    (hrest : ∀ t ∈ rest, Runs slot job es p t) :
    n * busy.card + rest.card ≤ (jobs.map w).sum := by
  let InBusy (e : α) : Prop := slot e ∈ busy ∧ job e ∈ jobs.map some
  let InRest (e : α) : Prop := slot e ∈ rest ∧ job e = some p
  have hfirst : n * busy.card ≤ es.countP fun e => decide (InBusy e) := by
    have hcard : (Finset.range n ×ˢ busy).card = n * busy.card := by simp
    rw [← hcard]
    refine card_le_countP (fun e => (machine e, slot e)) InBusy ?_
    rintro ⟨c, t⟩ hk
    obtain ⟨hc, ht⟩ := Finset.mem_product.mp hk
    obtain ⟨e, he, rfl, rfl, q, hq, hjob⟩ := hbusy t ht c (Finset.mem_range.mp hc)
    refine ⟨e, he, rfl, ht, ?_⟩
    rw [hjob]
    exact List.mem_map_of_mem hq
  have hsecond : rest.card ≤ es.countP fun e => decide (InRest e) := by
    refine card_le_countP slot InRest fun t ht => ?_
    obtain ⟨e, he, rfl, hjob⟩ := hrest t ht
    exact ⟨e, he, rfl, ht, hjob⟩
  have hboth : (es.countP fun e => decide (InBusy e)) + (es.countP fun e => decide (InRest e)) ≤
      es.countP fun e => job e ∈ jobs.map some := by
    clear hfirst hsecond hw hbusy hrest
    induction es with
    | nil => simp
    | cons e es ih =>
        have hone : (if InBusy e then 1 else 0) + (if InRest e then 1 else 0) ≤
            if job e ∈ jobs.map some then 1 else 0 := by
          by_cases hb : InBusy e
          · have hr : ¬ InRest e := fun hr => Finset.disjoint_left.mp hdis hb.1 hr.1
            simp [hb, hr, hb.2]
          · by_cases hr : InRest e
            · have hmem : job e ∈ jobs.map some := hr.2 ▸ List.mem_map_of_mem hp
              simp [hb, hr, hmem]
            · simp [hb, hr]
        simp only [List.countP_cons, decide_eq_true_eq] at ih ⊢
        omega
  calc n * busy.card + rest.card
      ≤ es.countP fun e => job e ∈ jobs.map some := (Nat.add_le_add hfirst hsecond).trans hboth
    _ = ((jobs.map some).map fun r => es.countP fun e => job e = r).sum := by
        rw [sum_countP (hjobs.map (Option.some_injective κ)) job es]
        exact List.countP_congr fun e _ => by simp
    _ ≤ (jobs.map w).sum := by
        rw [List.map_map]
        exact List.sum_le_sum hw

variable (machine slot job es) in
/-- **The bound of list scheduling.** -/
theorem slots_le {w : κ → ℕ} {a b : ℕ} (hjobs : jobs.Nodup) (hp : p ∈ jobs)
    (hw : ∀ q ∈ jobs, (es.countP fun e => job e = some q) ≤ w q)
    (hgreedy : ∀ t, a ≤ t → t < b →
      (∀ c < n, Busy machine slot job jobs es c t) ∨ Runs slot job es p t) :
    n * (b - a) ≤ (jobs.map w).sum + (n - 1) * w p := by
  classical
  let busy := (Finset.Ico a b).filter fun t => ∀ c < n, Busy machine slot job jobs es c t
  let rest := (Finset.Ico a b).filter fun t => ¬ ∀ c < n, Busy machine slot job jobs es c t
  have hcard : busy.card + rest.card = b - a := by
    rw [Finset.card_filter_add_card_filter_not, Nat.card_Ico]
  have hrest : ∀ t ∈ rest, Runs slot job es p t := by
    intro t ht
    obtain ⟨hmem, hnot⟩ := Finset.mem_filter.mp ht
    obtain ⟨hle, hlt⟩ := Finset.mem_Ico.mp hmem
    exact (hgreedy t hle hlt).resolve_left hnot
  have hbusy : ∀ t ∈ busy, ∀ c < n, Busy machine slot job jobs es c t :=
    fun t ht => (Finset.mem_filter.mp ht).2
  have hdis : Disjoint busy rest := Finset.disjoint_filter_filter_not _ _ _
  have hwork := busy_add_rest_le hjobs hp hw hdis hbusy hrest
  have hlast : rest.card ≤ w p := by
    refine (card_le_countP slot (fun e => job e = some p) fun t ht => ?_).trans (hw p hp)
    obtain ⟨e, he, rfl, hjob⟩ := hrest t ht
    exact ⟨e, he, rfl, hjob⟩
  have hmul : (n - 1) * rest.card ≤ (n - 1) * w p := Nat.mul_le_mul_left _ hlast
  rw [← hcard, Nat.mul_add]
  cases n with
  | zero => simp
  | succ n =>
      rw [Nat.succ_mul] at hwork ⊢
      rw [Nat.succ_mul n rest.card]
      simp only [Nat.add_sub_cancel] at hmul ⊢
      omega

end ListSchedule
