import BtlOs.Sched
import BtlOs.Lib.Lts
import Mathlib.Algebra.BigOperators.Group.Finset.Basic
import Mathlib.Algebra.Order.BigOperators.Group.Finset

/-! # How often a queue is passed over

A queue that is not empty is passed over only a bounded number of times.  The argument is the rank
`rank j` of a state: while queue `j` has slots left, every call serves a queue before it, so the
slots of these queues bound the calls; once it has none, the slots of all other queues bound the
calls up to the next refill of the counters, which gives queue `j` slots again. -/

namespace BtlOs

open SchedHeader

/-- The calls of the scheduler. -/
inductive SchedCall where
  | add (proc : Pcb)
  | put (proc : Pcb)
  | get
deriving DecidableEq

section

variable [SchedHeader]

/-- Any order of calls, over processes with priorities below `MAX_PRIO`. -/
inductive MlqStep : Sched → SchedCall → Sched → Prop
  | add {s : Sched} {proc : Pcb} : proc.prio < maxPrio → MlqStep s (.add proc) (s.addProc proc)
  | put {s : Sched} {proc : Pcb} : proc.prio < maxPrio → MlqStep s (.put proc) (s.putProc proc)
  | get {s : Sched} : MlqStep s .get s.getProc.2

def mlqLts : Lts Sched SchedCall := ⟨MlqStep⟩

namespace Sched

variable (s : Sched)

/-- The queue that the next `get_proc` serves. -/
def servedQueue : Option ℕ := (getLoop 2 s).1.map Prod.fst

/-- `get_proc` passes queue `j` over. -/
def Passes (j : ℕ) (s : Sched) : SchedCall → Prop
  | .add _ => True
  | .put _ => True
  | .get => s.ready j ≠ [] ∧ s.servedQueue ≠ some j

/-- How often the queues were served since the counters were last set. -/
def servedSince (s : Sched) (served : ℕ → ℕ) : SchedCall → ℕ → ℕ
  | .add _ => served
  | .put _ => served
  | .get => fun i =>
      if (getAttempt 0 maxPrio s).1 = none then if s.servedQueue = some i then 1 else 0
      else if s.servedQueue = some i then served i + 1 else served i

/-- A bound on the calls that pass queue `j` over. -/
def rank (j : ℕ) : ℕ :=
  if 0 < s.slot j then ∑ i ∈ Finset.range j, s.slot i
  else ∑ i ∈ (Finset.range maxPrio).erase j, s.slot i + ∑ i ∈ Finset.range j, (maxPrio - i)

variable {s}

/-! ### One call -/

theorem sum_slot_serve_lt {S : Finset ℕ} {i : ℕ} (proc : Pcb) (hi : i ∈ S)
    (hslot : 0 < s.slot i) :
    ∑ k ∈ S, (s.serve i proc).slot k < ∑ k ∈ S, s.slot k := by
  apply Finset.sum_lt_sum
  · intro k _
    by_cases he : k = i
    · subst he
      rw [slot_serve_self]
      exact Nat.sub_le _ _
    · rw [slot_serve_of_ne he]
  · refine ⟨i, hi, ?_⟩
    rw [slot_serve_self]
    omega

/-- A call that passes queue `j` over lowers its rank. -/
theorem rank_getProc_lt {j : ℕ} (hj : j < maxPrio) (hpass : Passes j s .get) :
    s.getProc.2.rank j < s.rank j := by
  obtain ⟨hready, hserved⟩ := hpass
  have hstep := getStep s
  unfold getProc getMlqProc
  unfold servedQueue at hserved
  generalize (getLoop 2 s).1 = r at hstep hserved
  generalize (getLoop 2 s).2 = s' at hstep
  cases hstep with
  | @served i proc rest hi hslot hcons hbefore =>
      have hne : j ≠ i := by
        rintro rfl
        exact hserved rfl
      by_cases hjslot : 0 < s.slot j
      · have hlt : i < j := by
          by_contra hle
          exact hbefore j (by omega) ⟨hjslot, hready⟩
        unfold rank
        rw [slot_serve_of_ne hne, if_pos hjslot, if_pos hjslot]
        exact sum_slot_serve_lt proc (Finset.mem_range.mpr hlt) hslot
      · have hmem : i ∈ (Finset.range maxPrio).erase j :=
          Finset.mem_erase.mpr ⟨hne.symm, Finset.mem_range.mpr hi⟩
        have hlt := sum_slot_serve_lt proc hmem hslot
        unfold rank
        rw [slot_serve_of_ne hne, if_neg hjslot, if_neg hjslot]
        omega
  | @refilled i proc rest hi hcons hnone hbefore =>
      have hne : j ≠ i := by
        rintro rfl
        exact hserved rfl
      have hlt : i < j := by
        by_contra hle
        exact hready (hbefore j (by omega))
      have hjslot : ¬ 0 < s.slot j := fun h => hnone j hj ⟨h, hready⟩
      have hpos : ∀ k < maxPrio, 0 < s.resetSlots.slot k := fun k hk => Nat.sub_pos_of_lt hk
      have hsum := sum_slot_serve_lt (s := s.resetSlots) proc
        (Finset.mem_range.mpr hlt) (hpos i hi)
      unfold rank
      rw [slot_serve_of_ne hne, if_pos (hpos j hj), if_neg hjslot]
      exact lt_of_lt_of_le hsum (Nat.le_add_left _ _)
  | idle hnil => exact absurd (hnil j hj) hready

/-! ### Runs -/

theorem count_get_le {j : ℕ} (hj : j < maxPrio) {s' : Sched} {es : List SchedCall}
    (h : (mlqLts.restrict fun s e => Passes j s e).Run s es s') :
    es.count .get + s'.rank j ≤ s.rank j := by
  induction h with
  | nil => simp
  | @snoc s₁ s₂ es e _ hs ih =>
      obtain ⟨hstep, hpass⟩ := hs
      cases hstep with
      | add _ =>
          rw [List.count_append]
          exact ih
      | put _ =>
          rw [List.count_append]
          exact ih
      | get =>
          have hlt := rank_getProc_lt hj hpass
          rw [List.count_append, List.count_singleton_self]
          omega

/-- The slots that are left and the services since the counters were last set. -/
def Counted (s : Sched) (served : ℕ → ℕ) : Prop := ∀ i, served i + s.slot i = maxPrio - i

theorem Counted.get {served : ℕ → ℕ} (h : Counted s served) :
    Counted s.getProc.2 (s.servedSince served .get) := by
  have hstep := getStep s
  have hnone := getAttempt_eq_none (s := s)
  intro k
  unfold servedSince servedQueue
  show _ + (getLoop 2 s).2.slot k = _
  generalize (getLoop 2 s).1 = r at hstep
  generalize (getLoop 2 s).2 = s' at hstep
  cases hstep with
  | @served i proc rest hi hslot hcons _ =>
      have hsome : (getAttempt 0 maxPrio s).1 ≠ none := by
        rw [ne_eq, hnone]
        exact fun hall => hall i hi ⟨hslot, by simp [hcons]⟩
      have hk := h k
      by_cases he : k = i
      · subst he
        simp only [hsome, if_false, Option.map_some, if_true, slot_serve_self]
        omega
      · have hne : i ≠ k := fun hik => he hik.symm
        simp only [hsome, if_false, Option.map_some, Option.some.injEq, hne, slot_serve_of_ne he]
        exact hk
  | @refilled i proc rest hi hcons hall _ =>
      have hfill := hnone.mpr hall
      by_cases he : k = i
      · subst he
        have hpos : 0 < maxPrio - k := by omega
        simp only [hfill, Option.map_some, if_true, slot_serve_self, resetSlots]
        omega
      · have hne : i ≠ k := fun hik => he hik.symm
        simp only [hfill, if_true, Option.map_some, Option.some.injEq, hne, if_false,
          slot_serve_of_ne he, resetSlots, Nat.zero_add]
  | idle hnil =>
      have hfill := hnone.mpr fun i hi hserv => hserv.2 (hnil i hi)
      simp [hfill, resetSlots]

theorem Counted.step {served : ℕ → ℕ} {e : SchedCall} {s' : Sched} (h : Counted s served)
    (hs : mlqLts.step s e s') : Counted s' (s.servedSince served e) := by
  cases hs with
  | add _ => exact h
  | put _ => exact h
  | get => exact h.get

theorem Counted.rank_le {served : ℕ → ℕ} (h : Counted s served) (j : ℕ) :
    s.rank j ≤ ∑ i ∈ (Finset.range maxPrio).erase j, (maxPrio - i) +
      ∑ i ∈ Finset.range j, (maxPrio - i) := by
  have hslot : ∀ i, s.slot i ≤ maxPrio - i := by
    intro i
    have := h i
    omega
  unfold rank
  split_ifs
  · apply le_trans (Finset.sum_le_sum fun i _ => hslot i)
    exact Nat.le_add_left _ _
  · apply Nat.add_le_add_right
    exact Finset.sum_le_sum fun i _ => hslot i

end Sched

open Sched

/-- **Bounded bypass.**  After every run from `init_scheduler`: since the counters were last set
no queue was served more often than its slots allow, the counters are set again only where no
queue that is not empty has slots left, and a queue that is not empty is passed over a bounded
number of times. -/
theorem bounded_bypass {s : Sched} {served : ℕ → ℕ} {es₀ : List SchedCall}
    (h₀ : (mlqLts.withGhost servedSince).Run (zero.initScheduler, fun _ => 0) es₀ (s, served)) :
    (∀ i, served i ≤ maxPrio - i) ∧
    ((getAttempt 0 maxPrio s).1 = none → ∀ i < maxPrio, s.ready i ≠ [] → s.slot i = 0) ∧
    ∀ j < maxPrio, ∀ es s', (mlqLts.restrict fun s e => Passes j s e).Run s es s' →
      es.count .get ≤ ∑ i ∈ (Finset.range maxPrio).erase j, (maxPrio - i) +
        ∑ i ∈ Finset.range j, (maxPrio - i) := by
  have hcounted : Counted s served := by
    refine h₀.invariant (I := fun x => Counted x.1 x.2) ?_ fun i => Nat.zero_add _
    rintro ⟨s, served⟩ e ⟨s', served'⟩ h ⟨hs, rfl⟩
    exact h.step hs
  refine ⟨fun i => ?_, fun hnone i hi hready => ?_, fun j hj es s' hrun => ?_⟩
  · have := hcounted i
    omega
  · by_contra hslot
    exact getAttempt_eq_none.mp hnone i hi ⟨Nat.pos_of_ne_zero hslot, hready⟩
  · have hcount := count_get_le hj hrun
    have hrank := hcounted.rank_le j
    omega

end

open Sched

/-- A process of each priority is added. -/
def twoProcs : List SchedCall := [.add ⟨1, 0, "p0"⟩, .add ⟨2, 1, "p1"⟩]

/-- `get_proc` passes the queue of priority 1 over. -/
theorem bounded_bypass_sample : ∃ s s',
    (@mlqLts sched22).Run (@Sched.initScheduler sched22 (@Sched.zero sched22)) twoProcs s ∧
    ((@mlqLts sched22).restrict fun s e => @Passes sched22 1 s e).Run s [.get] s' ∧
    List.count SchedCall.get [.get] ≤ 2 + 2 := by
  let := sched22
  let s₁ : Sched := zero.initScheduler.addProc ⟨1, 0, "p0"⟩
  let s₂ : Sched := s₁.addProc ⟨2, 1, "p1"⟩
  have hadd : MlqStep zero.initScheduler (.add ⟨1, 0, "p0"⟩) s₁ := .add (by decide)
  have hadd' : MlqStep s₁ (.add ⟨2, 1, "p1"⟩) s₂ := .add (by decide)
  have hrun₁ : (mlqLts.withGhost servedSince).Run (zero.initScheduler, fun _ => 0)
      [.add ⟨1, 0, "p0"⟩] (s₁, fun _ => 0) := .snoc .nil ⟨hadd, rfl⟩
  have hrun₂ : (mlqLts.withGhost servedSince).Run (zero.initScheduler, fun _ => 0)
      twoProcs (s₂, fun _ => 0) := hrun₁.snoc ⟨hadd', rfl⟩
  have hpasses : s₂.ready 1 ≠ [] ∧ s₂.servedQueue ≠ some 1 := by decide +kernel
  have hpass : (mlqLts.restrict fun s e => Passes 1 s e).Run s₂ [.get] s₂.getProc.2 :=
    .snoc .nil ⟨.get, hpasses⟩
  exact ⟨s₂, _, .snoc (.snoc .nil hadd) hadd', hpass,
    (bounded_bypass hrun₂).2.2 1 (by decide) _ _ hpass⟩

end BtlOs
