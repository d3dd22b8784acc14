import BtlOs.Bypass

/-! # The dispatch policy

What one call of `get_proc` does in any state of the scheduler: it serves the first queue that is
not empty and has slots left, or, where there is none, the first queue that is not empty with the
counters refilled; it finds nothing only where all queues are empty.  The counters stay below
their initial values along every run. -/

namespace BtlOs

open SchedHeader

section

variable [SchedHeader]

namespace Sched

variable {s s' : Sched} {i : ℕ} {proc : Pcb} {rest : List Pcb}

/-- `s'` is `s` after the queue `i` was served: its head is gone and it has one slot less. -/
structure Served (s : Sched) (i : ℕ) (rest : List Pcb) (s' : Sched) : Prop where
  ready : s'.ready = Function.update s.ready i rest
  slot : s'.slot = Function.update s.slot i (s.slot i - 1)

theorem served_serve (h : s.ready i = proc :: rest) : Served s i rest (s.serve i proc) :=
  ⟨ready_serve h, rfl⟩

theorem getLoop_of_servable (hi : i < maxPrio) (hslot : 0 < s.slot i)
    (hcons : s.ready i = proc :: rest) (hbefore : ∀ j < i, ¬ s.Servable j) :
    getLoop 2 s = (some (i, proc), s.serve i proc) := by
  have hserv : s.Servable i := ⟨hslot, by simp [hcons]⟩
  have hstep := s.getStep
  generalize hr : getLoop 2 s = r at hstep
  obtain ⟨r, s'⟩ := r
  cases hstep with
  | @served j proc' rest' _ hslot' hcons' hbefore' =>
      have hle : i ≤ j := by
        by_contra hlt
        exact hbefore j (by omega) ⟨hslot', by simp [hcons']⟩
      have hge : j ≤ i := by
        by_contra hlt
        exact hbefore' i (by omega) hserv
      obtain rfl : i = j := by omega
      rw [hcons] at hcons'
      obtain ⟨rfl, _⟩ := List.cons.inj hcons'
      rfl
  | refilled _ _ hnone _ => exact absurd hserv (hnone i hi)
  | idle hnil => exact absurd (hnil i hi) hserv.2

/-- Where no queue is servable the first queue that is not empty is served with full counters. -/
theorem getLoop_of_refill (hnone : ∀ j < maxPrio, ¬ s.Servable j) (hi : i < maxPrio)
    (hcons : s.ready i = proc :: rest) (hbefore : ∀ j < i, s.ready j = []) :
    getLoop 2 s = (some (i, proc), s.resetSlots.serve i proc) := by
  have hstep := s.getStep
  generalize hr : getLoop 2 s = r at hstep
  obtain ⟨r, s'⟩ := r
  cases hstep with
  | served hj hslot hcons' _ => exact absurd ⟨hslot, by simp [hcons']⟩ (hnone _ hj)
  | @refilled j proc' rest' _ hcons' _ hbefore' =>
      have hle : i ≤ j := by
        by_contra hlt
        simp [hbefore j (by omega)] at hcons'
      have hge : j ≤ i := by
        by_contra hlt
        simp [hbefore' i (by omega)] at hcons
      obtain rfl : i = j := by omega
      rw [hcons] at hcons'
      obtain ⟨rfl, _⟩ := List.cons.inj hcons'
      rfl
  | idle hnil => simp [hnil i hi] at hcons

theorem getProc_eq_none : s.getProc.1 = none ↔ ∀ i < maxPrio, s.ready i = [] := by
  have hstep := s.getStep
  unfold getProc getMlqProc
  generalize getLoop 2 s = r at hstep
  obtain ⟨r, s'⟩ := r
  cases hstep with
  | @served i proc rest hi _ hcons _ =>
      simp only [Option.map_some, reduceCtorEq, false_iff]
      intro hnil
      simp [hnil i hi] at hcons
  | @refilled i proc rest hi hcons _ _ =>
      simp only [Option.map_some, reduceCtorEq, false_iff]
      intro hnil
      simp [hnil i hi] at hcons
  | idle hnil => simpa using hnil

/-! ### The counters -/

/-- No counter is above its initial value. -/
def SlotBounded (s : Sched) : Prop := ∀ i, s.slot i ≤ maxPrio - i

theorem SlotBounded.serve (h : SlotBounded s) (i : ℕ) (proc : Pcb) :
    SlotBounded (s.serve i proc) := by
  intro j
  by_cases he : j = i
  · subst he
    rw [slot_serve_self]
    exact le_trans (Nat.sub_le _ _) (h j)
  · rw [slot_serve_of_ne he]
    exact h j

theorem slotBounded_resetSlots (s : Sched) : SlotBounded s.resetSlots := fun _ => le_rfl

theorem SlotBounded.step {e : SchedCall} (h : SlotBounded s) (hs : mlqLts.step s e s') :
    SlotBounded s' := by
  cases hs with
  | add _ => exact h
  | put _ => exact h
  | get =>
      have hstep := s.getStep
      unfold getProc getMlqProc
      generalize getLoop 2 s = r at hstep
      obtain ⟨r, s'⟩ := r
      cases hstep with
      | served _ _ _ _ => exact h.serve _ _
      | refilled _ _ _ _ => exact (slotBounded_resetSlots s).serve _ _
      | idle _ => exact slotBounded_resetSlots s

end Sched

open Sched

/-- **The dispatch policy**, in every state that any order of calls reaches. -/
theorem dispatch_policy {s₀ s : Sched} {es : List SchedCall}
    (hr : mlqLts.Run s₀.initScheduler es s) :
    (∀ i < maxPrio, 0 ≤ s.slot i ∧ s.slot i ≤ maxPrio - i) ∧
    (s.getProc.1 = none ↔ ∀ i < maxPrio, s.ready i = []) ∧
    (∀ i < maxPrio, ∀ proc rest, s.ready i = proc :: rest → 0 < s.slot i →
      (∀ j < i, s.ready j ≠ [] → s.slot j = 0) →
        s.getProc.1 = some proc ∧ Served s i rest s.getProc.2) ∧
    ((∀ j < maxPrio, s.ready j ≠ [] → s.slot j = 0) →
      ∀ i < maxPrio, ∀ proc rest, s.ready i = proc :: rest → (∀ j < i, s.ready j = []) →
        s.getProc.1 = some proc ∧ Served s.resetSlots i rest s.getProc.2) := by
  have hslot : SlotBounded s :=
    hr.invariant (I := SlotBounded) (fun _ _ _ h hs => h.step hs) (slotBounded_resetSlots s₀)
  have hserv : ∀ j, (s.ready j ≠ [] → s.slot j = 0) → ¬ s.Servable j := by
    rintro j hzero ⟨hpos, hready⟩
    have := hzero hready
    omega
  refine ⟨fun i _ => ⟨Nat.zero_le _, hslot i⟩, getProc_eq_none, ?_, ?_⟩
  · intro i hi proc rest hcons hpos hbefore
    have hget := getLoop_of_servable hi hpos hcons fun j hj => hserv j (hbefore j hj)
    unfold getProc getMlqProc
    rw [hget]
    exact ⟨rfl, served_serve hcons⟩
  · intro hnone i hi proc rest hcons hbefore
    have hget := getLoop_of_refill (fun j hj => hserv j (hnone j hj)) hi hcons hbefore
    unfold getProc getMlqProc
    rw [hget]
    exact ⟨rfl, served_serve hcons⟩

end

open Sched

/-- The process of priority 1 is alone and its slots are used up: the counters are refilled. -/
theorem dispatch_policy_sample : ∃ s,
    (@mlqLts sched22).Run (@Sched.initScheduler sched22 (@Sched.zero sched22))
      [.add ⟨1, 1, "p"⟩, .get, .put ⟨1, 1, "p"⟩] s ∧ @Sched.slot sched22 s 1 = 0 ∧
    (@Sched.getProc sched22 s).1 = some ⟨1, 1, "p"⟩ ∧
    @Served sched22 (@Sched.resetSlots sched22 s) 1 [] (@Sched.getProc sched22 s).2 := by
  let := sched22
  let p : Pcb := ⟨1, 1, "p"⟩
  let s₁ : Sched := zero.initScheduler.addProc p
  let s₂ : Sched := s₁.getProc.2.putProc p
  have hadd : mlqLts.step zero.initScheduler (.add p) s₁ := .add (by decide)
  have hput : mlqLts.step s₁.getProc.2 (.put p) s₂ := .put (by decide)
  have hrun : mlqLts.Run zero.initScheduler [.add p, .get, .put p] s₂ :=
    .snoc (.snoc (.snoc .nil hadd) .get) hput
  have hone : s₂.slot 1 = 0 ∧ s₂.ready 0 = [] ∧ s₂.ready 1 = [p] := by decide +kernel
  have hget := (dispatch_policy hrun).2.2.2 (by decide +kernel) 1 (by decide) p [] hone.2.2
    (by decide +kernel)
  exact ⟨s₂, hrun, hone.1, hget⟩

end BtlOs
