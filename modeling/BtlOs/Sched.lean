import BtlOs.Queue
import Mathlib.Logic.Function.Basic

/-! # The multilevel queue (`sched.c`)

One ready queue for each priority, a slot counter for each queue, and the list of the processes
that run.  `get_mlq_proc` serves the first queue that is not empty and has slots left; where there
is none it refills the counters and tries once more.

The functions hold `queue_lock` from end to end, so each call is one step. -/

namespace BtlOs

open SchedHeader

variable [SchedHeader]

/-- The static variables of `sched.c`. -/
structure Sched where
  mlqReadyQueue : ℕ → QueueT
  slot : ℕ → ℕ
  runningList : QueueT

namespace Sched

variable (s : Sched)

/-- The processes of the ready queue `i`. -/
def ready (i : ℕ) : List Pcb := (s.mlqReadyQueue i).toList

def running : List Pcb := s.runningList.toList

/-- The loop that sets `slot[i] = MAX_PRIO - i`. -/
def resetSlots : Sched := { s with slot := fun i => maxPrio - i }

/-- `init_scheduler`. -/
def initScheduler : Sched :=
  { s.resetSlots with mlqReadyQueue := fun i => (s.mlqReadyQueue i).clear }

/-- The static variables before `main`. -/
def zero : Sched := ⟨fun _ => .zero, fun _ => 0, .zero⟩

/-- The dequeue from the ready queue `i` that succeeded. -/
def serve (i : ℕ) (proc : Pcb) : Sched where
  mlqReadyQueue := Function.update s.mlqReadyQueue i (s.mlqReadyQueue i).dequeue.2
  slot := Function.update s.slot i (s.slot i - 1)
  runningList := s.runningList.enqueue proc

/-- One attempt of `get_mlq_proc`, over `n` queues from `i` on: the queue that was served with its
process. -/
def getAttempt : ℕ → ℕ → Sched → Option (ℕ × Pcb) × Sched
  | _, 0, s => (none, s)
  | i, n + 1, s =>
      if 0 < s.slot i ∧ (s.mlqReadyQueue i).empty = false then
        match (s.mlqReadyQueue i).dequeue.1 with
        | some proc => (some (i, proc), s.serve i proc)
        | none => getAttempt (i + 1) n { s with
            mlqReadyQueue := Function.update s.mlqReadyQueue i (s.mlqReadyQueue i).dequeue.2 }
      else getAttempt (i + 1) n s

/-- The attempts of `get_mlq_proc`. -/
def getLoop : ℕ → Sched → Option (ℕ × Pcb) × Sched
  | 0, s => (none, s)
  | attempts + 1, s =>
      match getAttempt 0 maxPrio s with
      | (some r, s) => (some r, s)
      | (none, s) => getLoop attempts s.resetSlots

/-- `get_mlq_proc`. -/
def getMlqProc : Option Pcb × Sched := ((getLoop 2 s).1.map Prod.snd, (getLoop 2 s).2)

/-- The common body of `put_mlq_proc` and `add_mlq_proc`. -/
def requeue (proc : Pcb) : Sched where
  mlqReadyQueue := Function.update s.mlqReadyQueue proc.prio
    ((s.mlqReadyQueue proc.prio).enqueue proc)
  slot := s.slot
  runningList := (s.runningList.dequeueRunning proc).2

def putMlqProc (proc : Pcb) : Sched := s.requeue proc
def addMlqProc (proc : Pcb) : Sched := s.requeue proc

def getProc : Option Pcb × Sched := s.getMlqProc
def putProc (proc : Pcb) : Sched := s.putMlqProc proc
def addProc (proc : Pcb) : Sched := s.addMlqProc proc

/-! ### What the calls do -/

/-- The ready queue `i` is not empty and has slots left. -/
def Servable (i : ℕ) : Prop := 0 < s.slot i ∧ s.ready i ≠ []

/-- The queue of the process is full. -/
def Full (proc : Pcb) : Prop := maxQueueSize ≤ (s.ready proc.prio).length

instance (proc : Pcb) : Decidable (s.Full proc) := inferInstanceAs (Decidable (_ ≤ _))

variable {s}

theorem servable_resetSlots {i : ℕ} (hi : i < maxPrio) :
    s.resetSlots.Servable i ↔ s.ready i ≠ [] := by
  have hpos : 0 < maxPrio - i := by omega
  exact ⟨fun h => h.2, fun h => ⟨hpos, h⟩⟩

theorem ready_update (mlq : ℕ → QueueT) (i : ℕ) (q : QueueT) (slot : ℕ → ℕ) (run : QueueT) :
    (⟨Function.update mlq i q, slot, run⟩ : Sched).ready =
      Function.update (fun j => (mlq j).toList) i q.toList :=
  funext fun _ => Function.apply_update (fun _ => QueueT.toList) mlq i q _

theorem ready_serve {i : ℕ} {proc : Pcb} {rest : List Pcb} (h : s.ready i = proc :: rest) :
    (s.serve i proc).ready = Function.update s.ready i rest := by
  obtain ⟨q, hq, hrest⟩ := QueueT.dequeue_of_cons h
  unfold serve
  rw [ready_update, hq, hrest]
  rfl

theorem running_serve (i : ℕ) (proc : Pcb) : (s.serve i proc).running =
    if maxQueueSize ≤ s.runningList.size then s.running else s.running ++ [proc] :=
  QueueT.toList_enqueue proc

@[simp] theorem slot_serve_self (i : ℕ) (proc : Pcb) : (s.serve i proc).slot i = s.slot i - 1 :=
  Function.update_self i _ s.slot

theorem slot_serve_of_ne {i j : ℕ} (hne : j ≠ i) (proc : Pcb) :
    (s.serve i proc).slot j = s.slot j :=
  Function.update_of_ne hne _ s.slot

theorem ready_requeue (proc : Pcb) : (s.requeue proc).ready = Function.update s.ready proc.prio
    (if s.Full proc then s.ready proc.prio else s.ready proc.prio ++ [proc]) := by
  unfold requeue
  rw [ready_update, QueueT.toList_enqueue]
  simp only [Full, ready, QueueT.length_toList]
  rfl

theorem running_requeue (proc : Pcb) :
    (s.requeue proc).running = s.running.eraseP fun r => r.pid = proc.pid :=
  QueueT.toList_dequeueRunning proc

theorem getAttempt_cases (n : ℕ) : ∀ i,
    (∃ j proc rest, i ≤ j ∧ j < i + n ∧ 0 < s.slot j ∧ s.ready j = proc :: rest ∧
      (∀ k, i ≤ k → k < j → ¬ s.Servable k) ∧
      getAttempt i n s = (some (j, proc), s.serve j proc)) ∨
    ((∀ k, i ≤ k → k < i + n → ¬ s.Servable k) ∧ getAttempt i n s = (none, s)) := by
  induction n with
  | zero => exact fun i => .inr ⟨fun k h₁ h₂ => absurd h₂ (by omega), rfl⟩
  | succ n ih =>
      intro i
      by_cases hi : s.Servable i
      · obtain ⟨hslot, hready⟩ := hi
        obtain ⟨proc, rest, hcons⟩ := List.exists_cons_of_ne_nil hready
        have hempty : (s.mlqReadyQueue i).empty = false := by
          rw [Bool.eq_false_iff, ne_eq, QueueT.empty_eq_true]
          exact hready
        obtain ⟨q, hq, _⟩ := QueueT.dequeue_of_cons hcons
        refine .inl ⟨i, proc, rest, Nat.le_refl i, by omega, hslot, hcons, ?_, ?_⟩
        · intro k h₁ h₂
          omega
        · rw [getAttempt, if_pos ⟨hslot, hempty⟩, hq]
      · have hskip : getAttempt i (n + 1) s = getAttempt (i + 1) n s := by
          rw [getAttempt, if_neg]
          rintro ⟨hslot, hempty⟩
          refine hi ⟨hslot, fun hnil => ?_⟩
          rw [QueueT.empty_eq_true.mpr hnil] at hempty
          cases hempty
        have hfirst : ∀ k, i ≤ k → (i + 1 ≤ k → ¬ s.Servable k) → ¬ s.Servable k := by
          intro k hk hlt
          by_cases he : k = i
          · exact he ▸ hi
          · exact hlt (by omega)
        rw [hskip]
        apply (ih (i + 1)).imp
        · rintro ⟨j, proc, rest, h₁, h₂, hslot, hcons, hbefore, hget⟩
          exact ⟨j, proc, rest, by omega, by omega, hslot, hcons,
            fun k hk hlt => hfirst k hk fun hk' => hbefore k hk' hlt, hget⟩
        · rintro ⟨hnone, hget⟩
          exact ⟨fun k hk hlt => hfirst k hk fun hk' => hnone k hk' (by omega), hget⟩

/-- The counters are refilled exactly where no queue is servable. -/
theorem getAttempt_eq_none :
    (getAttempt 0 maxPrio s).1 = none ↔ ∀ i < maxPrio, ¬ s.Servable i := by
  cases getAttempt_cases (s := s) maxPrio 0 with
  | inl h =>
      obtain ⟨j, proc, rest, _, hlt, hslot, hcons, _, hget⟩ := h
      rw [hget]
      refine ⟨fun h => absurd h (by simp), fun h => absurd ⟨hslot, ?_⟩ (h j (by omega))⟩
      rw [hcons]
      exact List.cons_ne_nil _ _
  | inr h =>
      obtain ⟨hnone, hget⟩ := h
      rw [hget]
      exact ⟨fun _ i hi => hnone i (Nat.zero_le i) (by omega), fun _ => rfl⟩

/-- The three ways in which `get_mlq_proc` returns: a queue is served; one is served after the
counters were refilled; all queues are empty. -/
inductive GetStep (s : Sched) : Option (ℕ × Pcb) → Sched → Prop
  | served {i : ℕ} {proc : Pcb} {rest : List Pcb} : i < maxPrio → 0 < s.slot i →
      s.ready i = proc :: rest → (∀ j < i, ¬ s.Servable j) →
      GetStep s (some (i, proc)) (s.serve i proc)
  | refilled {i : ℕ} {proc : Pcb} {rest : List Pcb} : i < maxPrio → s.ready i = proc :: rest →
      (∀ j < maxPrio, ¬ s.Servable j) → (∀ j < i, s.ready j = []) →
      GetStep s (some (i, proc)) (s.resetSlots.serve i proc)
  | idle : (∀ j < maxPrio, s.ready j = []) → GetStep s none s.resetSlots

theorem getStep (s : Sched) : GetStep s (getLoop 2 s).1 (getLoop 2 s).2 := by
  cases getAttempt_cases (s := s) maxPrio 0 with
  | inl h =>
      obtain ⟨j, proc, rest, _, hlt, hslot, hcons, hbefore, hget⟩ := h
      have hloop : getLoop 2 s = (some (j, proc), s.serve j proc) := by
        rw [getLoop, hget]
      rw [hloop]
      exact .served (by omega) hslot hcons fun k hk => hbefore k (Nat.zero_le k) hk
  | inr h =>
      obtain ⟨hnone, hget⟩ := h
      have hfirst : ∀ j < maxPrio, ¬ s.Servable j :=
        fun j hj => hnone j (Nat.zero_le j) (by omega)
      have hloop : getLoop 2 s = getLoop 1 s.resetSlots := by
        rw [getLoop, hget]
      rw [hloop]
      cases getAttempt_cases (s := s.resetSlots) maxPrio 0 with
      | inl h =>
          obtain ⟨j, proc, rest, _, hlt, _, hcons, hbefore, hget'⟩ := h
          have hloop' : getLoop 1 s.resetSlots =
              (some (j, proc), s.resetSlots.serve j proc) := by
            rw [getLoop, hget']
          rw [hloop']
          refine .refilled (by omega) hcons hfirst fun k hk => ?_
          by_contra hne
          exact hbefore k (Nat.zero_le k) hk ((servable_resetSlots (by omega)).mpr hne)
      | inr h =>
          obtain ⟨hnone', hget'⟩ := h
          have hloop' : getLoop 1 s.resetSlots = (none, s.resetSlots) := by
            rw [getLoop, hget']
            rfl
          rw [hloop']
          refine .idle fun j hj => ?_
          by_contra hne
          exact hnone' j (Nat.zero_le j) (by omega) ((servable_resetSlots hj).mpr hne)

/-- `get_proc` finds all queues empty, or it takes the head of one, which joins `running_list` if
there is room. -/
theorem getProc_cases : s.getProc = (none, s.resetSlots) ∨
    ∃ i proc rest, s.getProc.1 = some proc ∧ s.ready i = proc :: rest ∧
      s.getProc.2.ready = Function.update s.ready i rest ∧
      (s.getProc.2.running = s.running ∨ s.getProc.2.running = s.running ++ [proc]) := by
  have hrunning : ∀ (t : Sched) i proc, (t.serve i proc).running = t.running ∨
      (t.serve i proc).running = t.running ++ [proc] := by
    intro t i proc
    rw [running_serve]
    split_ifs
    · exact .inl rfl
    · exact .inr rfl
  have hstep := s.getStep
  unfold getProc getMlqProc
  generalize (getLoop 2 s).1 = r at hstep
  generalize (getLoop 2 s).2 = s' at hstep
  cases hstep with
  | served _ _ hcons _ =>
      exact .inr ⟨_, _, _, rfl, hcons, ready_serve hcons, hrunning s _ _⟩
  | refilled _ hcons _ _ =>
      exact .inr ⟨_, _, _, rfl, hcons, ready_serve (s := s.resetSlots) hcons,
        hrunning s.resetSlots _ _⟩
  | idle _ => exact .inl rfl

end Sched

end BtlOs
