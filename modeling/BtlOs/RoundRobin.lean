import BtlOs.Bypass
import BtlOs.Lib.Mealy

/-! # One priority (`sched.c`)

Without `MLQ_SCHED`, `sched.c` keeps one ready queue, and `get_proc` takes its head.  Where all
processes have one priority the multilevel queue does the same, although its counter runs out and
is refilled again and again: both answer every sequence of calls as round robin on a list does. -/

namespace BtlOs

open SchedHeader Mealy

variable [SchedHeader]

/-! ### The scheduler without `MLQ_SCHED` -/

/-- The static variables of `sched.c`; nothing is put into `run_queue`. -/
structure PlainSched where
  readyQueue : QueueT
  runQueue : QueueT
  runningList : QueueT

namespace PlainSched

variable (s : PlainSched)

/-- The static variables before `main`. -/
def zero : PlainSched := ⟨.zero, .zero, .zero⟩

/-- `init_scheduler`. -/
def initScheduler : PlainSched :=
  { s with readyQueue := s.readyQueue.clear, runQueue := s.runQueue.clear }

/-- `get_proc`. -/
def getProc : Option Pcb × PlainSched :=
  match s.readyQueue.dequeue with
  | (some proc, q) =>
      (some proc, { s with readyQueue := q, runningList := s.runningList.enqueue proc })
  | (none, q) => (none, { s with readyQueue := q })

/-- The common body of `put_proc` and `add_proc`. -/
def requeue (proc : Pcb) : PlainSched :=
  { s with
    readyQueue := s.readyQueue.enqueue proc
    runningList := (s.runningList.dequeueRunning proc).2 }

def putProc (proc : Pcb) : PlainSched := s.requeue proc
def addProc (proc : Pcb) : PlainSched := s.requeue proc

/-- A call and what it returns. -/
def call : SchedCall → Option Pcb × PlainSched
  | .add proc => (none, s.addProc proc)
  | .put proc => (none, s.putProc proc)
  | .get => s.getProc

end PlainSched

/-- A call of the multilevel queue and what it returns. -/
def Sched.call (s : Sched) : SchedCall → Option Pcb × Sched
  | .add proc => (none, s.addProc proc)
  | .put proc => (none, s.putProc proc)
  | .get => s.getProc

/-! ### Round robin -/

/-- The processes that wait and those that run. -/
structure RoundRobin where
  waiting : List Pcb
  running : List Pcb

namespace RoundRobin

/-- Appended where there is room. -/
def push (l : List Pcb) (proc : Pcb) : List Pcb :=
  if maxQueueSize ≤ l.length then l else l ++ [proc]

/-- The process waits, at the end. -/
def requeue (r : RoundRobin) (proc : Pcb) : RoundRobin where
  waiting := push r.waiting proc
  running := r.running.eraseP fun q => q.pid = proc.pid

def call (r : RoundRobin) : SchedCall → Option Pcb × RoundRobin
  | .add proc => (none, r.requeue proc)
  | .put proc => (none, r.requeue proc)
  | .get =>
      match r.waiting with
      | [] => (none, r)
      | proc :: rest => (some proc, ⟨rest, push r.running proc⟩)

/-- What the calls of `get_proc` returned. -/
def got (cs : List SchedCall) (rs : List (Option Pcb)) : List (Option Pcb) :=
  ((cs.zip rs).filter fun c => c.1 = .get).map Prod.snd

theorem getElem?_push {l : List Pcb} {k : ℕ} {q : Pcb} (h : l[k]? = some q) (proc : Pcb) :
    (push l proc)[k]? = some q := by
  unfold push
  split_ifs
  · exact h
  · obtain ⟨hk, _⟩ := List.getElem?_eq_some_iff.mp h
    rw [List.getElem?_append_left hk, h]

/-- **The order**: a process at place `k` is returned by the call `k` of `get_proc` from now. -/
theorem got_of_place (cs : List SchedCall) : ∀ (r : RoundRobin) (k : ℕ) (q : Pcb),
    r.waiting[k]? = some q → k < cs.count .get → (got cs (trace call r cs).1)[k]? = some (some q) := by
  induction cs with
  | nil =>
      intro r k q _ hk
      simp at hk
  | cons c cs ih =>
      intro r k q hplace hk
      cases c with
      | add proc =>
          refine ih (r.requeue proc) k q (getElem?_push hplace proc) ?_
          simpa using hk
      | put proc =>
          refine ih (r.requeue proc) k q (getElem?_push hplace proc) ?_
          simpa using hk
      | get =>
          obtain ⟨waiting, running⟩ := r
          cases waiting with
          | nil => simp at hplace
          | cons head rest =>
              rw [List.count_cons_self] at hk
              cases k with
              | zero =>
                  obtain rfl : head = q := by simpa using hplace
                  rfl
              | succ k =>
                  exact ih ⟨rest, push running head⟩ k q (by simpa using hplace) (by omega)

end RoundRobin

/-! ### Both schedulers are round robin -/

/-- All processes have the priority `p`. -/
def OfPrio (p : ℕ) : SchedCall → Prop
  | .add proc => proc.prio = p
  | .put proc => proc.prio = p
  | .get => True

structure Sched.Shows (p : ℕ) (s : Sched) (r : RoundRobin) : Prop where
  waiting : s.ready p = r.waiting
  others : ∀ i, i ≠ p → s.ready i = []
  running : s.running = r.running

structure PlainSched.Shows (s : PlainSched) (r : RoundRobin) : Prop where
  waiting : s.readyQueue.toList = r.waiting
  running : s.runningList.toList = r.running

variable {p : ℕ} {s : Sched} {t : PlainSched} {r : RoundRobin} {c : SchedCall}

theorem QueueT.toList_push (q : QueueT) (proc : Pcb) :
    (q.enqueue proc).toList = RoundRobin.push q.toList proc := by
  rw [toList_enqueue]
  unfold RoundRobin.push
  rw [length_toList]

namespace Sched.Shows

theorem requeue (h : s.Shows p r) {proc : Pcb} (hp : proc.prio = p) :
    (s.requeue proc).Shows p (r.requeue proc) := by
  subst hp
  refine ⟨?_, fun i hi => ?_, ?_⟩
  · rw [ready_requeue, Function.update_self]
    show _ = RoundRobin.push r.waiting proc
    rw [← h.waiting]
    rfl
  · rw [ready_requeue, Function.update_of_ne hi]
    exact h.others i hi
  · show (s.runningList.dequeueRunning proc).2.toList = _
    rw [QueueT.toList_dequeueRunning]
    exact congrArg (List.eraseP _) h.running

theorem serve (h : s.Shows p r) {i : ℕ} {proc : Pcb} {rest : List Pcb}
    (hcons : s.ready i = proc :: rest) : r.waiting = proc :: rest ∧
      (s.serve i proc).Shows p ⟨rest, RoundRobin.push r.running proc⟩ := by
  obtain rfl : i = p := by
    by_contra hne
    rw [h.others i hne] at hcons
    cases hcons
  refine ⟨h.waiting.symm.trans hcons, ?_, fun k hk => ?_, ?_⟩
  · rw [ready_serve hcons, Function.update_self]
  · rw [ready_serve hcons, Function.update_of_ne hk]
    exact h.others k hk
  · show (s.runningList.enqueue proc).toList = _
    rw [QueueT.toList_push, ← h.running]
    rfl

/-- Refilled counters are not seen. -/
theorem getProc (h : s.Shows p r) (hp : p < maxPrio) :
    s.getProc.1 = (r.call .get).1 ∧ s.getProc.2.Shows p (r.call .get).2 := by
  have hreset : s.resetSlots.Shows p r := ⟨h.waiting, h.others, h.running⟩
  have hcall : ∀ {proc : Pcb} {rest : List Pcb}, r.waiting = proc :: rest →
      r.call .get = (some proc, ⟨rest, RoundRobin.push r.running proc⟩) := by
    intro proc rest hr
    simp only [RoundRobin.call, hr]
  have hstep := s.getStep
  unfold Sched.getProc getMlqProc
  generalize (getLoop 2 s).1 = res at hstep
  generalize (getLoop 2 s).2 = s' at hstep
  cases hstep with
  | served _ _ hcons _ =>
      obtain ⟨hwaiting, hshows⟩ := h.serve hcons
      rw [hcall hwaiting]
      exact ⟨rfl, hshows⟩
  | refilled _ hcons _ _ =>
      obtain ⟨hwaiting, hshows⟩ := hreset.serve hcons
      rw [hcall hwaiting]
      exact ⟨rfl, hshows⟩
  | idle hnil =>
      have hwaiting : r.waiting = [] := h.waiting.symm.trans (hnil p hp)
      have hnone : r.call .get = (none, r) := by
        simp only [RoundRobin.call, hwaiting]
      rw [hnone]
      exact ⟨rfl, hreset⟩

theorem call (h : s.Shows p r) (hp : p < maxPrio) (hc : OfPrio p c) :
    (s.call c).1 = (r.call c).1 ∧ (s.call c).2.Shows p (r.call c).2 := by
  cases c with
  | add proc => exact ⟨rfl, h.requeue hc⟩
  | put proc => exact ⟨rfl, h.requeue hc⟩
  | get => exact h.getProc hp

theorem start (p : ℕ) : zero.initScheduler.Shows p ⟨[], []⟩ := ⟨rfl, fun _ _ => rfl, rfl⟩

end Sched.Shows

namespace PlainSched.Shows

theorem requeue (h : t.Shows r) (proc : Pcb) : (t.requeue proc).Shows (r.requeue proc) := by
  constructor
  · show (t.readyQueue.enqueue proc).toList = _
    rw [QueueT.toList_push, h.waiting]
    rfl
  · show (t.runningList.dequeueRunning proc).2.toList = _
    rw [QueueT.toList_dequeueRunning, h.running]
    rfl

theorem getProc (h : t.Shows r) :
    t.getProc.1 = (r.call .get).1 ∧ t.getProc.2.Shows (r.call .get).2 := by
  obtain ⟨waiting, running⟩ := r
  have hwaiting : t.readyQueue.toList = waiting := h.waiting
  have hrunning : t.runningList.toList = running := h.running
  unfold PlainSched.getProc
  cases waiting with
  | nil =>
      have hsize : t.readyQueue.size = 0 := by
        rw [← QueueT.length_toList, hwaiting, List.length_nil]
      have hnone : t.readyQueue.dequeue = (none, t.readyQueue) := by
        rw [QueueT.dequeue, dif_pos hsize]
      rw [hnone]
      exact ⟨rfl, hwaiting, hrunning⟩
  | cons proc rest =>
      obtain ⟨q, hq, hrest⟩ := QueueT.dequeue_of_cons hwaiting
      rw [hq]
      refine ⟨rfl, hrest, ?_⟩
      show (t.runningList.enqueue proc).toList = _
      rw [QueueT.toList_push, hrunning]
      rfl

theorem call (h : t.Shows r) (c : SchedCall) :
    (t.call c).1 = (r.call c).1 ∧ (t.call c).2.Shows (r.call c).2 := by
  cases c with
  | add proc => exact ⟨rfl, h.requeue proc⟩
  | put proc => exact ⟨rfl, h.requeue proc⟩
  | get => exact h.getProc

theorem start : PlainSched.zero.initScheduler.Shows ⟨[], []⟩ := ⟨rfl, rfl⟩

end PlainSched.Shows

/-! ### The calls on both -/

/-- After the same calls: the same results, the same processes in the same order in the only ready
queue that is used and in `running_list`, and from now on `get_proc` returns the waiting processes
in this order, whatever else is called. -/
structure SameCalls (p : ℕ) (cs : List SchedCall) (s : Sched) (t : PlainSched) : Prop where
  results : (trace Sched.call s cs).1 = (trace PlainSched.call t cs).1
  ready : (trace Sched.call s cs).2.ready p = (trace PlainSched.call t cs).2.readyQueue.toList
  others : ∀ i, i ≠ p → (trace Sched.call s cs).2.ready i = []
  running : (trace Sched.call s cs).2.running = (trace PlainSched.call t cs).2.runningList.toList
  order : ∀ cs', (∀ c ∈ cs', OfPrio p c) → ∀ k proc,
    ((trace Sched.call s cs).2.ready p)[k]? = some proc → k < cs'.count .get →
      (RoundRobin.got cs' (trace Sched.call (trace Sched.call s cs).2 cs').1)[k]? = some (some proc)

/-- **One priority**: the multilevel queue is the plain scheduler, for all sequences of calls. -/
theorem one_priority (hp : p < maxPrio) {cs : List SchedCall} (hcs : ∀ c ∈ cs, OfPrio p c) :
    SameCalls p cs Sched.zero.initScheduler PlainSched.zero.initScheduler := by
  have hmlq : ∀ {s : Sched} {r : RoundRobin} {cs : List SchedCall}, s.Shows p r →
      (∀ c ∈ cs, OfPrio p c) → (trace Sched.call s cs).1 = (trace RoundRobin.call r cs).1 ∧
        (trace Sched.call s cs).2.Shows p (trace RoundRobin.call r cs).2 := by
    intro s r cs hR hP
    refine trace_simulate (P := OfPrio p) (fun s r c hc h => ?_) hR hP
    exact Sched.Shows.call h hp hc
  have hplain : (trace PlainSched.call PlainSched.zero.initScheduler cs).1 =
      (trace RoundRobin.call ⟨[], []⟩ cs).1 ∧
        (trace PlainSched.call PlainSched.zero.initScheduler cs).2.Shows
          (trace RoundRobin.call ⟨[], []⟩ cs).2 := by
    refine trace_simulate (P := fun _ => True) (fun t r c _ h => ?_) PlainSched.Shows.start
      fun _ _ => trivial
    exact PlainSched.Shows.call h c
  obtain ⟨hres, hshows⟩ := hmlq (Sched.Shows.start p) hcs
  obtain ⟨hres', hshows'⟩ := hplain
  refine ⟨hres.trans hres'.symm, hshows.waiting.trans hshows'.waiting.symm, hshows.others,
    hshows.running.trans hshows'.running.symm, fun cs' hcs' k proc hplace hk => ?_⟩
  rw [(hmlq hshows hcs').1]
  exact RoundRobin.got_of_place cs' _ k proc (hshows.waiting ▸ hplace) hk

omit [SchedHeader] in
/-- Two processes of priority 1 take turns while the counter of their queue is refilled. -/
theorem one_priority_sample : @SameCalls sched22 1
    [.add ⟨1, 1, "p0"⟩, .add ⟨2, 1, "p1"⟩, .get, .put ⟨1, 1, "p0"⟩, .get]
    (@Sched.initScheduler sched22 (@Sched.zero sched22))
    (@PlainSched.initScheduler sched22 (@PlainSched.zero sched22)) :=
  @one_priority sched22 1 (by decide) _ (by simp [OfPrio])

end BtlOs
