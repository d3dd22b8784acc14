import BtlOs.Killall

/-! # The loop of a CPU (`os.c`)

`cpu_routine` on `n` CPUs, with the loader.  The exit test stands behind the second look at
`proc`, and only the branches that gave a process up reach it without one: a CPU that holds no
process at the top of its loop asks `get_proc`, waits for a slot and starts over.

A step is one call of the scheduler, or one branch of the loop with no call in it.  Three steps are
longer than a critical section of the source: the branch for a finished process, the call of `run`,
and in it the system call `killall`.  The `pc` of a process has no lock, and `__sys_killall` walks
the queues and the running list without `queue_lock`; here each of the three is taken as a whole, so
the interleavings of the model are those in which nothing gets into its middle. -/

namespace BtlOs

open SchedHeader

variable [SchedHeader]

/-! ### The model -/

/-- Where a CPU is: at the top of its loop, before the `get_proc` of a branch that gave its process
up, at the second look at `proc`, in `next_slot`, or behind the loop. -/
inductive CpuLoc where
  | top
  | reload
  | recheck
  | slot
  | stopped
deriving DecidableEq

/-- The processes, the locals `time_left` of the CPUs, the processes that the loader has still to
load, and the global `done`. -/
structure Machine extends Procs where
  loc : ℕ → CpuLoc
  timeLeft : ℕ → ℤ
  toLoad : List Pcb
  done : Bool

inductive RoutineEvent where
  | load
  | loaded
  | get (cpu : ℕ)
  | finish (cpu : ℕ)
  | put (cpu : ℕ)
  | keep (cpu : ℕ)
  | reload (cpu : ℕ)
  | stop (cpu : ℕ)
  | wait (cpu : ℕ)
  | run (cpu : ℕ)
  | killall (cpu : ℕ) (procName : String)
  | ret (cpu : ℕ)

namespace Machine

variable (s : Machine)

def goto (cpu : ℕ) (loc : CpuLoc) : Machine := { s with loc := Function.update s.loc cpu loc }

/-- `proc = get_proc()`. -/
def fetch (cpu : ℕ) : Machine :=
  { s with cpus := { s.cpus with
      sched := s.cpus.sched.getProc.2
      held := Function.update s.cpus.held cpu s.cpus.sched.getProc.1 } }

/-- `run(proc)` before the instruction is executed: `pc` is incremented, and a process at the end
of its code is left alone. -/
def advance (codeSize : Pcb → ℕ) (proc : Pcb) : Machine :=
  { s with
    pc := Function.update s.pc proc
      (if codeSize proc ≤ s.pc proc then s.pc proc else s.pc proc + 1) }

/-- The end of an iteration in which a process ran; a new slot starts where none is left. -/
def useSlot (timeSlot : ℤ) (cpu : ℕ) : Machine :=
  { s with
    timeLeft := Function.update s.timeLeft cpu
      ((if s.timeLeft cpu = 0 then timeSlot else s.timeLeft cpu) - 1) }

/-- `__sys_killall` of a process that runs. -/
def kill (codeSize : Pcb → ℕ) (procName : String) : Machine :=
  { s with toProcs := s.toProcs.killall codeSize procName }

/-- When the threads start. -/
def start (toLoad : List Pcb) : Machine where
  cpus := .start
  pc := fun _ => 0
  loc := fun _ => .top
  timeLeft := fun _ => 0
  toLoad := toLoad
  done := false

end Machine

/-- The steps of `n` CPUs and of the loader.  `run` is an instruction that leaves the queues
alone. -/
inductive RoutineStep (n : ℕ) (codeSize : Pcb → ℕ) (timeSlot : ℤ) (s : Machine) :
    RoutineEvent → Machine → Prop
  | load {proc : Pcb} {rest : List Pcb} : s.toLoad = proc :: rest → proc.prio < maxPrio →
      (∀ q ∈ s.cpus.added, q.pid ≠ proc.pid) → RoutineStep n codeSize timeSlot s .load
        { s with
          cpus := { s.cpus.enlist proc with added := proc :: s.cpus.added }
          pc := Function.update s.pc proc 0
          toLoad := rest }
  | loaded : s.toLoad = [] → RoutineStep n codeSize timeSlot s .loaded { s with done := true }
  | get {cpu : ℕ} : cpu < n → s.loc cpu = .top → s.cpus.held cpu = none →
      RoutineStep n codeSize timeSlot s (.get cpu) ((s.fetch cpu).goto cpu
        (if s.cpus.sched.getProc.1 = none then .slot else .recheck))
  | finish {cpu : ℕ} {proc : Pcb} : cpu < n → s.loc cpu = .top → s.cpus.held cpu = some proc →
      s.pc proc = codeSize proc → RoutineStep n codeSize timeSlot s (.finish cpu)
        ({ s with
          cpus := s.cpus.complete cpu proc
          timeLeft := Function.update s.timeLeft cpu 0 }.goto cpu .reload)
  | put {cpu : ℕ} {proc : Pcb} : cpu < n → s.loc cpu = .top → s.cpus.held cpu = some proc →
      s.pc proc ≠ codeSize proc → s.timeLeft cpu = 0 →
      RoutineStep n codeSize timeSlot s (.put cpu)
        ({ s with cpus := { s.cpus.enlist proc with
          held := Function.update s.cpus.held cpu none } }.goto cpu .reload)
  | keep {cpu : ℕ} {proc : Pcb} : cpu < n → s.loc cpu = .top → s.cpus.held cpu = some proc →
      s.pc proc ≠ codeSize proc → s.timeLeft cpu ≠ 0 →
      RoutineStep n codeSize timeSlot s (.keep cpu) (s.goto cpu .recheck)
  | reload {cpu : ℕ} : cpu < n → s.loc cpu = .reload → s.cpus.held cpu = none →
      RoutineStep n codeSize timeSlot s (.reload cpu) ((s.fetch cpu).goto cpu .recheck)
  | stop {cpu : ℕ} : cpu < n → s.loc cpu = .recheck → s.cpus.held cpu = none → s.done = true →
      RoutineStep n codeSize timeSlot s (.stop cpu) (s.goto cpu .stopped)
  | wait {cpu : ℕ} : cpu < n → s.loc cpu = .recheck → s.cpus.held cpu = none → s.done = false →
      RoutineStep n codeSize timeSlot s (.wait cpu) (s.goto cpu .slot)
  | run {cpu : ℕ} {proc : Pcb} : cpu < n → s.loc cpu = .recheck → s.cpus.held cpu = some proc →
      RoutineStep n codeSize timeSlot s (.run cpu)
        (((s.advance codeSize proc).useSlot timeSlot cpu).goto cpu .slot)
  | killall {cpu : ℕ} {proc : Pcb} {procName : String} : cpu < n → s.loc cpu = .recheck →
      s.cpus.held cpu = some proc → s.pc proc < codeSize proc →
      RoutineStep n codeSize timeSlot s (.killall cpu procName)
        ((((s.advance codeSize proc).kill codeSize procName).useSlot timeSlot cpu).goto cpu .slot)
  | ret {cpu : ℕ} : cpu < n → s.loc cpu = .slot →
      RoutineStep n codeSize timeSlot s (.ret cpu) (s.goto cpu .top)

def routineLts (n : ℕ) (codeSize : Pcb → ℕ) (timeSlot : ℤ) : Lts Machine RoutineEvent :=
  ⟨RoutineStep n codeSize timeSlot⟩

variable {n cpu : ℕ} {codeSize : Pcb → ℕ} {timeSlot : ℤ} {s s' : Machine}

/-! ### The loop moves processes as the CPUs do -/

theorem RoutineStep.cpus_run {e : RoutineEvent} (hs : RoutineStep n codeSize timeSlot s e s') :
    ∃ es, cpuLts.Run s.cpus es s'.cpus := by
  have hone : ∀ {e : CpuEvent} {t : Cpus}, CpuStep s.cpus e t → ∃ es, cpuLts.Run s.cpus es t :=
    fun h => ⟨_, Lts.Run.nil.snoc h⟩
  cases hs with
  | load _ hprio hpid => exact hone (.add hprio hpid)
  | loaded _ => exact ⟨[], .nil⟩
  | get _ _ hheld => exact hone (.get hheld)
  | finish _ _ hheld _ => exact hone (.finish hheld)
  | put _ _ hheld _ _ => exact hone (.put hheld)
  | keep _ _ _ _ _ => exact ⟨[], .nil⟩
  | reload _ _ hheld => exact hone (.get hheld)
  | stop _ _ _ _ => exact ⟨[], .nil⟩
  | wait _ _ _ _ => exact ⟨[], .nil⟩
  | run _ _ _ => exact ⟨[], .nil⟩
  | @killall _ proc procName _ _ _ _ =>
      exact Procs.killall_run codeSize procName (s.advance codeSize proc).toProcs
  | ret _ _ => exact ⟨[], .nil⟩

/-- **Simulation.**  The processes of a run of the loops are in the places of a run of the CPUs. -/
theorem routine_run_cpus {es : List RoutineEvent} {toLoad : List Pcb}
    (hr : (routineLts n codeSize timeSlot).Run (.start toLoad) es s) :
    ∃ es', cpuLts.Run .start es' s.cpus := by
  induction hr with
  | nil => exact ⟨[], .nil⟩
  | snoc _ hs ih =>
      obtain ⟨es₁, hrun₁⟩ := ih
      obtain ⟨es₂, hrun₂⟩ := hs.cpus_run
      exact ⟨es₁ ++ es₂, hrun₁.append hrun₂⟩

/-! ### The iteration of a CPU without a process -/

/-- `done` is set, all ready queues are empty, and the CPU is at the top of its loop without a
process. -/
structure Idle (s : Machine) (cpu : ℕ) : Prop where
  done : s.done = true
  ready : ∀ i < maxPrio, s.ready i = []
  top : s.loc cpu = .top
  held : s.cpus.held cpu = none

/-- Whatever the others do meanwhile, the CPU does not start over before it leaves its loop. -/
def Leaves (n : ℕ) (codeSize : Pcb → ℕ) (timeSlot : ℤ) (s : Machine) (cpu : ℕ) : Prop :=
  ∃ es s', (routineLts n codeSize timeSlot).Run s es s' ∧ .ret cpu ∉ es ∧ s'.loc cpu = .stopped

/-- The CPU is in an iteration that it began without a process: it waits for the next slot, or
`get_proc` has given it a process to run. -/
inductive BeganEmpty (s : Machine) (cpu : ℕ) : Prop
  | top : s.loc cpu = .top → s.cpus.held cpu = none → BeganEmpty s cpu
  | got {proc : Pcb} : s.loc cpu = .recheck → s.cpus.held cpu = some proc → BeganEmpty s cpu
  | slot : s.loc cpu = .slot → BeganEmpty s cpu

/-- The CPU that makes a step. -/
def RoutineEvent.actor : RoutineEvent → Option ℕ
  | .load => none
  | .loaded => none
  | .get cpu => some cpu
  | .finish cpu => some cpu
  | .put cpu => some cpu
  | .keep cpu => some cpu
  | .reload cpu => some cpu
  | .stop cpu => some cpu
  | .wait cpu => some cpu
  | .run cpu => some cpu
  | .killall cpu _ => some cpu
  | .ret cpu => some cpu

theorem Procs.killall_held (procName : String) (s : Procs) :
    (s.killall codeSize procName).cpus.held = s.cpus.held := by
  have hloop : ∀ (k i : ℕ) (s : Procs), (killQueues procName i k s).cpus.held = s.cpus.held := by
    intro k
    induction k with
    | zero => exact fun _ _ => rfl
    | succ k ih =>
        intro i s
        rw [killQueues, ih]
        unfold killQueue
        cases (s.cpus.sched.mlqReadyQueue i).scan procName with
        | none => rfl
        | some _ => rfl
  unfold killall
  rw [hloop, stopRunning_cpus]

/-- The other CPUs and the loader do not touch the CPU. -/
theorem RoutineStep.frame {e : RoutineEvent} (hs : RoutineStep n codeSize timeSlot s e s')
    (hne : e.actor ≠ some cpu) :
    s'.loc cpu = s.loc cpu ∧ s'.cpus.held cpu = s.cpus.held cpu := by
  have hother : ∀ {cpu' : ℕ}, some cpu' ≠ some cpu → cpu ≠ cpu' := by
    rintro cpu' hne rfl
    exact hne rfl
  cases hs with
  | load _ _ _ => exact ⟨rfl, rfl⟩
  | loaded _ => exact ⟨rfl, rfl⟩
  | get _ _ _ =>
      exact ⟨Function.update_of_ne (hother hne) _ _, Function.update_of_ne (hother hne) _ _⟩
  | finish _ _ _ _ =>
      exact ⟨Function.update_of_ne (hother hne) _ _, Function.update_of_ne (hother hne) _ _⟩
  | put _ _ _ _ _ =>
      exact ⟨Function.update_of_ne (hother hne) _ _, Function.update_of_ne (hother hne) _ _⟩
  | reload _ _ _ =>
      exact ⟨Function.update_of_ne (hother hne) _ _, Function.update_of_ne (hother hne) _ _⟩
  | keep _ _ _ _ _ => exact ⟨Function.update_of_ne (hother hne) _ _, rfl⟩
  | stop _ _ _ _ => exact ⟨Function.update_of_ne (hother hne) _ _, rfl⟩
  | wait _ _ _ _ => exact ⟨Function.update_of_ne (hother hne) _ _, rfl⟩
  | run _ _ _ => exact ⟨Function.update_of_ne (hother hne) _ _, rfl⟩
  | ret _ _ => exact ⟨Function.update_of_ne (hother hne) _ _, rfl⟩
  | @killall _ proc procName _ _ _ _ =>
      refine ⟨Function.update_of_ne (hother hne) _ _, ?_⟩
      exact congrFun (Procs.killall_held procName (s.advance codeSize proc).toProcs) cpu

theorem BeganEmpty.step {e : RoutineEvent} (h : BeganEmpty s cpu)
    (hs : RoutineStep n codeSize timeSlot s e s') (hret : e ≠ .ret cpu) : BeganEmpty s' cpu := by
  by_cases hne : e.actor = some cpu
  · have htop : ∀ {proc : Pcb}, s.loc cpu = .top → ¬ s.cpus.held cpu = some proc := by
      intro proc hloc hheld
      cases h with
      | top _ hnone => simp [hnone] at hheld
      | got hloc' _ => simp [hloc'] at hloc
      | slot hloc' => simp [hloc'] at hloc
    have hrecheck : s.loc cpu = .recheck → ¬ s.cpus.held cpu = none := by
      intro hloc hheld
      cases h with
      | top hloc' _ => simp [hloc'] at hloc
      | got _ hsome => simp [hsome] at hheld
      | slot hloc' => simp [hloc'] at hloc
    cases hs with
    | load _ _ _ => cases hne
    | loaded _ => cases hne
    | @get cpu' _ _ _ =>
        obtain rfl := Option.some.inj hne
        cases hget : s.cpus.sched.getProc.1 with
        | none => exact .slot (by simp [Machine.goto])
        | some proc =>
            have hheld : ((s.fetch cpu').goto cpu' (if some proc = none then .slot
                else .recheck)).cpus.held cpu' = some proc := by
              simp [Machine.goto, Machine.fetch, hget]
            exact .got (by simp [Machine.goto]) hheld
    | finish _ hloc hheld _ =>
        obtain rfl := Option.some.inj hne
        exact absurd hheld (htop hloc)
    | put _ hloc hheld _ _ =>
        obtain rfl := Option.some.inj hne
        exact absurd hheld (htop hloc)
    | keep _ hloc hheld _ _ =>
        obtain rfl := Option.some.inj hne
        exact absurd hheld (htop hloc)
    | reload _ hloc _ =>
        obtain rfl := Option.some.inj hne
        cases h with
        | top hloc' _ => simp [hloc'] at hloc
        | got hloc' _ => simp [hloc'] at hloc
        | slot hloc' => simp [hloc'] at hloc
    | stop _ hloc hheld _ =>
        obtain rfl := Option.some.inj hne
        exact absurd hheld (hrecheck hloc)
    | wait _ hloc hheld _ =>
        obtain rfl := Option.some.inj hne
        exact absurd hheld (hrecheck hloc)
    | run _ _ _ =>
        obtain rfl := Option.some.inj hne
        exact .slot (Function.update_self ..)
    | killall _ _ _ _ =>
        obtain rfl := Option.some.inj hne
        exact .slot (Function.update_self ..)
    | ret _ _ =>
        obtain rfl := Option.some.inj hne
        exact absurd rfl hret
  · obtain ⟨hloc, hheld⟩ := hs.frame hne
    cases h with
    | top h₁ h₂ => exact .top (hloc.trans h₁) (hheld.trans h₂)
    | got h₁ h₂ => exact .got (hloc.trans h₁) (hheld.trans h₂)
    | slot h₁ => exact .slot (hloc.trans h₁)

theorem BeganEmpty.run {es : List RoutineEvent} (h : BeganEmpty s cpu)
    (hr : (routineLts n codeSize timeSlot).Run s es s') (hret : .ret cpu ∉ es) :
    BeganEmpty s' cpu := by
  induction hr with
  | nil => exact h
  | snoc _ hs ih =>
      refine (ih fun hmem => hret (List.mem_append_left _ hmem)).step hs ?_
      rintro rfl
      exact hret (List.mem_append_right _ List.mem_cons_self)

/-- An iteration that began without a process does not leave the loop. -/
theorem BeganEmpty.not_leaves (h : BeganEmpty s cpu) : ¬ Leaves n codeSize timeSlot s cpu := by
  rintro ⟨es, s', hr, hret, hstop⟩
  cases h.run hr hret with
  | top hloc _ => simp [hloc] at hstop
  | got hloc _ => simp [hloc] at hstop
  | slot hloc => simp [hloc] at hstop

/-! ### CPUs do not shut down -/

theorem Sched.getProc_of_empty {s : Sched} (h : ∀ i < maxPrio, s.ready i = []) :
    s.getProc = (none, s.resetSlots) := by
  have hstep := s.getStep
  unfold getProc getMlqProc
  cases hget : getLoop 2 s with
  | mk r t =>
      rw [hget] at hstep
      cases hstep with
      | served hi _ hcons _ => simp [h _ hi] at hcons
      | refilled hi hcons _ _ => simp [h _ hi] at hcons
      | idle _ => rfl

/-- The machine with refilled slots. -/
def Machine.resetSlots (s : Machine) : Machine :=
  { s with cpus := { s.cpus with sched := s.cpus.sched.resetSlots } }

theorem Idle.resetSlots (h : Idle s cpu) : Idle s.resetSlots cpu := ⟨h.done, h.ready, h.top, h.held⟩

theorem Idle.again (h : Idle s cpu) (hcpu : cpu < n) :
    (routineLts n codeSize timeSlot).Run s [.get cpu, .ret cpu] s.resetSlots := by
  have hget : RoutineStep n codeSize timeSlot s (.get cpu) (s.resetSlots.goto cpu .slot) := by
    have hstep : RoutineStep n codeSize timeSlot s (.get cpu) _ := .get hcpu h.top h.held
    have hfetch : s.fetch cpu = s.resetSlots := by
      unfold Machine.fetch Machine.resetSlots
      rw [Sched.getProc_of_empty h.ready, ← h.held, Function.update_eq_self]
    rwa [hfetch, Sched.getProc_of_empty h.ready, if_pos rfl] at hstep
  have hret : RoutineStep n codeSize timeSlot (s.resetSlots.goto cpu .slot) (.ret cpu)
      ((s.resetSlots.goto cpu .slot).goto cpu .top) := .ret hcpu (Function.update_self ..)
  have hsame : (s.resetSlots.goto cpu .slot).goto cpu .top = s.resetSlots := by
    unfold Machine.goto
    rw [Function.update_idem, ← h.resetSlots.top, Function.update_eq_self]
  rw [hsame] at hret
  exact (Lts.Run.nil.snoc hget).snoc hret

/-- **CPUs do not shut down.**  From every state in which `done` is set, all ready queues are empty
and a CPU holds no process at the top of its loop, its next iteration does not leave the loop,
whatever the others do.  Alone it returns to the same state with refilled slots, and from there to
exactly the same state. -/
theorem never_leaves (h : Idle s cpu) (hcpu : cpu < n) :
    ¬ Leaves n codeSize timeSlot s cpu ∧
    (routineLts n codeSize timeSlot).Run s [.get cpu, .ret cpu] s.resetSlots ∧
    (routineLts n codeSize timeSlot).Run s.resetSlots [.get cpu, .ret cpu] s.resetSlots :=
  ⟨(BeganEmpty.top h.top h.held).not_leaves, h.again hcpu, h.resetSlots.again hcpu⟩

omit [SchedHeader] in
/-- One process for two CPUs: the first one dispatches it, the second one finds all queues empty. -/
theorem idle_sample : ∃ s, (@routineLts sched22 2 (fun _ => 5) 2).Run
    (@Machine.start sched22 [⟨1, 0, "p1"⟩]) [.load, .loaded, .get 0] s ∧ @Idle sched22 s 1 := by
  let := sched22
  let s₀ : Machine := .start [⟨1, 0, "p1"⟩]
  let s₁ : Machine := { s₀ with
    cpus := { s₀.cpus.enlist ⟨1, 0, "p1"⟩ with added := [⟨1, 0, "p1"⟩] }
    pc := Function.update s₀.pc ⟨1, 0, "p1"⟩ 0
    toLoad := [] }
  let s₂ : Machine := { s₁ with done := true }
  let s₃ : Machine := (s₂.fetch 0).goto 0
    (if s₂.cpus.sched.getProc.1 = none then .slot else .recheck)
  have h₁ : RoutineStep 2 (fun _ => 5) 2 s₀ .load s₁ := .load rfl (by decide) (by decide)
  have h₂ : RoutineStep 2 (fun _ => 5) 2 s₁ .loaded s₂ := .loaded rfl
  have h₃ : RoutineStep 2 (fun _ => 5) 2 s₂ (.get 0) s₃ := .get (by decide) rfl rfl
  have hready : ∀ i < 2, s₃.ready i = [] := by decide +kernel
  exact ⟨s₃, ((Lts.Run.nil.snoc h₁).snoc h₂).snoc h₃, rfl, hready, rfl, rfl⟩

omit [SchedHeader] in
theorem never_leaves_sample : ∃ s, @Idle sched22 s 1 ∧ (@routineLts sched22 2 (fun _ => 5) 2).Run
    (@Machine.resetSlots sched22 s) [.get 1, .ret 1] (@Machine.resetSlots sched22 s) := by
  let := sched22
  obtain ⟨s, _, hidle⟩ := idle_sample
  exact ⟨s, hidle, (never_leaves hidle (by decide)).2.2⟩

omit [SchedHeader] in
/-- The second CPU of this run waits for a slot and starts over. -/
theorem not_shut_down : ∃ s, (@routineLts sched22 2 (fun _ => 5) 2).Run
    (@Machine.start sched22 [⟨1, 0, "p1"⟩]) [.load, .loaded, .get 0] s ∧ @Idle sched22 s 1 ∧
      ¬ @Leaves sched22 2 (fun _ => 5) 2 s 1 := by
  let := sched22
  obtain ⟨s, hrun, hidle⟩ := idle_sample
  exact ⟨s, hrun, hidle, (BeganEmpty.top hidle.top hidle.held).not_leaves⟩

end BtlOs
