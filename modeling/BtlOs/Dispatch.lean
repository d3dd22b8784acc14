import BtlOs.Sched
import BtlOs.Lib.Lts
import BtlOs.Lib.Table
import BtlOs.Lib.TokenPool

/-! # Processes between the queues and the CPUs

The scheduler with any number of CPUs: `held` is what the local `proc` of each `cpu_routine`
points to.  A step is one call of the loader or of a CPU, the completion of a process, or the
removal that `killall` makes in one ready queue.  `added` and `finished` are the processes that
were loaded and those that were freed; `refused` those that found their queue full.

`Exclusive` is the invariant: a process is in at most one place, and what was freed is nowhere.
Each kind of step moves one process, so its lemma is an argument about that process. -/

namespace BtlOs

open SchedHeader TokenPool Table

section

variable [SchedHeader]

structure Cpus where
  sched : Sched
  held : ℕ → Option Pcb
  added : List Pcb
  finished : List Pcb
  refused : List Pcb

inductive CpuEvent where
  | add (proc : Pcb)
  | get (cpu : ℕ)
  | put (cpu : ℕ)
  | finish (cpu : ℕ)
  | killall (prio : ℕ) (procName : String)

/-- `strstr(path, proc_name)`. -/
def strstr (path procName : String) : Bool := decide (procName.toList <:+: path.toList)

namespace Cpus

variable (s : Cpus)

/-- `add_proc` and `put_proc` of a process; a full queue does not take it. -/
def enlist (proc : Pcb) : Cpus :=
  { s with
    sched := s.sched.requeue proc
    refused := if s.sched.Full proc then proc :: s.refused else s.refused }

/-- The search of `__sys_killall` in the ready queue `prio`. -/
def victim (prio : ℕ) (procName : String) : Option Pcb :=
  (s.sched.ready prio).find? fun proc => strstr proc.path procName

/-- The removal of `__sys_killall` from the ready queue `prio`. -/
def kill (prio : ℕ) (proc : Pcb) : Cpus :=
  { s with
    sched := ⟨Function.update s.sched.mlqReadyQueue prio
      ((s.sched.mlqReadyQueue prio).dequeueRunning proc).2, s.sched.slot, s.sched.runningList⟩
    finished := proc :: s.finished }

/-- The completion of a process in `cpu_routine`: it leaves `running_list` and is freed. -/
def complete (cpu : ℕ) (proc : Pcb) : Cpus :=
  { s with
    sched := ⟨s.sched.mlqReadyQueue, s.sched.slot, (s.sched.runningList.dequeueRunning proc).2⟩
    held := Function.update s.held cpu none
    finished := proc :: s.finished }

end Cpus

inductive CpuStep : Cpus → CpuEvent → Cpus → Prop
  | add {s : Cpus} {proc : Pcb} : proc.prio < maxPrio → (∀ q ∈ s.added, q.pid ≠ proc.pid) →
      CpuStep s (.add proc) { s.enlist proc with added := proc :: s.added }
  | get {s : Cpus} {cpu : ℕ} : s.held cpu = none → CpuStep s (.get cpu) { s with
      sched := s.sched.getProc.2
      held := Function.update s.held cpu s.sched.getProc.1 }
  | put {s : Cpus} {cpu : ℕ} {proc : Pcb} : s.held cpu = some proc → CpuStep s (.put cpu)
      { s.enlist proc with held := Function.update s.held cpu none }
  | finish {s : Cpus} {cpu : ℕ} {proc : Pcb} : s.held cpu = some proc →
      CpuStep s (.finish cpu) (s.complete cpu proc)
  | killall {s : Cpus} {prio : ℕ} {procName : String} {proc : Pcb} : prio < maxPrio →
      s.victim prio procName = some proc → CpuStep s (.killall prio procName) (s.kill prio proc)

/-- The state after an event, where the event can happen. -/
def Cpus.next (s : Cpus) : CpuEvent → Option Cpus
  | .add proc => if proc.prio < maxPrio ∧ ∀ q ∈ s.added, q.pid ≠ proc.pid then
      some { s.enlist proc with added := proc :: s.added } else none
  | .get cpu => if s.held cpu = none then some { s with
      sched := s.sched.getProc.2
      held := Function.update s.held cpu s.sched.getProc.1 } else none
  | .put cpu => (s.held cpu).map fun proc =>
      { s.enlist proc with held := Function.update s.held cpu none }
  | .finish cpu => (s.held cpu).map fun proc => s.complete cpu proc
  | .killall prio procName => if prio < maxPrio then
      (s.victim prio procName).map fun proc => s.kill prio proc else none

theorem cpuStep_of_next {s s' : Cpus} {e : CpuEvent} (h : s.next e = some s') : CpuStep s e s' := by
  cases e with
  | add proc =>
      simp only [Cpus.next] at h
      split_ifs at h with hadd
      obtain rfl := Option.some.inj h
      exact .add hadd.1 hadd.2
  | get cpu =>
      simp only [Cpus.next] at h
      split_ifs at h with hcpu
      obtain rfl := Option.some.inj h
      exact .get hcpu
  | put cpu =>
      obtain ⟨proc, hcpu, rfl⟩ := Option.map_eq_some_iff.mp h
      exact .put hcpu
  | finish cpu =>
      obtain ⟨proc, hcpu, rfl⟩ := Option.map_eq_some_iff.mp h
      exact .finish hcpu
  | killall prio procName =>
      simp only [Cpus.next] at h
      split_ifs at h with hprio
      obtain ⟨proc, hvic, rfl⟩ := Option.map_eq_some_iff.mp h
      exact .killall hprio hvic

def cpuLts : Lts Cpus CpuEvent := ⟨CpuStep⟩

/-- The CPUs when the threads start. -/
def Cpus.start : Cpus := ⟨Sched.zero.initScheduler, fun _ => none, [], [], []⟩

/-! ### The invariant -/

/-- Every process is in at most one place. -/
structure Exclusive (s : Cpus) : Prop where
  prio : ∀ i, ∀ proc ∈ s.sched.ready i, proc.prio = i
  nodup : ∀ i, (s.sched.ready i).Nodup
  notMem : ∀ {cpu proc}, s.held cpu = some proc → proc ∉ s.sched.ready proc.prio
  inj : ∀ {cpu cpu' proc}, s.held cpu = some proc → s.held cpu' = some proc → cpu = cpu'
  running_nodup : s.sched.running.Nodup
  running_held : ∀ proc ∈ s.sched.running, ∃ cpu, s.held cpu = some proc
  pids : ∀ proc ∈ s.added, ∀ q ∈ s.added, q.pid = proc.pid → q = proc
  ready_live : ∀ i, ∀ proc ∈ s.sched.ready i, proc ∈ s.added ∧ proc ∉ s.finished
  held_live : ∀ cpu proc, s.held cpu = some proc → proc ∈ s.added ∧ proc ∉ s.finished
  finished_added : ∀ proc ∈ s.finished, proc ∈ s.added

variable {s s' : Cpus} {cpu : ℕ} {proc : Pcb}

omit [SchedHeader] in
theorem eraseP_pid {l : List Pcb} (h : ∀ q ∈ l, q.pid = proc.pid → q = proc) :
    l.eraseP (fun r => r.pid = proc.pid) = l.erase proc := by
  induction l with
  | nil => rfl
  | cons q l ih =>
      rw [List.erase_cons]
      by_cases he : q = proc
      · subst he
        simp
      · have hpid : ¬ q.pid = proc.pid := fun hq => he (h q List.mem_cons_self hq)
        rw [List.eraseP_cons_of_neg (by simpa using hpid),
          ih fun r hr => h r (List.mem_cons_of_mem q hr)]
        simp [he]

theorem exclusive_start : Exclusive Cpus.start := by
  constructor <;> simp [Cpus.start, Sched.initScheduler, Sched.zero, Sched.ready, Sched.running,
    Sched.resetSlots]

/-- A process that runs is in no ready queue. -/
theorem Exclusive.notMem_running (h : Exclusive s) (hp : proc ∈ s.sched.ready proc.prio) :
    proc ∉ s.sched.running := by
  intro hr
  obtain ⟨cpu, hcpu⟩ := h.running_held proc hr
  exact h.notMem hcpu hp

theorem mem_ready_enlist {i : ℕ} {q : Pcb} (h : q ∈ (s.sched.requeue proc).ready i) :
    q ∈ s.sched.ready i ∨ q = proc ∧ i = proc.prio := by
  rw [Sched.ready_requeue, Function.update_apply] at h
  split_ifs at h with hi hfull
  · exact .inl (hi ▸ h)
  · cases List.mem_append.mp h with
    | inl h => exact .inl (hi ▸ h)
    | inr h => exact .inr ⟨List.mem_singleton.mp h, hi⟩
  · exact .inl h

theorem Exclusive.enlist (h : Exclusive s) (held : ℕ → Option Pcb) (added : List Pcb)
    (hready : proc ∉ s.sched.ready proc.prio)
    (hheld : ∀ c q, held c = some q ↔ s.held c = some q ∧ q ≠ proc)
    (hadded : ∀ q ∈ s.added, q ∈ added) (hproc : proc ∈ added) (hlive : proc ∉ s.finished)
    (hpids : ∀ r ∈ added, ∀ q ∈ added, q.pid = r.pid → q = r) :
    Exclusive { s.enlist proc with held := held, added := added } := by
  have hrunning : ∀ q ∈ s.sched.running, q.pid = proc.pid → q = proc := by
    intro q hq
    obtain ⟨c, hc⟩ := h.running_held q hq
    exact hpids proc hproc q (hadded q (h.held_live c q hc).1)
  have herase : (s.sched.requeue proc).running = s.sched.running.erase proc := by
    rw [Sched.running_requeue, eraseP_pid hrunning]
  constructor
  · intro i q hq
    cases mem_ready_enlist hq with
    | inl hq => exact h.prio i q hq
    | inr hq => rw [hq.1, hq.2]
  · intro i
    show ((s.sched.requeue proc).ready i).Nodup
    rw [Sched.ready_requeue, Function.update_apply]
    split_ifs with hi hfull
    · exact h.nodup _
    · apply List.Nodup.append (h.nodup _) (List.nodup_singleton proc)
      intro q hq hmem
      rw [List.mem_singleton.mp hmem] at hq
      exact hready hq
    · exact h.nodup i
  · intro c q hc hq
    obtain ⟨hc, hne⟩ := (hheld c q).mp hc
    cases mem_ready_enlist hq with
    | inl hq => exact h.notMem hc hq
    | inr hq => exact hne hq.1
  · intro c c' q hc hc'
    exact h.inj ((hheld c q).mp hc).1 ((hheld c' q).mp hc').1
  · show (s.sched.requeue proc).running.Nodup
    rw [herase]
    exact h.running_nodup.erase proc
  · intro q hq
    have hq' : q ∈ (s.sched.requeue proc).running := hq
    rw [herase, h.running_nodup.mem_erase_iff] at hq'
    obtain ⟨c, hc⟩ := h.running_held q hq'.2
    exact ⟨c, (hheld c q).mpr ⟨hc, hq'.1⟩⟩
  · exact hpids
  · intro i q hq
    cases mem_ready_enlist hq with
    | inl hq => exact ⟨hadded q (h.ready_live i q hq).1, (h.ready_live i q hq).2⟩
    | inr hq =>
        obtain ⟨rfl, _⟩ := hq
        exact ⟨hproc, hlive⟩
  · intro c q hc
    have hlive := h.held_live c q ((hheld c q).mp hc).1
    exact ⟨hadded q hlive.1, hlive.2⟩
  · exact fun q hq => hadded q (h.finished_added q hq)

theorem Exclusive.add (h : Exclusive s) (hpid : ∀ q ∈ s.added, q.pid ≠ proc.pid) :
    Exclusive { s.enlist proc with added := proc :: s.added } := by
  have hfresh : proc ∉ s.added := fun hmem => hpid proc hmem rfl
  refine h.enlist s.held (proc :: s.added) (fun hmem => hfresh (h.ready_live _ proc hmem).1)
    (fun c q => ⟨fun hc => ⟨hc, ?_⟩, And.left⟩) (fun q => List.mem_cons_of_mem proc)
    List.mem_cons_self (fun hmem => hfresh (h.finished_added proc hmem)) ?_
  · rintro rfl
    exact hfresh (h.held_live c q hc).1
  · intro r hr q hq hrq
    cases List.mem_cons.mp hr with
    | inl hr =>
        cases List.mem_cons.mp hq with
        | inl hq => rw [hq, hr]
        | inr hq => exact absurd (hr ▸ hrq) (hpid q hq)
    | inr hr =>
        cases List.mem_cons.mp hq with
        | inl hq => exact absurd (hq ▸ hrq).symm (hpid r hr)
        | inr hq => exact h.pids r hr q hq hrq

theorem Exclusive.held_ne_iff (h : Exclusive s) (hcpu : s.held cpu = some proc) (c : ℕ) (q : Pcb) :
    Function.update s.held cpu none c = some q ↔ s.held c = some q ∧ q ≠ proc := by
  by_cases hc : c = cpu
  · subst hc
    rw [Function.update_self, hcpu]
    simp [eq_comm]
  · rw [Function.update_of_ne hc]
    refine ⟨fun hq => ⟨hq, ?_⟩, And.left⟩
    rintro rfl
    exact hc (h.inj hq hcpu)

theorem Exclusive.put (h : Exclusive s) (hcpu : s.held cpu = some proc) :
    Exclusive { s.enlist proc with held := Function.update s.held cpu none } :=
  h.enlist _ s.added (h.notMem hcpu) (h.held_ne_iff hcpu) (fun _ => id)
    (h.held_live cpu proc hcpu).1
    (h.held_live cpu proc hcpu).2 h.pids

/-- The queues after a process has left its own: `l` is what is left of that queue. -/
theorem Exclusive.leave {l : List Pcb} {ready : ℕ → List Pcb} (h : Exclusive s)
    (hready : ready = Function.update s.sched.ready proc.prio l) (hnodup : l.Nodup)
    (hl : ∀ q ∈ l, q ∈ s.sched.ready proc.prio ∧ q ≠ proc) (j : ℕ) :
    (ready j).Nodup ∧ ∀ q ∈ ready j, q ∈ s.sched.ready j ∧ q ≠ proc := by
  rw [hready, Function.update_apply]
  split_ifs with hj
  · exact ⟨hnodup, hj ▸ hl⟩
  · refine ⟨h.nodup j, fun q hq => ⟨hq, ?_⟩⟩
    rintro rfl
    exact hj (h.prio j q hq).symm

omit [SchedHeader] in
theorem held_dispatch {held : ℕ → Option Pcb} {c : ℕ} {q : Pcb} (hcpu : held cpu = none)
    (hc : held c = some q) : Function.update held cpu (some proc) c = some q := by
  apply update_of_ne _ hc
  rintro rfl
  rw [hcpu] at hc
  cases hc

/-- A process moves from its queue to a CPU. -/
theorem Exclusive.dispatch {i : ℕ} {rest : List Pcb} {sched : Sched} (h : Exclusive s)
    (hcpu : s.held cpu = none) (hcons : s.sched.ready i = proc :: rest)
    (hready : sched.ready = Function.update s.sched.ready i rest)
    (hrunning : sched.running = s.sched.running ∨ sched.running = s.sched.running ++ [proc]) :
    Exclusive { s with sched := sched, held := Function.update s.held cpu (some proc) } := by
  have hmem : proc ∈ s.sched.ready i := by simp [hcons]
  obtain rfl := h.prio i proc hmem
  obtain ⟨hout, hnodup⟩ := List.nodup_cons.mp (hcons ▸ h.nodup proc.prio)
  have hleave := h.leave hready hnodup fun q hq =>
    ⟨hcons ▸ List.mem_cons_of_mem proc hq, ne_of_mem_of_not_mem hq hout⟩
  have hsub : ∀ j, ∀ q ∈ sched.ready j, q ∈ s.sched.ready j ∧ q ≠ proc :=
    fun j => (hleave j).2
  have hfree : ∀ c, s.held c ≠ some proc := fun c hc => h.notMem hc hmem
  constructor
  · exact fun j q hq => h.prio j q (hsub j q hq).1
  · exact fun j => (hleave j).1
  · intro c q hc hq
    cases update_eq_some.mp hc with
    | inl he => exact (hsub _ q hq).2 (Option.some.inj he.2).symm
    | inr hc => exact h.notMem hc.2 (hsub _ q hq).1
  · intro c c' q hc hc'
    cases update_eq_some.mp hc with
    | inl he =>
        obtain rfl := Option.some.inj he.2
        cases update_eq_some.mp hc' with
        | inl he' => rw [he.1, he'.1]
        | inr hold => exact absurd hold.2 (hfree c')
    | inr hold =>
        cases update_eq_some.mp hc' with
        | inl he' =>
            obtain rfl := Option.some.inj he'.2
            exact absurd hold.2 (hfree c)
        | inr hold' => exact h.inj hold.2 hold'.2
  · show sched.running.Nodup
    cases hrunning with
    | inl hr => exact hr ▸ h.running_nodup
    | inr hr =>
        rw [hr]
        apply List.Nodup.append h.running_nodup (List.nodup_singleton proc)
        intro q hq hq'
        rw [List.mem_singleton.mp hq'] at hq
        exact h.notMem_running hmem hq
  · intro q hq
    have hcases : q ∈ s.sched.running ∨ q = proc := by
      have hq' : q ∈ sched.running := hq
      cases hrunning with
      | inl hr => exact .inl (hr ▸ hq')
      | inr hr =>
          rw [hr, List.mem_append, List.mem_singleton] at hq'
          exact hq'
    cases hcases with
    | inl hq =>
        obtain ⟨c, hc⟩ := h.running_held q hq
        exact ⟨c, held_dispatch hcpu hc⟩
    | inr hq => exact ⟨cpu, by rw [hq]; exact Function.update_self ..⟩
  · exact h.pids
  · exact fun j q hq => h.ready_live j q (hsub j q hq).1
  · intro c q hc
    cases update_eq_some.mp hc with
    | inl he =>
        obtain rfl := Option.some.inj he.2
        exact h.ready_live _ proc hmem
    | inr hc => exact h.held_live c q hc.2
  · exact h.finished_added

theorem Exclusive.get (h : Exclusive s) (hcpu : s.held cpu = none) : Exclusive { s with
    sched := s.sched.getProc.2, held := Function.update s.held cpu s.sched.getProc.1 } := by
  cases Sched.getProc_cases (s := s.sched) with
  | inl hidle =>
      rw [hidle, ← hcpu, Function.update_eq_self]
      exact ⟨h.prio, h.nodup, h.notMem, h.inj, h.running_nodup, h.running_held, h.pids,
        h.ready_live, h.held_live, h.finished_added⟩
  | inr hget =>
      obtain ⟨i, proc, rest, hproc, hcons, hready, hrunning⟩ := hget
      rw [hproc]
      exact h.dispatch hcpu hcons hready hrunning

theorem Exclusive.complete (h : Exclusive s) (hcpu : s.held cpu = some proc) :
    Exclusive (s.complete cpu proc) := by
  have hlive := h.held_live cpu proc hcpu
  have hheld := h.held_ne_iff hcpu
  have hpid : ∀ q ∈ s.sched.running, q.pid = proc.pid → q = proc := by
    intro q hq
    obtain ⟨c, hc⟩ := h.running_held q hq
    exact h.pids proc hlive.1 q (h.held_live c q hc).1
  have hrunning : (s.complete cpu proc).sched.running = s.sched.running.erase proc := by
    rw [← eraseP_pid hpid]
    exact QueueT.toList_dequeueRunning proc
  constructor
  · exact h.prio
  · exact h.nodup
  · exact fun hc => h.notMem ((hheld _ _).mp hc).1
  · exact fun hc hc' => h.inj ((hheld _ _).mp hc).1 ((hheld _ _).mp hc').1
  · rw [hrunning]
    exact h.running_nodup.erase proc
  · intro q hq
    rw [hrunning, h.running_nodup.mem_erase_iff] at hq
    obtain ⟨c, hc⟩ := h.running_held q hq.2
    exact ⟨c, (hheld c q).mpr ⟨hc, hq.1⟩⟩
  · exact h.pids
  · intro i q hq
    obtain ⟨hadded, hfin⟩ := h.ready_live i q hq
    refine ⟨hadded, List.not_mem_cons_of_ne_of_not_mem ?_ hfin⟩
    rintro rfl
    exact h.notMem hcpu (h.prio i q hq ▸ hq)
  · intro c q hc
    obtain ⟨hc, hne⟩ := (hheld c q).mp hc
    obtain ⟨hadded, hfin⟩ := h.held_live c q hc
    exact ⟨hadded, List.not_mem_cons_of_ne_of_not_mem hne hfin⟩
  · intro q hq
    cases List.mem_cons.mp hq with
    | inl he => exact he ▸ hlive.1
    | inr hq => exact h.finished_added q hq

theorem Exclusive.ready_kill {prio : ℕ} (h : Exclusive s) (hmem : proc ∈ s.sched.ready prio) :
    (s.kill prio proc).sched.ready =
      Function.update s.sched.ready prio ((s.sched.ready prio).erase proc) := by
  have hpid : ∀ q ∈ s.sched.ready prio, q.pid = proc.pid → q = proc := fun q hq =>
    h.pids proc (h.ready_live prio proc hmem).1 q (h.ready_live prio q hq).1
  rw [← eraseP_pid hpid]
  unfold Cpus.kill
  rw [Sched.ready_update, QueueT.toList_dequeueRunning]
  rfl

theorem Exclusive.kill {prio : ℕ} (h : Exclusive s) (hmem : proc ∈ s.sched.ready prio) :
    Exclusive (s.kill prio proc) := by
  have hready := h.ready_kill hmem
  obtain rfl := h.prio prio proc hmem
  have hleave := h.leave hready ((h.nodup _).erase proc) fun q hq =>
    ((h.nodup proc.prio).mem_erase_iff.mp hq).symm
  have hsub : ∀ j, ∀ q ∈ (s.kill proc.prio proc).sched.ready j,
      q ∈ s.sched.ready j ∧ q ≠ proc := fun j => (hleave j).2
  constructor
  · exact fun j q hq => h.prio j q (hsub j q hq).1
  · exact fun j => (hleave j).1
  · exact fun hc hq => h.notMem hc (hsub _ _ hq).1
  · exact h.inj
  · exact h.running_nodup
  · exact h.running_held
  · exact h.pids
  · intro j q hq
    obtain ⟨hq, hne⟩ := hsub j q hq
    obtain ⟨hadded, hfin⟩ := h.ready_live j q hq
    exact ⟨hadded, List.not_mem_cons_of_ne_of_not_mem hne hfin⟩
  · intro c q hc
    obtain ⟨hadded, hfin⟩ := h.held_live c q hc
    refine ⟨hadded, List.not_mem_cons_of_ne_of_not_mem ?_ hfin⟩
    rintro rfl
    exact h.notMem hc hmem
  · intro q hq
    cases List.mem_cons.mp hq with
    | inl he => exact he ▸ (h.ready_live _ proc hmem).1
    | inr hq => exact h.finished_added q hq

theorem Cpus.mem_of_victim {prio : ℕ} {procName : String} (h : s.victim prio procName = some proc) :
    proc ∈ s.sched.ready prio := List.mem_of_find?_eq_some h

theorem Exclusive.step {e : CpuEvent} (h : Exclusive s) (hs : CpuStep s e s') : Exclusive s' := by
  cases hs with
  | add _ hpid => exact h.add hpid
  | get hcpu => exact h.get hcpu
  | put hcpu => exact h.put hcpu
  | finish hcpu => exact h.complete hcpu
  | killall _ hvic => exact h.kill (Cpus.mem_of_victim hvic)

/-! ### Exclusive ownership -/

/-- All entries of the ready queues. -/
def Cpus.pool (s : Cpus) : List Pcb := (List.range maxPrio).flatMap s.sched.ready

/-- What the invariant says about the places of a process. -/
structure OnePlace (s : Cpus) : Prop where
  once : ∀ proc, (s.pool.count proc : ℕ∞) + {cpu | s.held cpu = some proc}.encard ≤ 1
  running_nodup : s.sched.running.Nodup
  running_held : ∀ proc ∈ s.sched.running, ∃ cpu, s.held cpu = some proc
  finished : ∀ proc ∈ s.finished,
    proc ∉ s.pool ∧ proc ∉ s.sched.running ∧ ∀ cpu, s.held cpu ≠ some proc

theorem Exclusive.mem_pool (h : Exclusive s) (hmem : proc ∈ s.pool) :
    proc ∈ s.sched.ready proc.prio := by
  obtain ⟨i, _, hi⟩ := List.mem_flatMap.mp hmem
  exact h.prio i proc hi ▸ hi

theorem Exclusive.unique (h : Exclusive s) : Unique s.pool s.held where
  nodup := by
    rw [Cpus.pool, List.nodup_flatMap]
    refine ⟨fun i _ => h.nodup i, List.Pairwise.imp ?_ List.nodup_range⟩
    intro i j hij q hi hj
    exact hij ((h.prio i q hi).symm.trans (h.prio j q hj))
  notMem hcpu hmem := h.notMem hcpu (h.mem_pool hmem)
  inj := h.inj

theorem Exclusive.onePlace (h : Exclusive s) : OnePlace s where
  once := unique_iff_encard.mp h.unique
  running_nodup := h.running_nodup
  running_held := h.running_held
  finished := by
    intro proc hfin
    refine ⟨fun hmem => (h.ready_live _ proc (h.mem_pool hmem)).2 hfin, fun hmem => ?_,
      fun cpu hcpu => (h.held_live cpu proc hcpu).2 hfin⟩
    obtain ⟨cpu, hcpu⟩ := h.running_held proc hmem
    exact (h.held_live cpu proc hcpu).2 hfin

theorem exclusive_of_run {es : List CpuEvent} (hr : cpuLts.Run .start es s) : Exclusive s :=
  hr.invariant (fun _ _ _ h hs => h.step hs) exclusive_start

/-- **Exclusive ownership.**  Whatever the loader, the CPUs and `killall` do, and even where full
queues refuse processes, every process is in one place at most. -/
theorem one_place {es : List CpuEvent} (hr : cpuLts.Run .start es s) :
    OnePlace s ∧ ∀ cpu cpu' proc, s.held cpu = some proc → s.held cpu' = some proc → cpu = cpu' :=
  ⟨(exclusive_of_run hr).onePlace, fun _ _ _ => (exclusive_of_run hr).inj⟩

/-! ### No process is lost -/

/-- The process is in its own ready queue or on a CPU. -/
def Cpus.Dispatchable (s : Cpus) (proc : Pcb) : Prop :=
  proc ∈ s.sched.ready proc.prio ∨ ∃ cpu, s.held cpu = some proc

/-- The process was added, has not finished, and cannot be dispatched. -/
def Cpus.Lost (s : Cpus) (proc : Pcb) : Prop :=
  proc ∈ s.added ∧ proc ∉ s.finished ∧ ¬ s.Dispatchable proc

/-- Only a refused process is lost. -/
def Kept (s : Cpus) : Prop :=
  ∀ proc ∈ s.added, proc ∈ s.finished ∨ proc ∈ s.refused ∨ s.Dispatchable proc

theorem mem_ready_requeue {q : Pcb} {i : ℕ} (h : q ∈ s.sched.ready i) :
    q ∈ (s.sched.requeue proc).ready i := by
  rw [Sched.ready_requeue, Function.update_apply]
  split_ifs with hi hfull
  · exact hi ▸ h
  · exact List.mem_append_left _ (hi ▸ h)
  · exact h

theorem mem_ready_requeue_self (h : ¬ s.sched.Full proc) :
    proc ∈ (s.sched.requeue proc).ready proc.prio := by
  rw [Sched.ready_requeue, Function.update_self, if_neg h]
  exact List.mem_append_right _ List.mem_cons_self

/-- What becomes of the process that is put into its queue, and of the others. -/
theorem enlist_kept (held : ℕ → Option Pcb) (added : List Pcb)
    (hheld : ∀ c q, s.held c = some q → q ≠ proc → held c = some q) {q : Pcb}
    (hq : q = proc ∨ q ∈ s.finished ∨ q ∈ s.refused ∨ s.Dispatchable q) :
    q ∈ s.finished ∨ q ∈ (s.enlist proc).refused ∨
      ({ s.enlist proc with held := held, added := added } : Cpus).Dispatchable q := by
  unfold Cpus.enlist Cpus.Dispatchable at *
  by_cases he : q = proc
  · subst he
    by_cases hfull : s.sched.Full q
    · simp [hfull]
    · exact .inr (.inr (.inl (mem_ready_requeue_self hfull)))
  · cases hq.resolve_left he with
    | inl hfin => exact .inl hfin
    | inr hq =>
        refine .inr (hq.imp (fun href => ?_) (Or.imp mem_ready_requeue fun hc => ?_))
        · split_ifs
          · exact List.mem_cons_of_mem proc href
          · exact href
        · obtain ⟨c, hc⟩ := hc
          exact ⟨c, hheld c q hc he⟩

theorem dispatchable_dispatch {i : ℕ} {rest : List Pcb} {sched : Sched} {q : Pcb}
    (hcpu : s.held cpu = none) (hcons : s.sched.ready i = proc :: rest)
    (hready : sched.ready = Function.update s.sched.ready i rest) (hq : s.Dispatchable q) :
    ({ s with sched := sched, held := Function.update s.held cpu (some proc) } :
      Cpus).Dispatchable q := by
  cases hq with
  | inl hq =>
      by_cases he : q.prio = i
      · subst he
        rw [hcons] at hq
        cases List.mem_cons.mp hq with
        | inl he =>
            subst he
            exact .inr ⟨cpu, Function.update_self ..⟩
        | inr hq =>
            refine .inl ?_
            show q ∈ sched.ready q.prio
            rw [hready, Function.update_self]
            exact hq
      · refine .inl ?_
        show q ∈ sched.ready q.prio
        rw [hready, Function.update_of_ne he]
        exact hq
  | inr hq =>
      obtain ⟨c, hc⟩ := hq
      exact .inr ⟨c, held_dispatch hcpu hc⟩

theorem Kept.step {e : CpuEvent} (h : Kept s) (hx : Exclusive s) (hs : CpuStep s e s') :
    Kept s' := by
  cases hs with
  | add _ _ =>
      intro q hq
      exact enlist_kept s.held _ (fun c q hc _ => hc) ((List.mem_cons.mp hq).imp_right (h q))
  | put hcpu =>
      intro q hq
      exact enlist_kept _ s.added (fun c q hc hne => (hx.held_ne_iff hcpu c q).mpr ⟨hc, hne⟩)
        (.inr (h q hq))
  | @get cpu hcpu =>
      intro q hq
      refine (h q hq).imp_right (Or.imp_right fun hd => ?_)
      cases Sched.getProc_cases (s := s.sched) with
      | inl hidle =>
          rw [hidle, ← hcpu, Function.update_eq_self]
          exact hd
      | inr hget =>
          obtain ⟨i, proc, rest, hproc, hcons, hready, _⟩ := hget
          rw [hproc]
          exact dispatchable_dispatch hcpu hcons hready hd
  | @finish cpu proc hcpu =>
      intro q hq
      by_cases he : q = proc
      · exact .inl (he ▸ List.mem_cons_self)
      · refine (h q hq).imp (List.mem_cons_of_mem proc) (Or.imp_right (Or.imp_right ?_))
        rintro ⟨c, hc⟩
        exact ⟨c, (hx.held_ne_iff hcpu c q).mpr ⟨hc, he⟩⟩
  | @killall prio procName proc _ hvic =>
      intro q hq
      by_cases he : q = proc
      · exact .inl (he ▸ List.mem_cons_self)
      · refine (h q hq).imp (List.mem_cons_of_mem proc) (Or.imp_right (Or.imp_left fun hr => ?_))
        have hready := hx.ready_kill (Cpus.mem_of_victim hvic)
        rw [hready, Function.update_apply]
        split_ifs with hi
        · exact (hx.nodup prio).mem_erase_iff.mpr ⟨he, hi ▸ hr⟩
        · exact hr

/-- The processes of priority `i` that have not finished. -/
def Cpus.live (s : Cpus) (i : ℕ) : ℕ := s.added.countP fun q => q.prio = i ∧ q ∉ s.finished

/-- A process is added only while fewer than `MAX_QUEUE_SIZE` of its priority are unfinished. -/
def QueueRoom (s : Cpus) : CpuEvent → Prop
  | .add proc => s.live proc.prio < maxQueueSize
  | .get _ => True
  | .put _ => True
  | .finish _ => True
  | .killall _ _ => True

structure Roomy (s : Cpus) : Prop where
  live_le : ∀ i, s.live i ≤ maxQueueSize
  refused : s.refused = []

theorem length_le_live {l : List Pcb} {i : ℕ} (hnodup : l.Nodup)
    (h : ∀ q ∈ l, q.prio = i ∧ q ∈ s.added ∧ q ∉ s.finished) : l.length ≤ s.live i := by
  unfold Cpus.live
  rw [List.countP_eq_length_filter]
  apply (hnodup.subperm ?_).length_le
  intro q hq
  obtain ⟨hprio, hadded, hlive⟩ := h q hq
  exact List.mem_filter.mpr ⟨hadded, by simp [hprio, hlive]⟩

theorem Exclusive.ready_live' (hx : Exclusive s) (i : ℕ) :
    ∀ q ∈ s.sched.ready i, q.prio = i ∧ q ∈ s.added ∧ q ∉ s.finished :=
  fun q hq => ⟨hx.prio i q hq, (hx.ready_live i q hq).1, (hx.ready_live i q hq).2⟩

theorem Roomy.not_full_put (h : Roomy s) (hx : Exclusive s) (hcpu : s.held cpu = some proc) :
    ¬ s.sched.Full proc := by
  intro hfull
  have hlen := length_le_live (s := s) (l := proc :: s.sched.ready proc.prio) (i := proc.prio)
    (List.nodup_cons.mpr ⟨hx.notMem hcpu, hx.nodup _⟩) (by
      intro q hq
      cases List.mem_cons.mp hq with
      | inl he =>
          subst he
          exact ⟨rfl, hx.held_live cpu q hcpu⟩
      | inr hq => exact hx.ready_live' _ q hq)
  have hle := h.live_le proc.prio
  rw [List.length_cons] at hlen
  unfold Sched.Full at hfull
  omega

theorem live_finished_le (i : ℕ) :
    s.added.countP (fun q => q.prio = i ∧ q ∉ proc :: s.finished) ≤ s.live i := by
  apply List.countP_mono_left
  intro q _ hq
  simp only [decide_eq_true_eq] at hq ⊢
  exact ⟨hq.1, fun hmem => hq.2 (List.mem_cons_of_mem proc hmem)⟩

theorem Roomy.step {e : CpuEvent} (h : Roomy s) (hx : Exclusive s) (hs : CpuStep s e s')
    (hroom : QueueRoom s e) : Roomy s' := by
  cases hs with
  | @add proc _ _ =>
      have hlen := length_le_live (hx.nodup proc.prio) (hx.ready_live' proc.prio)
      have hfull : ¬ s.sched.Full proc := by
        intro hfull
        unfold Sched.Full at hfull
        unfold QueueRoom at hroom
        omega
      refine ⟨fun i => ?_, ?_⟩
      · have hle := h.live_le i
        unfold Cpus.live at hle ⊢
        show (proc :: s.added).countP (fun q => q.prio = i ∧ q ∉ s.finished) ≤ _
        rw [List.countP_cons]
        by_cases hi : proc.prio = i
        · subst hi
          have : s.live proc.prio + 1 ≤ maxQueueSize := hroom
          unfold Cpus.live at this
          split_ifs
          · exact this
          · exact hle
        · simpa [hi] using hle
      · show (if s.sched.Full proc then proc :: s.refused else s.refused) = []
        rw [if_neg hfull]
        exact h.refused
  | get _ => exact ⟨h.live_le, h.refused⟩
  | @put cpu proc hcpu =>
      refine ⟨h.live_le, ?_⟩
      show (if s.sched.Full proc then proc :: s.refused else s.refused) = []
      rw [if_neg (h.not_full_put hx hcpu)]
      exact h.refused
  | finish _ => exact ⟨fun i => (live_finished_le i).trans (h.live_le i), h.refused⟩
  | killall _ _ => exact ⟨fun i => (live_finished_le i).trans (h.live_le i), h.refused⟩

/-- **No process is lost** but to a full queue: an unfinished process is in its own queue or on a
CPU unless its queue was full when it was added or put, and this does not happen as long as no
more than `MAX_QUEUE_SIZE` processes of one priority are unfinished. -/
theorem lost_of_refused {es : List CpuEvent} (hr : cpuLts.Run .start es s) :
    (∀ proc, s.Lost proc → proc ∈ s.refused) ∧
    ((cpuLts.restrict QueueRoom).Run .start es s → ∀ proc, ¬ s.Lost proc) := by
  have hkept : Kept s := by
    have hinit : Exclusive Cpus.start ∧ Kept Cpus.start :=
      ⟨exclusive_start, by simp [Kept, Cpus.start]⟩
    refine (hr.invariant (I := fun s => Exclusive s ∧ Kept s) ?_ hinit).2
    exact fun _ _ _ h hs => ⟨h.1.step hs, h.2.step h.1 hs⟩
  have hrefused : ∀ proc, s.Lost proc → proc ∈ s.refused := by
    rintro proc ⟨hadd, hfin, hlost⟩
    exact ((hkept proc hadd).resolve_left hfin).resolve_right hlost
  refine ⟨hrefused, fun hroom proc hlost => ?_⟩
  have hroomy : Roomy s := by
    have hinit : Exclusive Cpus.start ∧ Roomy Cpus.start :=
      ⟨exclusive_start, by simp [Cpus.live, Cpus.start], rfl⟩
    refine (hroom.invariant (I := fun s => Exclusive s ∧ Roomy s) ?_ hinit).2
    exact fun _ _ _ h hs => ⟨h.1.step hs.1, h.2.step h.1 hs.1 hs.2⟩
  have hmem := hrefused proc hlost
  rw [hroomy.refused] at hmem
  exact List.not_mem_nil hmem

end

/-! ### Runs on two priorities -/

/-- Two processes of priority 0; one is dispatched, the other is removed by `killall`. -/
def killSample : List CpuEvent :=
  [.add ⟨1, 0, "p1"⟩, .add ⟨2, 0, "p2"⟩, .get 0, .killall 0 "p2", .put 0, .get 1]

/-- Three processes of priority 0 for a queue of two. -/
def threeProcs : List CpuEvent := [.add ⟨1, 0, "p1"⟩, .add ⟨2, 0, "p2"⟩, .add ⟨3, 0, "p3"⟩]

theorem run_of_replay22 (es : List CpuEvent) {P : @Cpus sched22 → Prop} [DecidablePred P]
    (h : (Lts.replay (@Cpus.next sched22) (@Cpus.start sched22) es).any (P ·) = true) :
    ∃ s, (@cpuLts sched22).Run (@Cpus.start sched22) es s ∧ P s := by
  obtain ⟨s, hs, hP⟩ := (Option.any_eq_true _ _).mp h
  exact ⟨s, Lts.Run.of_replay (fun _ _ _ => @cpuStep_of_next sched22 _ _ _) hs,
    of_decide_eq_true hP⟩

theorem one_place_sample : ∃ s, (@cpuLts sched22).Run (@Cpus.start sched22) killSample s ∧
    @OnePlace sched22 s := by
  obtain ⟨s, hrun, _⟩ := run_of_replay22 killSample (P := fun _ => True) (by decide +kernel)
  exact ⟨s, hrun, (@one_place sched22 s _ hrun).1⟩

theorem lost_of_refused_sample : ∃ s, ((@cpuLts sched22).restrict (@QueueRoom sched22)).Run
    (@Cpus.start sched22) (threeProcs.take 2) s ∧ ∀ proc, ¬ @Cpus.Lost sched22 s proc := by
  let := sched22
  let s₁ : Cpus := { Cpus.start.enlist ⟨1, 0, "p1"⟩ with added := [⟨1, 0, "p1"⟩] }
  let s₂ : Cpus := { s₁.enlist ⟨2, 0, "p2"⟩ with added := ⟨2, 0, "p2"⟩ :: s₁.added }
  have h₁ : CpuStep Cpus.start (.add ⟨1, 0, "p1"⟩) s₁ := .add (by decide) (by decide)
  have h₂ : CpuStep s₁ (.add ⟨2, 0, "p2"⟩) s₂ := .add (by decide) (by decide)
  have hroom₁ : QueueRoom Cpus.start (.add ⟨1, 0, "p1"⟩) :=
    show Cpus.start.live 0 < maxQueueSize by decide
  have hroom₂ : QueueRoom s₁ (.add ⟨2, 0, "p2"⟩) := show s₁.live 0 < maxQueueSize by decide
  have hrun₁ : (cpuLts.restrict QueueRoom).Run Cpus.start [.add ⟨1, 0, "p1"⟩] s₁ :=
    .snoc .nil ⟨h₁, hroom₁⟩
  have hrun : (cpuLts.restrict QueueRoom).Run Cpus.start (threeProcs.take 2) s₂ :=
    hrun₁.snoc ⟨h₂, hroom₂⟩
  exact ⟨s₂, hrun, (lost_of_refused hrun.of_restrict).2 hrun⟩

theorem lost_sample : ∃ s, (@cpuLts sched22).Run (@Cpus.start sched22) threeProcs s ∧
    ∃ proc, @Cpus.Lost sched22 s proc := by
  let := sched22
  let s₁ : Cpus := { Cpus.start.enlist ⟨1, 0, "p1"⟩ with added := [⟨1, 0, "p1"⟩] }
  let s₂ : Cpus := { s₁.enlist ⟨2, 0, "p2"⟩ with added := ⟨2, 0, "p2"⟩ :: s₁.added }
  let s₃ : Cpus := { s₂.enlist ⟨3, 0, "p3"⟩ with added := ⟨3, 0, "p3"⟩ :: s₂.added }
  have h₁ : CpuStep Cpus.start (.add ⟨1, 0, "p1"⟩) s₁ := .add (by decide) (by decide)
  have h₂ : CpuStep s₁ (.add ⟨2, 0, "p2"⟩) s₂ := .add (by decide) (by decide)
  have h₃ : CpuStep s₂ (.add ⟨3, 0, "p3"⟩) s₃ := .add (by decide) (by decide)
  have hout : (⟨3, 0, "p3"⟩ : Pcb) ∉ s₃.sched.ready 0 := by decide +kernel
  refine ⟨s₃, ((Lts.Run.nil.snoc h₁).snoc h₂).snoc h₃, ⟨3, 0, "p3"⟩, List.mem_cons_self,
    List.not_mem_nil, fun hdisp => ?_⟩
  cases hdisp with
  | inl hready => exact hout hready
  | inr hheld =>
      obtain ⟨cpu, hcpu⟩ := hheld
      cases hcpu

end BtlOs
