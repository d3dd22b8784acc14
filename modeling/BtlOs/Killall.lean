import BtlOs.Dispatch
import BtlOs.Keeps

/-! # The system call `killall` (`sys_killall.c`)

`__sys_killall` reads a name byte by byte with `libread`, up to a byte of all ones, sets the `pc`
of one process of `running_list` to the end of its code, and removes one process from each ready
queue: each scan stops at its first match.  What is matched is the path that `load` keeps in the
process, its first characters only. -/

namespace BtlOs

open CLang Header SchedHeader

/-! ### The name -/

/-- The length of `proc_name`. -/
def procNameSize : ℕ := 100

/-- A string of C: the bytes before the first `'\0'`. -/
def cString (bytes : List Byte) : String :=
  String.ofList ((bytes.takeWhile (· ≠ 0)).map fun b => Char.ofNat b.toNat)

/-- The loop of `__sys_killall` that reads the name: the cells of `proc_name` that are left and
the index.  `data₀ i` is what the local `data` of the `libread` at the index `i` held before. -/
def readNameFrom [Header] (memrg : ℕ) (data₀ : ℕ → Byte) : ℕ → ℕ → Ctx → Exec (List Byte × Ctx)
  | 0, i, c => do
      let _ ← libread c memrg i (data₀ i)
      .error .undefined  -- the index is outside `proc_name`
  | n + 1, i, c => do
      let (_, data, c) ← libread c memrg i (data₀ i)
      if data = uint32 (-1) then .ok ([], c)
      else do
        let (name, c) ← readNameFrom memrg data₀ n (i + 1) c
        .ok (uint32ToByte data :: name, c)

def readName [Header] (c : Ctx) (memrg : ℕ) (data₀ : ℕ → Byte) : Exec (String × Ctx) := do
  let (name, c) ← readNameFrom memrg data₀ procNameSize 0 c
  .ok (cString name, c)

/-! ### The path -/

/-- `sizeof(path)` for a pointer. -/
def sizeofPath : ℕ := 8

/-- What `snprintf(proc->path, 2*sizeof(path)+1, "%s", path)` in `load` keeps. -/
def storedPath (path : String) : String := String.ofList (path.toList.take (2 * sizeofPath))

theorem strstr_of_storedPath {path procName : String}
    (h : strstr (storedPath path) procName = true) : strstr path procName = true := by
  unfold strstr storedPath at *
  rw [decide_eq_true_eq] at h ⊢
  rw [String.toList_ofList] at h
  exact h.trans (List.take_prefix _ _).isInfix

section

variable [SchedHeader]

/-! ### The scans -/

/-- The scan of a queue for the first process whose path contains the name. -/
def QueueT.scan (q : QueueT) (procName : String) : Option Pcb :=
  ArrayList.first q.proc (fun proc => strstr proc.path procName) q.size

theorem QueueT.scan_eq (q : QueueT) (procName : String) :
    q.scan procName = q.toList.find? fun proc => strstr proc.path procName := by
  have hfirst := q.holds.first fun proc => strstr proc.path procName
  rwa [QueueT.length_toList] at hfirst

/-- The processes with the field `pc` of each. -/
structure Procs where
  cpus : Cpus
  pc : Pcb → ℕ

namespace Procs

variable (s : Procs)

/-- The processes of the ready queue `i`. -/
def ready (i : ℕ) : List Pcb := s.cpus.sched.ready i

def running : List Pcb := s.cpus.sched.running

/-- The loop over `running_list`; `codeSize` is `code->size`. -/
def stopRunning (codeSize : Pcb → ℕ) (procName : String) : Procs :=
  match s.cpus.sched.runningList.scan procName with
  | some proc => { s with pc := Function.update s.pc proc (codeSize proc) }
  | none => s

/-- The body of the loop over the ready queues. -/
def killQueue (i : ℕ) (procName : String) : Procs :=
  match (s.cpus.sched.mlqReadyQueue i).scan procName with
  | some proc => { s with cpus := s.cpus.kill i proc }
  | none => s

/-- The loop over `n` ready queues from `i` on. -/
def killQueues (procName : String) : ℕ → ℕ → Procs → Procs
  | _, 0, s => s
  | i, n + 1, s => killQueues procName (i + 1) n (s.killQueue i procName)

/-- The loops of `__sys_killall` over the queues. -/
def killall (codeSize : Pcb → ℕ) (procName : String) : Procs :=
  killQueues procName 0 maxPrio (s.stopRunning codeSize procName)

end Procs

/-- `__sys_killall`. -/
def sysKillall [Header] (codeSize : Pcb → ℕ) (c : Ctx) (regs : ScRegs) (data₀ : ℕ → Byte)
    (s : Procs) : Exec (ℤ × Ctx × Procs) := do
  let (procName, c) ← readName c regs.a1 data₀
  .ok (0, c, s.killall codeSize procName)

/-! ### What the scans do -/

variable {s : Procs} {codeSize : Pcb → ℕ} {procName : String}

/-- The path of the process contains the name. -/
abbrev Pcb.matchesName (procName : String) (proc : Pcb) : Bool := strstr proc.path procName

theorem Procs.stopRunning_cpus : (s.stopRunning codeSize procName).cpus = s.cpus := by
  unfold stopRunning
  cases s.cpus.sched.runningList.scan procName with
  | none => rfl
  | some proc => rfl

theorem Procs.stopRunning_pc (proc : Pcb) : (s.stopRunning codeSize procName).pc proc =
    if s.running.find? (Pcb.matchesName procName) = some proc then codeSize proc
      else s.pc proc := by
  unfold stopRunning
  rw [QueueT.scan_eq]
  show _ = if s.cpus.sched.runningList.toList.find? _ = some proc then _ else _
  cases s.cpus.sched.runningList.toList.find? (Pcb.matchesName procName) with
  | none => simp
  | some q =>
      by_cases he : proc = q
      · subst he
        simp
      · simp [Function.update_of_ne he, Ne.symm he]

theorem Procs.killQueue_pc (i : ℕ) : (s.killQueue i procName).pc = s.pc := by
  unfold killQueue
  cases (s.cpus.sched.mlqReadyQueue i).scan procName with
  | none => rfl
  | some proc => rfl

theorem Procs.killQueue_running (i : ℕ) : (s.killQueue i procName).running = s.running := by
  unfold killQueue
  cases (s.cpus.sched.mlqReadyQueue i).scan procName with
  | none => rfl
  | some proc => rfl

/-- The first match leaves the queue. -/
theorem Procs.killQueue_ready (procName : String) {i : ℕ}
    (hpids : ((s.ready i).map Pcb.pid).Nodup) :
    (s.killQueue i procName).ready =
      Function.update s.ready i ((s.ready i).eraseP (Pcb.matchesName procName)) := by
  unfold killQueue
  rw [QueueT.scan_eq]
  cases hf : (s.cpus.sched.mlqReadyQueue i).toList.find? (Pcb.matchesName procName) with
  | none =>
      have hnone : (s.ready i).eraseP (Pcb.matchesName procName) = s.ready i :=
        List.eraseP_of_forall_not (List.find?_eq_none.mp hf)
      rw [hnone, Function.update_eq_self]
  | some proc =>
      have herase : ((s.cpus.sched.mlqReadyQueue i).dequeueRunning proc).2.toList =
          (s.ready i).eraseP (Pcb.matchesName procName) := by
        rw [QueueT.toList_dequeueRunning]
        exact ArrayList.eraseP_key Pcb.pid hpids hf
      show (Sched.mk _ _ _).ready = _
      rw [Sched.ready_update, herase]
      rfl

theorem Procs.killQueues_pc (n : ℕ) : ∀ (i : ℕ) (s : Procs),
    (killQueues procName i n s).pc = s.pc := by
  induction n with
  | zero => exact fun _ _ => rfl
  | succ n ih =>
      intro i s
      rw [killQueues, ih, killQueue_pc]

theorem Procs.killQueues_running (n : ℕ) : ∀ (i : ℕ) (s : Procs),
    (killQueues procName i n s).running = s.running := by
  induction n with
  | zero => exact fun _ _ => rfl
  | succ n ih =>
      intro i s
      rw [killQueues, ih, killQueue_running]

/-- The loop removes the first match of each of its queues. -/
theorem Procs.killQueues_ready (procName : String) (n : ℕ) : ∀ (i : ℕ) (s : Procs),
    (∀ j, i ≤ j → j < i + n → ((s.ready j).map Pcb.pid).Nodup) →
    ∀ j, i ≤ j → j < i + n →
      (killQueues procName i n s).ready j = (s.ready j).eraseP (Pcb.matchesName procName) := by
  suffices h : ∀ (i : ℕ) (s : Procs),
      (∀ j, i ≤ j → j < i + n → ((s.ready j).map Pcb.pid).Nodup) → ∀ j,
      (killQueues procName i n s).ready j = if i ≤ j ∧ j < i + n then
        (s.ready j).eraseP (Pcb.matchesName procName) else s.ready j by
    intro i s hpids j h₁ h₂
    rw [h i s hpids, if_pos ⟨h₁, h₂⟩]
  induction n with
  | zero =>
      intro i s _ j
      rw [if_neg (by omega)]
      rfl
  | succ n ih =>
      intro i s hpids j
      have hfirst := s.killQueue_ready procName (hpids i le_rfl (by omega))
      have hother : ∀ k, k ≠ i → (s.killQueue i procName).ready k = s.ready k := by
        intro k hk
        rw [hfirst, Function.update_of_ne hk]
      have hpids' : ∀ k, i + 1 ≤ k → k < i + 1 + n →
          (((s.killQueue i procName).ready k).map Pcb.pid).Nodup := by
        intro k h₁ h₂
        rw [hother k (by omega)]
        exact hpids k (by omega) (by omega)
      rw [killQueues, ih (i + 1) _ hpids']
      by_cases hj : j = i
      · subst hj
        rw [if_neg (by omega), if_pos (by omega), hfirst, Function.update_self]
      · rw [hother j hj]
        by_cases hin : i ≤ j ∧ j < i + (n + 1)
        · rw [if_pos (by omega), if_pos hin]
        · rw [if_neg (by omega), if_neg hin]

/-! ### Kills all and only the matches -/

/-- Every process came from `load` with the path `loadPath pid`, and pids are distinct. -/
structure Loaded (loadPath : ℕ → String) (s : Procs) : Prop where
  ready_path : ∀ i < maxPrio, ∀ proc ∈ s.ready i, proc.path = storedPath (loadPath proc.pid)
  running_path : ∀ proc ∈ s.running, proc.path = storedPath (loadPath proc.pid)
  pids : ∀ i < maxPrio, ((s.ready i).map Pcb.pid).Nodup

instance (loadPath : ℕ → String) (s : Procs) : Decidable (Loaded loadPath s) :=
  decidable_of_iff
    ((∀ i < maxPrio, ∀ proc ∈ s.ready i, proc.path = storedPath (loadPath proc.pid)) ∧
      (∀ proc ∈ s.running, proc.path = storedPath (loadPath proc.pid)) ∧
      ∀ i < maxPrio, ((s.ready i).map Pcb.pid).Nodup)
    ⟨fun h => ⟨h.1, h.2.1, h.2.2⟩, fun h => ⟨h.ready_path, h.running_path, h.pids⟩⟩

/-- The path given to `load` contains the name. -/
def Target (loadPath : ℕ → String) (procName : String) (proc : Pcb) : Bool :=
  strstr (loadPath proc.pid) procName

/-- `killall` killed the targets and nothing else. -/
structure KilledAll (loadPath : ℕ → String) (codeSize : Pcb → ℕ) (procName : String)
    (s s' : Procs) : Prop where
  ready : ∀ i < maxPrio, ∀ proc ∈ s'.ready i, ¬ Target loadPath procName proc = true
  running : ∀ proc ∈ s'.running, Target loadPath procName proc = true →
    s'.pc proc = codeSize proc
  ready_spared : ∀ i < maxPrio, (s'.ready i).filter (!Target loadPath procName ·) =
    (s.ready i).filter (!Target loadPath procName ·)
  running_spared : s'.running.filter (!Target loadPath procName ·) =
    s.running.filter (!Target loadPath procName ·)
  pc_spared : ∀ proc, ¬ Target loadPath procName proc = true → s'.pc proc = s.pc proc

/-- Each ready queue holds no target but the first process whose kept path contains the name, and
the same for `running_list` up to targets at the end of their code. -/
def FirstOnly (loadPath : ℕ → String) (codeSize : Pcb → ℕ) (procName : String) (s : Procs) :
    Prop :=
  (∀ i < maxPrio, ∀ proc ∈ s.ready i, Target loadPath procName proc = true →
    (s.ready i).find? (Pcb.matchesName procName) = some proc) ∧
  ∀ proc ∈ s.running, Target loadPath procName proc = true →
    s.running.find? (Pcb.matchesName procName) = some proc ∨ s.pc proc = codeSize proc

instance (loadPath : ℕ → String) (codeSize : Pcb → ℕ) (procName : String) (s : Procs) :
    Decidable (FirstOnly loadPath codeSize procName s) := inferInstanceAs (Decidable (_ ∧ _))

omit [SchedHeader] in
theorem target_of_matchesName {loadPath : ℕ → String} {proc : Pcb}
    (hpath : proc.path = storedPath (loadPath proc.pid))
    (h : proc.matchesName procName = true) : Target loadPath procName proc = true := by
  unfold Pcb.matchesName at h
  rw [hpath] at h
  exact strstr_of_storedPath h

variable {loadPath : ℕ → String}

theorem Procs.killall_ready (h : Loaded loadPath s) {i : ℕ} (hi : i < maxPrio) :
    (s.killall codeSize procName).ready i =
      (s.ready i).eraseP (Pcb.matchesName procName) := by
  have hready : (s.stopRunning codeSize procName).ready = s.ready := by
    unfold ready
    rw [stopRunning_cpus]
  have hqueues := killQueues_ready procName maxPrio 0
    (s.stopRunning codeSize procName)
  rw [hready] at hqueues
  exact hqueues (fun j _ hj => h.pids j (by omega)) i (Nat.zero_le i) (by omega)

theorem Procs.killall_running : (s.killall codeSize procName).running = s.running := by
  unfold killall
  rw [killQueues_running]
  unfold running
  rw [stopRunning_cpus]

theorem Procs.killall_pc (proc : Pcb) : (s.killall codeSize procName).pc proc =
    if s.running.find? (Pcb.matchesName procName) = some proc then codeSize proc
    else s.pc proc := by
  unfold killall
  rw [killQueues_pc, stopRunning_pc]

/-- A ready queue holds no target after its scan exactly where the first match was the only one. -/
theorem Loaded.ready_iff (h : Loaded loadPath s) {i : ℕ} (hi : i < maxPrio) :
    (∀ proc ∈ (s.killall codeSize procName).ready i, ¬ Target loadPath procName proc = true) ↔
      ∀ proc ∈ s.ready i, Target loadPath procName proc = true →
        (s.ready i).find? (Pcb.matchesName procName) = some proc := by
  rw [Procs.killall_ready h hi]
  exact ArrayList.forall_mem_eraseP_iff (h.pids i hi).of_map

theorem Procs.running_iff :
    (∀ proc ∈ (s.killall codeSize procName).running, Target loadPath procName proc = true →
      (s.killall codeSize procName).pc proc = codeSize proc) ↔
      ∀ proc ∈ s.running, Target loadPath procName proc = true →
        s.running.find? (Pcb.matchesName procName) = some proc ∨ s.pc proc = codeSize proc := by
  rw [killall_running]
  refine forall_congr' fun proc => imp_congr_right fun _ => imp_congr_right fun _ => ?_
  rw [killall_pc]
  by_cases hf : s.running.find? (Pcb.matchesName procName) = some proc
  · simp [hf]
  · simp [hf]

theorem Loaded.killedAll_iff (h : Loaded loadPath s) :
    KilledAll loadPath codeSize procName s (s.killall codeSize procName) ↔
      FirstOnly loadPath codeSize procName s := by
  constructor
  · exact fun hkill =>
      ⟨fun i hi => (h.ready_iff hi).mp (hkill.ready i hi), Procs.running_iff.mp hkill.running⟩
  · intro hfirst
    refine ⟨fun i hi => (h.ready_iff hi).mpr (hfirst.1 i hi), Procs.running_iff.mpr hfirst.2,
      fun i hi => ?_, ?_, fun proc hproc => ?_⟩
    · rw [Procs.killall_ready h hi]
      apply ArrayList.filter_eraseP
      intro proc hproc hmatch
      rw [target_of_matchesName (h.ready_path i hi proc hproc) hmatch]
      rfl
    · rw [Procs.killall_running]
    · rw [Procs.killall_pc, if_neg]
      intro hf
      have hpath := h.running_path proc (List.mem_of_find?_eq_some hf)
      exact hproc (target_of_matchesName hpath (List.find?_some hf))

theorem sysKillall_eq [Header] {c c' : Ctx} {regs : ScRegs} {data₀ : ℕ → Byte}
    (hname : readName c regs.a1 data₀ = .ok (procName, c')) (s : Procs) :
    sysKillall codeSize c regs data₀ s = .ok (0, c', s.killall codeSize procName) := by
  unfold sysKillall
  rw [hname]
  rfl

/-- **`killall` kills all the matches** exactly where no queue has a second one, and the matches
are in the part of the path that `load` keeps. -/
theorem killed_all [Header] {c c' : Ctx} {regs : ScRegs} {data₀ : ℕ → Byte}
    (h : Loaded loadPath s) (hname : readName c regs.a1 data₀ = .ok (procName, c')) :
    ∃ s', sysKillall codeSize c regs data₀ s = .ok (0, c', s') ∧
      (KilledAll loadPath codeSize procName s s' ↔ FirstOnly loadPath codeSize procName s) :=
  ⟨s.killall codeSize procName, sysKillall_eq hname s, h.killedAll_iff⟩

/-! ### Killing among the CPUs -/

theorem Procs.killQueues_run (procName : String) (n : ℕ) : ∀ (i : ℕ) (s : Procs), i + n ≤ maxPrio →
    ∃ es, cpuLts.Run s.cpus es (killQueues procName i n s).cpus := by
  induction n with
  | zero => exact fun _ _ _ => ⟨[], .nil⟩
  | succ n ih =>
      intro i s hle
      have hfirst : ∃ es, cpuLts.Run s.cpus es (s.killQueue i procName).cpus := by
        unfold killQueue
        rw [QueueT.scan_eq]
        cases hf : (s.cpus.sched.mlqReadyQueue i).toList.find? (Pcb.matchesName procName) with
        | none => exact ⟨[], .nil⟩
        | some proc =>
            have hstep : CpuStep s.cpus (.killall i procName) (s.cpus.kill i proc) :=
              .killall (by omega) hf
            exact ⟨[.killall i procName], Lts.Run.nil.snoc hstep⟩
      obtain ⟨es₁, hrun₁⟩ := hfirst
      obtain ⟨es₂, hrun₂⟩ := ih (i + 1) (s.killQueue i procName) (by omega)
      exact ⟨es₁ ++ es₂, hrun₁.append hrun₂⟩

theorem Procs.killall_run (codeSize : Pcb → ℕ) (procName : String) (s : Procs) :
    ∃ es, cpuLts.Run s.cpus es (s.killall codeSize procName).cpus := by
  have hrun := killQueues_run procName maxPrio 0 (s.stopRunning codeSize procName) (by omega)
  rwa [stopRunning_cpus] at hrun

/-- `killall` keeps every process in one place. -/
theorem Exclusive.killall (h : Exclusive s.cpus) :
    Exclusive (s.killall codeSize procName).cpus := by
  obtain ⟨es, hrun⟩ := Procs.killall_run codeSize procName s
  exact hrun.invariant (fun _ _ _ h hs => h.step hs) h

end

/-! ### Runs on two priorities -/

/-- A process stores the name `p` in its region 1. -/
def nameEvents : List Event :=
  [loadBlank 0, .call 0 (.alloc 300 1) 0 none, .call 0 (.write 112 1 0) 0 none,
    .call 0 (.write 255 1 1) 0 none]

theorem name_sample : ∃ s pr c', (@memLts header22).Run boot22 nameEvents s ∧
    s.procs 0 = some pr ∧ @readName header22 (s.ctx pr) 1 (fun _ => 0) = .ok ("p", c') := by
  let := header22
  have hsome : ((Lts.replay Sys.next boot22 nameEvents).any fun s => (s.procs 0).any fun pr =>
      (readName (s.ctx pr) 1 fun _ => 0).toOption.any (·.1 = "p")) = true := by
    decide +kernel
  obtain ⟨s, hs, hname⟩ := (Option.any_eq_true _ _).mp hsome
  obtain ⟨pr, hp, hname⟩ := (Option.any_eq_true _ _).mp hname
  obtain ⟨⟨procName, c'⟩, hr, hname⟩ := exists_ok_of_any hname
  obtain rfl : procName = "p" := of_decide_eq_true hname
  exact ⟨s, pr, c', Lts.Run.of_replay (fun _ _ _ => memStep_of_next) hs, hp, hr⟩

/-- The paths of three processes by their pids. -/
def samplePath (pid : ℕ) : String := ["", "k", "p1", "p2"].getD pid ""

/-- The caller runs; the others wait in two ready queues. -/
def apart : List CpuEvent :=
  [.add ⟨1, 0, "k"⟩, .get 0, .add ⟨2, 0, "p1"⟩, .add ⟨3, 1, "p2"⟩]

/-- The caller runs; the others wait in one ready queue. -/
def together : List CpuEvent :=
  [.add ⟨1, 0, "k"⟩, .get 0, .add ⟨2, 0, "p1"⟩, .add ⟨3, 0, "p2"⟩]

theorem killed_all_sample : ∃ (c c' : Ctx) (s s' : @Procs sched22),
    (@cpuLts sched22).Run (@Cpus.start sched22) apart (@Procs.cpus sched22 s) ∧
    @sysKillall sched22 header22 (fun _ => 5) c ⟨1, 0, 0⟩ (fun _ => 0) s = .ok (0, c', s') ∧
      @KilledAll sched22 samplePath (fun _ => 5) "p" s s' := by
  let := header22
  let := sched22
  obtain ⟨_, pr, c', _, _, hname⟩ := name_sample
  obtain ⟨cpus, hrun, hload, hfirst⟩ := run_of_replay22 apart
    (P := fun cpus => Loaded samplePath ⟨cpus, fun _ => 0⟩ ∧
      FirstOnly samplePath (fun _ => 5) "p" ⟨cpus, fun _ => 0⟩) (by decide +kernel)
  have hall : ∃ s', sysKillall (fun _ => 5) _ ⟨1, 0, 0⟩ (fun _ => 0) ⟨cpus, fun _ => 0⟩ =
      .ok (0, c', s') ∧ (KilledAll samplePath (fun _ => 5) "p" ⟨cpus, fun _ => 0⟩ s' ↔
        FirstOnly samplePath (fun _ => 5) "p" ⟨cpus, fun _ => 0⟩) := killed_all hload hname
  obtain ⟨s', hkill, hiff⟩ := hall
  exact ⟨_, c', ⟨cpus, fun _ => 0⟩, s', hrun, hkill, hiff.mpr hfirst⟩

/-- Two matches wait in one ready queue: `killall` returns 0 and the second one is still there. -/
theorem not_killed_all : ∃ (c c' : Ctx) (s s' : @Procs sched22),
    (@cpuLts sched22).Run (@Cpus.start sched22) together (@Procs.cpus sched22 s) ∧
    @readName header22 c 1 (fun _ => 0) = .ok ("p", c') ∧
    @sysKillall sched22 header22 (fun _ => 5) c ⟨1, 0, 0⟩ (fun _ => 0) s = .ok (0, c', s') ∧
      ¬ @KilledAll sched22 samplePath (fun _ => 5) "p" s s' := by
  let := header22
  let := sched22
  obtain ⟨_, pr, c', _, _, hname⟩ := name_sample
  obtain ⟨cpus, hrun, hload, hfirst⟩ := run_of_replay22 together
    (P := fun cpus => Loaded samplePath ⟨cpus, fun _ => 0⟩ ∧
      ¬ FirstOnly samplePath (fun _ => 5) "p" ⟨cpus, fun _ => 0⟩) (by decide +kernel)
  have hret := @sysKillall_eq sched22 (fun _ => 5) "p" header22 _ c' ⟨1, 0, 0⟩ (fun _ => 0) hname
    ⟨cpus, fun _ => 0⟩
  exact ⟨_, c', ⟨cpus, fun _ => 0⟩, _, hrun, hname, hret,
    fun hkill => hfirst (hload.killedAll_iff.mp hkill)⟩

end BtlOs
