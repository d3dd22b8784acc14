import BtlOs.Isolation
import BtlOs.Programs

/-! # The memory of the running system

The system of `Programs.lean` runs the simulator and the memory system side by side.  Here its
programs are arbitrary, but for system call 101.  Each of its steps is a step of the memory system
or leaves the memory alone, so what holds in the runs of the memory system holds for every
interleaving (`os_run_memory`).

While no CPU executes a process, the other processes leave its memory alone (`undisturbed`): its
page table, and every byte of its frames in RAM and on the swap device. -/

namespace BtlOs

open CLang Header SchedHeader

section undisturbed

variable [Header]

/-! ### The memory of one process -/

/-- The memory of process `q` is the same. -/
structure SameMemory (q : ℕ) (s s' : Sys) : Prop where
  proc : s'.procs q = s.procs q
  ram : ∀ a, s.Holds residentFrame q a → s'.dev.mram.storage a = s.dev.mram.storage a
  swp : ∀ a, s.Holds swpFrame q a → s'.dev.mswp.storage a = s.dev.mswp.storage a

section memory

variable {n m q : ℕ} {s s' s₁ s₂ : Sys} {e : Event}

theorem SameMemory.refl (q : ℕ) (s : Sys) : SameMemory q s s := ⟨rfl, fun _ _ => rfl, fun _ _ => rfl⟩

theorem SameMemory.holds (h : SameMemory q s s') {f : Mm → ℕ → Option ℕ} {a : ℕ}
    (ha : s.Holds f q a) : s'.Holds f q a := by
  obtain ⟨g, hg⟩ := ha
  refine ⟨g, ?_⟩
  rw [own_eq_some] at hg ⊢
  dsimp only at hg ⊢
  rwa [h.proc]

theorem SameMemory.trans (h₁ : SameMemory q s s₁) (h₂ : SameMemory q s₁ s₂) : SameMemory q s s₂ where
  proc := h₂.proc.trans h₁.proc
  ram a ha := (h₂.ram a (h₁.holds ha)).trans (h₁.ram a ha)
  swp a ha := (h₂.swp a (h₁.holds ha)).trans (h₁.swp a ha)

end memory

/-! ### The memory steps of the system -/

variable [SchedHeader] {n : ℕ} {ps : List LdProcess} {code : Pcb → List Inst} {timeSlot : ℤ}
  {killall : Ctx → ScRegs → Exec (ℤ × Ctx)} {x y : OsState} {e : OsEvent} {es : List OsEvent}

/-- The memory has the processes that are loaded and have not finished. -/
structure ProcsInv (x : OsState) : Prop where
  exclusive : Exclusive x.1.1.2.cpus
  running : ∀ p, (x.2.procs p).isSome ↔ ∃ proc, Running x proc ∧ proc.pid = p

/-- Where the processes of the simulator change in a step, those of the memory do. -/
theorem ProcsInv.step (hi : ProcsInv x) (hs : OsStep n ps code timeSlot killall x e y)
    (hexcl : Exclusive y.1.1.2.cpus) : ProcsInv y := by
  have hsame : ∀ {z : SimState × Journal} {s' : Sys}, Exclusive z.1.2.cpus →
      z.1.2.cpus.added = x.1.1.2.cpus.added → z.1.2.cpus.finished = x.1.1.2.cpus.finished →
      (∀ p, (s'.procs p).isSome = (x.2.procs p).isSome) → ProcsInv (z, s') := by
    intro z s' hexcl hadded hfin hprocs
    refine ⟨hexcl, fun p => ?_⟩
    unfold Running
    rw [hadded, hfin, hprocs]
    exact hi.running p
  cases hs with
  | @add line proc mm₀ pgd₀ act z hhead hsim =>
      obtain ⟨hpid, hadded, hfin, _⟩ := sim_add hsim.1 hhead
      have hnew : proc ∉ x.1.1.2.cpus.finished :=
        fun hmem => hpid proc (hi.exclusive.finished_added proc hmem) rfl
      refine ⟨hexcl, fun p => ?_⟩
      unfold Running
      dsimp only
      rw [hadded, hfin]
      by_cases he : p = proc.pid
      · subst he
        rw [Function.update_self]
        exact iff_of_true rfl ⟨proc, ⟨List.mem_cons_self, hnew⟩, rfl⟩
      · rw [Function.update_of_ne he, hi.running]
        refine exists_congr fun q => and_congr_left fun hq => and_congr_left fun _ => ?_
        rw [List.mem_cons, or_iff_right (fun hqp => he (by rw [← hq, hqp]))]
  | @exec cpu pc proc pr data₀ st val c z hheld hp _ hsim =>
      obtain ⟨hadded, hfin, _⟩ := sim_run hsim.1 hheld
      refine hsame hexcl hadded hfin fun p => ?_
      by_cases he : p = proc.pid
      · subst he
        rw [hp]
        simp [Sys.commit]
      · simp [Sys.commit, he]
  | @finish cpu proc z hheld hsim =>
      obtain ⟨hadded, hfin, _⟩ := sim_finish hsim.1 hheld
      have hproc := hi.exclusive.held_live _ _ hheld
      refine ⟨hexcl, fun p => ?_⟩
      unfold Running
      dsimp only
      rw [hadded, hfin]
      by_cases he : p = proc.pid
      · subst he
        rw [Function.update_self]
        refine iff_of_false (by simp) ?_
        rintro ⟨q, ⟨hq, hnot⟩, he⟩
        exact hnot (List.mem_cons.mpr (.inl (hi.exclusive.pids proc hproc.1 q hq he)))
      · rw [Function.update_of_ne he, hi.running]
        refine exists_congr fun q => and_congr_left fun hq => and_congr_right fun _ => ?_
        rw [List.mem_cons, not_or, and_iff_right (fun hqp => he (by rw [← hq, hqp]))]
  | other hno hsim =>
      obtain ⟨hadded, hfin, _⟩ := hno.frame hsim.1
      exact hsame hexcl hadded hfin fun _ => rfl

/-! ### Runs -/

/-- What the steps keep. -/
structure OsInv (n : ℕ) (ps : List LdProcess) (x : OsState) : Prop where
  sim : SimInv n ps x.1.1 x.1.2
  load : LoadInv ps x.1.1
  procs : ProcsInv x

omit [Header] in
theorem OsInv.start {s₀ : Sys} (h₀ : ∀ p, s₀.procs p = none) :
    OsInv n ps ((.start ps, .start), s₀) := by
  refine ⟨SimInv.start, LoadInv.start, exclusive_start, fun p => ?_⟩
  simp [h₀, Running, SimState.start, Machine.start, Cpus.start]

theorem OsInv.step (hi : OsInv n ps x) (hs : OsStep n ps code timeSlot killall x e y) :
    OsInv n ps y := by
  obtain ⟨hsim, hj⟩ := hs.sim.1
  have hsim' : SimInv n ps y.1.1 y.1.2 := by
    rw [hj]
    exact hi.sim.step hsim
  exact ⟨hsim', hi.load.step hi.sim.ld.timer hsim, hi.procs.step hs hsim'.exclusive⟩

end undisturbed

/-! ### Two processes -/

/-- The process of a memory event. -/
def Event.pid : Event → ℕ
  | .call p _ _ _ => p
  | .load p _ _ _ => p
  | .release p => p

end BtlOs
