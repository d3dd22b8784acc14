import BtlOs.Shutdown

/-! # After `killall` (`sys_killall.c`, `os.c`)

`__sys_killall` sets the `pc` of a process in `running_list` to the end of its code and leaves the
rest to the CPU that holds it, which may be about to call `run`, in `next_slot`, or at the top of
its loop.  It calls `run` once more at most, with no instruction left, and finds the end at the top
of its loop: before the slot after the next one the process has finished.

The call is one step here, as an instruction and the branch for a finished process are
(`RoutineStep`); the source holds no lock in any of them. -/

namespace BtlOs

open SchedHeader

variable [SchedHeader]

variable {n c : ℕ} {ps : List LdProcess} {codeSize : Pcb → ℕ} {timeSlot : ℤ} {x y z : SimState}
  {j j' jz : Journal} {e : SimEvent} {m m' : Machine} {re : RoutineEvent} {proc : Pcb}
  {procName : String}

/-! ### The end of the code -/

/-- A process that has come to the end of its code stays there. -/
structure AtEnd (codeSize : Pcb → ℕ) (proc : Pcb) (m : Machine) : Prop where
  added : proc ∈ m.cpus.added
  pc : m.pc proc = codeSize proc

theorem AtEnd.advance (h : AtEnd codeSize proc m) (q : Pcb) :
    (m.advance codeSize q).pc proc = codeSize proc := by
  have hpc := h.pc
  show Function.update m.pc q _ proc = _
  rw [Function.update_apply]
  split_ifs with he hle
  · exact he ▸ hpc
  · subst he
    omega
  · exact hpc

theorem AtEnd.step (h : AtEnd codeSize proc m) (hs : RoutineStep n codeSize timeSlot m re m') :
    AtEnd codeSize proc m' := by
  cases hs with
  | @load p _ _ _ hpid =>
      refine ⟨List.mem_cons_of_mem _ h.added, ?_⟩
      have hne : proc ≠ p := by
        rintro rfl
        exact hpid proc h.added rfl
      exact (Function.update_of_ne hne _ _).trans h.pc
  | @run c p _ _ _ => exact ⟨h.added, h.advance p⟩
  | @killall c p name _ _ _ _ =>
      have hadded : ((m.advance codeSize p).toProcs.killall codeSize name).cpus.added =
          m.cpus.added := Procs.killall_added name _
      have hpc : ((m.advance codeSize p).toProcs.killall codeSize name).pc proc =
          if _ then codeSize proc else _ := Procs.killall_pc proc
      refine ⟨hadded ▸ h.added, hpc.trans ?_⟩
      split_ifs
      · rfl
      · exact h.advance p
  | _ => exact ⟨h.added, h.pc⟩

/-! ### The CPU of a process that was stopped -/

/-- The CPU has a process at the end of its code, since the slot `t`, after `r` runs: it is about to
call `run` once more, it has done so or will not, or the process has finished. -/
inductive Ending (c : ℕ) (proc : Pcb) (t r : ℕ) (x : SimState) (j : Journal) : Prop
  | due : x.2.cpus.held c = some proc → x.2.loc c = .recheck → x.1.2.1.ticks = t →
      (j.runsOf proc).length ≤ r → Ending c proc t r x j
  | ran : x.2.cpus.held c = some proc → x.2.loc c = .slot ∨ x.2.loc c = .top →
      (j.runsOf proc).length ≤ r + 1 →
      x.1.2.1.ticks = t ∨ x.1.2.1.ticks = t + 1 ∧ j.slotsOf c = List.range (t + 1) →
      Ending c proc t r x j
  | ended : proc ∈ x.2.cpus.finished → (j.runsOf proc).length ≤ r + 1 → Ending c proc t r x j

theorem runsOf_of_other (hs : (simLts n ps codeSize timeSlot).step x e y) (hx : Exclusive x.2.cpus)
    (hheld : x.2.cpus.held c = some proc) (hne : e.actor ≠ some c) :
    (nextJournal x j e).runsOf proc = j.runsOf proc := by
  cases runsOf_next x j e proc with
  | inl h => exact h
  | inr h =>
      obtain ⟨re, c', rfl, hvisit, _⟩ := h
      have hstep : RoutineStep n codeSize timeSlot x.2 re y.2 := Lts.moves_some.mp hs.2.1
      obtain rfl := hx.inj (hstep.visit_held hvisit).2 hheld
      exact absurd (RoutineEvent.visit_actor hvisit) hne

theorem runsOf_of_finished (hs : (simLts n ps codeSize timeSlot).step x e y)
    (hx : Exclusive x.2.cpus) (hfin : proc ∈ x.2.cpus.finished) :
    (nextJournal x j e).runsOf proc = j.runsOf proc :=
  runsOf_eq hs fun c hc => absurd hfin (hx.held_live c proc hc).2

/-- Another thread makes a step; in a tick the CPU is in `next_slot`. -/
theorem Ending.other {t r : ℕ} (h : Ending c proc t r x j) (hi : SimInv n ps x j) (hc : c < n)
    (hs : (simLts n ps codeSize timeSlot).step x e y) (hne : e.actor ≠ some c) :
    Ending c proc t r y (nextJournal x j e) := by
  obtain ⟨hloc, hheld⟩ := sim_loop hs hne
  have hslots := slotsOf_next x j hne
  -- a CPU outside of `next_slot` holds the clock
  have hclock : x.2.loc c ≠ .slot → x.2.loc c ≠ .stopped → y.1.2.1.ticks = x.1.2.1.ticks := by
    intro hslot hstop
    refine (sim_ticks hs hi.ld.timer).resolve_right fun htick => ?_
    obtain ⟨hout, _⟩ := (hi.cpus c hc).working hi.ld.timer hslot hstop
    exact htick.2.2 _ (deviceOf_lt n c) hout
  cases h with
  | due hold hat htime hruns =>
      refine .due (hheld.trans hold) (hloc.trans hat) ?_ ?_
      · exact (hclock (by simp [hat]) (by simp [hat])).trans htime
      · rw [runsOf_of_other hs hi.exclusive hold hne]
        exact hruns
  | ran hold hat hruns htime =>
      have hruns' : ((nextJournal x j e).runsOf proc).length ≤ r + 1 := by
        rw [runsOf_of_other hs hi.exclusive hold hne]
        exact hruns
      refine .ran (hheld.trans hold) (hloc ▸ hat) hruns' ?_
      rw [hslots]
      cases sim_ticks hs hi.ld.timer with
      | inl hsame => rwa [hsame]
      | inr htick =>
          obtain ⟨rfl, hnext, _⟩ := htick
          obtain ⟨u, hstep, _⟩ := ldLts_device (Lts.moves_some.mp hs.1)
            (by simp [TimerEvent.device])
          have hstop : x.2.loc c ≠ .stopped := by
            cases hat with
            | inl hat => simp [hat]
            | inr hat => simp [hat]
          obtain ⟨_, hk⟩ := (hi.cpus c hc).of_tick hi.ld.timer hstep hstop
          cases htime with
          | inl htime => exact .inr ⟨by omega, htime ▸ hk⟩
          | inr htime =>
              have hlen := congrArg List.length (hk.symm.trans htime.2)
              simp only [List.length_range] at hlen
              omega
  | ended hfin hruns =>
      refine .ended ((sim_ended_mono hs).1 hfin) ?_
      rw [runsOf_of_finished hs hi.exclusive hfin]
      exact hruns

/-- With a process, the second look is followed by `run`. -/
theorem RoutineStep.visit_of_recheck (hs : RoutineStep n codeSize timeSlot m re m')
    (hre : re.actor = some c) (hheld : m.cpus.held c = some proc) (hloc : m.loc c = .recheck) :
    re.visit m = some (c, some proc) := by
  cases hs with
  | load _ _ _ => cases hre
  | loaded _ => cases hre
  | stop _ _ hnone _ =>
      obtain rfl := Option.some.inj hre
      simp [hheld] at hnone
  | wait _ _ hnone _ =>
      obtain rfl := Option.some.inj hre
      simp [hheld] at hnone
  | @run k _ _ _ _ =>
      obtain rfl := Option.some.inj hre
      exact congrArg (fun p => some (k, p)) hheld
  | @killall k _ _ _ _ _ _ =>
      obtain rfl := Option.some.inj hre
      exact congrArg (fun p => some (k, p)) hheld
  | get _ htop _ =>
      obtain rfl := Option.some.inj hre
      simp [hloc] at htop
  | finish _ htop _ _ =>
      obtain rfl := Option.some.inj hre
      simp [hloc] at htop
  | put _ htop _ _ _ =>
      obtain rfl := Option.some.inj hre
      simp [hloc] at htop
  | keep _ htop _ _ _ =>
      obtain rfl := Option.some.inj hre
      simp [hloc] at htop
  | reload _ hreload _ =>
      obtain rfl := Option.some.inj hre
      simp [hloc] at hreload
  | ret _ hslot =>
      obtain rfl := Option.some.inj hre
      simp [hloc] at hslot

/-- With a process at the end of its code, the top of the loop is followed by its release. -/
theorem RoutineStep.finished_of_top (hs : RoutineStep n codeSize timeSlot m re m')
    (hre : re.actor = some c) (hheld : m.cpus.held c = some proc) (hloc : m.loc c = .top)
    (hpc : m.pc proc = codeSize proc) : proc ∈ m'.cpus.finished ∧ re.visit m = none := by
  have hsame : ∀ {p : Pcb}, m.cpus.held c = some p → p = proc :=
    fun h => Option.some.inj (h.symm.trans hheld)
  cases hs with
  | load _ _ _ => cases hre
  | loaded _ => cases hre
  | get _ _ hnone =>
      obtain rfl := Option.some.inj hre
      simp [hheld] at hnone
  | finish _ _ hold _ =>
      obtain rfl := Option.some.inj hre
      obtain rfl := hsame hold
      exact ⟨List.mem_cons_self, rfl⟩
  | put _ _ hold hne _ =>
      obtain rfl := Option.some.inj hre
      obtain rfl := hsame hold
      exact absurd hpc hne
  | keep _ _ hold hne _ =>
      obtain rfl := Option.some.inj hre
      obtain rfl := hsame hold
      exact absurd hpc hne
  | reload _ hreload _ =>
      obtain rfl := Option.some.inj hre
      simp [hloc] at hreload
  | stop _ hrecheck _ _ =>
      obtain rfl := Option.some.inj hre
      simp [hloc] at hrecheck
  | wait _ hrecheck _ _ =>
      obtain rfl := Option.some.inj hre
      simp [hloc] at hrecheck
  | run _ hrecheck _ =>
      obtain rfl := Option.some.inj hre
      simp [hloc] at hrecheck
  | killall _ hrecheck _ _ =>
      obtain rfl := Option.some.inj hre
      simp [hloc] at hrecheck
  | ret _ hslot =>
      obtain rfl := Option.some.inj hre
      simp [hloc] at hslot

theorem Ending.own {t r : ℕ} (h : Ending c proc t r x j) (hi : SimInv n ps x j)
    (hend : x.2.pc proc = codeSize proc) (hs : (simLts n ps codeSize timeSlot).step x (.cpu re) y)
    (hre : re.actor = some c) : Ending c proc t r y (nextJournal x j (.cpu re)) := by
  have hm : RoutineStep n codeSize timeSlot x.2 re y.2 := Lts.moves_some.mp hs.2.1
  have hticks : y.1.2.1.ticks = x.1.2.1.ticks :=
    (sim_ticks hs hi.ld.timer).resolve_right fun htick => by cases htick.1
  obtain ⟨_, hslot, _, hcases⟩ := hm.own hs.2.2 hre
  have hlen := length_runsOf x j (.cpu re) proc
  simp only [SimEvent.routine, Option.elim_some, RoutineEvent.runs] at hlen
  cases h with
  | due hold hat htime hruns =>
      have hvisit := hm.visit_of_recheck hre hold hat
      rw [hvisit] at hcases hlen
      obtain ⟨hlast, hafter⟩ := hcases.resolve_right fun h => by cases h.1
      obtain ⟨_, hheld⟩ := Prod.mk.inj (Option.some.inj hlast)
      simp only [Option.map_some, if_true] at hlen
      exact .ran hheld.symm (.inl hafter) (by omega) (.inl (hticks.trans htime))
  | ran hold hat hruns htime =>
      obtain ⟨hfin, hvisit⟩ := hm.finished_of_top hre hold (hat.resolve_left hslot) hend
      rw [hvisit] at hlen
      simp only [Option.map_none, reduceCtorEq, if_false] at hlen
      exact .ended hfin (by omega)
  | ended hfin hruns =>
      refine .ended ((sim_ended_mono hs).1 hfin) ?_
      rw [runsOf_of_finished hs hi.exclusive hfin]
      exact hruns

theorem RoutineStep.ret_cases (hs : RoutineStep n codeSize timeSlot m (.ret c) m') :
    m.loc c = .slot ∧ m'.loc c = .top ∧ m'.cpus = m.cpus := by
  cases hs with
  | ret _ hslot => exact ⟨hslot, Function.update_self .., rfl⟩

theorem Ending.step {t r : ℕ} (h : Ending c proc t r x j) (hi : SimInv n ps x j) (hc : c < n)
    (hend : x.2.pc proc = codeSize proc) (hs : (simLts n ps codeSize timeSlot).step x e y) :
    Ending c proc t r y (nextJournal x j e) := by
  by_cases hact : e.actor = some c
  · have hclock : (∀ te, e ≠ .timer te) → y.1.2.1.ticks = x.1.2.1.ticks :=
      fun hne => (sim_ticks hs hi.ld.timer).resolve_right fun htick => hne _ htick.1
    cases e with
    | cpu re => exact h.own hi hend hs hact
    | enter k =>
        obtain rfl := Option.some.inj hact
        have hsame : y.2 = x.2 := Lts.moves_none.mp hs.2.1
        have hticks := hclock (by simp)
        cases h with
        | due hold hat htime hruns => exact absurd hs.2.2.2 (by simp [hat])
        | ran hold hat hruns htime =>
            exact .ran (hsame ▸ hold) (hsame ▸ hat) hruns (hticks ▸ htime)
        | ended hfin hruns => exact .ended (hsame ▸ hfin) hruns
    | ret k =>
        obtain rfl := Option.some.inj hact
        have hm : RoutineStep n codeSize timeSlot x.2 (.ret k) y.2 := Lts.moves_some.mp hs.2.1
        obtain ⟨hslot, htop, hcpus⟩ := hm.ret_cases
        have hticks := hclock (by simp)
        cases h with
        | due hold hat htime hruns => exact absurd hslot (by simp [hat])
        | ran hold hat hruns htime =>
            exact .ran (hcpus ▸ hold) (.inr htop) hruns (hticks ▸ htime)
        | ended hfin hruns => exact .ended (hcpus ▸ hfin) hruns
    | detach k =>
        obtain rfl := Option.some.inj hact
        have hsame : y.2 = x.2 := Lts.moves_none.mp hs.2.1
        have hstop := hs.2.2.2
        cases h with
        | due hold hat htime hruns => exact absurd hstop (by simp [hat])
        | ran hold hat hruns htime =>
            rw [hstop] at hat
            simp at hat
        | ended hfin hruns => exact .ended (hsame ▸ hfin) hruns
    | _ => cases hact
  · exact h.other hi hc hs hact

/-! ### The system call -/

theorem Procs.killQueue_ready_ne (procName : String) {s : Procs} {i k : ℕ} (hne : k ≠ i) :
    (s.killQueue i procName).ready k = s.ready k := by
  unfold killQueue
  cases (s.cpus.sched.mlqReadyQueue i).scan procName with
  | none => rfl
  | some victim =>
      show (Sched.mk _ _ _).ready k = _
      rw [Sched.ready_update, Function.update_of_ne hne]
      rfl

theorem Procs.killQueues_finished (procName : String) (n : ℕ) : ∀ (i : ℕ) (s : Procs),
    i + n ≤ maxPrio → ∀ k, i ≤ k → k < i + n → ∀ q,
      (s.ready k).find? (Pcb.matchesName procName) = some q →
        q ∈ (killQueues procName i n s).cpus.finished := by
  induction n with
  | zero =>
      intro i s _ k hle hlt
      omega
  | succ n ih =>
      intro i s hmax k hle hlt q hfind
      rw [killQueues]
      by_cases hk : k = i
      · subst hk
        obtain ⟨es, hrun⟩ := killQueues_run procName n (k + 1) (s.killQueue k procName) (by omega)
        refine hrun.invariant (I := fun s => q ∈ s.finished) (fun _ _ _ h hs => ?_) ?_
        · exact (CpuStep.ended_mono hs).1 h
        · have hscan : (s.cpus.sched.mlqReadyQueue k).toList.find? _ = some q := hfind
          unfold killQueue
          rw [QueueT.scan_eq, hscan]
          exact List.mem_cons_self
      · refine ih (i + 1) _ (by omega) k (by omega) (by omega) q ?_
        rwa [killQueue_ready_ne procName hk]

/-- What the call does to the CPUs, to a process that it stops and to one that it removes. -/
structure CalledKillall (codeSize : Pcb → ℕ) (procName : String) (k : ℕ) (m m' : Machine) :
    Prop where
  held : m'.cpus.held = m.cpus.held
  caller : m'.loc k = .slot
  loc : ∀ c, c ≠ k → m'.loc c = m.loc c
  added : m'.cpus.added = m.cpus.added
  stopped : ∀ q, m.running.find? (Pcb.matchesName procName) = some q → m'.pc q = codeSize q
  removed : ∀ i < maxPrio, ∀ q, (m.ready i).find? (Pcb.matchesName procName) = some q →
    q ∈ m'.cpus.finished

theorem RoutineStep.calledKillall {k : ℕ}
    (hs : RoutineStep n codeSize timeSlot m (.killall k procName) m') :
    CalledKillall codeSize procName k m m' := by
  cases hs with
  | @killall _ p _ _ _ _ _ =>
      refine ⟨Procs.killall_held procName _, Function.update_self ..,
        fun c hne => Function.update_of_ne hne _ _, Procs.killall_added procName _,
        fun q hfind => ?_, fun i hi q hfind => ?_⟩
      · have hpc : ((m.advance codeSize p).toProcs.killall codeSize procName).pc q =
            if _ then codeSize q else _ := Procs.killall_pc q
        refine hpc.trans (if_pos ?_)
        exact hfind
      · refine Procs.killQueues_finished procName maxPrio 0 _ (by omega) i (Nat.zero_le i)
          (by omega) q ?_
        unfold Procs.ready
        rw [Procs.stopRunning_cpus]
        exact hfind

/-- A process that was stopped is on a CPU that will end it. -/
theorem Ending.of_killall {k : ℕ} (hi : SimInv n ps x j) (hu : ShutInv n x)
    (hs : (simLts n ps codeSize timeSlot).step x (.cpu (.killall k procName)) y)
    (hfind : x.2.running.find? (Pcb.matchesName procName) = some proc) :
    ∃ c < n, AtEnd codeSize proc y.2 ∧ Ending c proc x.1.2.1.ticks (j.runsOf proc).length y
      (nextJournal x j (.cpu (.killall k procName))) := by
  have hm : RoutineStep n codeSize timeSlot x.2 (.killall k procName) y.2 :=
    Lts.moves_some.mp hs.2.1
  have hcall := hm.calledKillall
  have hticks : y.1.2.1.ticks = x.1.2.1.ticks :=
    (sim_ticks hs hi.ld.timer).resolve_right fun htick => by cases htick.1
  obtain ⟨c, hheld⟩ := hi.exclusive.running_held proc (List.mem_of_find?_eq_some hfind)
  have hc : c < n := by
    by_contra hge
    have hnone := hu.other c (by omega)
    rw [hheld] at hnone
    cases hnone
  have hadded := (hi.exclusive.held_live c proc hheld).1
  have hheld' : y.2.cpus.held c = some proc := hcall.held ▸ hheld
  refine ⟨c, hc, ⟨hcall.added ▸ hadded, hcall.stopped proc hfind⟩, ?_⟩
  by_cases hk : c = k
  · subst hk
    refine .ran hheld' (.inl hcall.caller) ?_ (.inl hticks)
    have hlen := length_runsOf x j (.cpu (.killall c procName)) proc
    simp only [SimEvent.routine, Option.elim_some, RoutineEvent.runs] at hlen
    split_ifs at hlen <;> omega
  · have hloc := hcall.loc c hk
    have hruns := runsOf_of_other hs hi.exclusive hheld (j := j)
      (fun he => hk (Option.some.inj he).symm)
    cases hat : x.2.loc c with
    | top => exact .ran hheld' (.inr (hloc.trans hat)) (hruns ▸ Nat.le_succ _) (.inl hticks)
    | recheck => exact .due hheld' (hloc.trans hat) hticks (hruns ▸ Nat.le_refl _)
    | slot => exact .ran hheld' (.inl (hloc.trans hat)) (hruns ▸ Nat.le_succ _) (.inl hticks)
    | reload =>
        have hnone := (hi.cpus c hc).reload hat
        rw [hheld] at hnone
        cases hnone
    | stopped =>
        have hnone := (hu.stopped c hc hat).2
        rw [hheld] at hnone
        cases hnone

/-- After the call: a process that was stopped executes nothing more, is given to `run` once more at
most, and has finished before the slot after the next one; one that was removed from its queue is
never run again. -/
structure KillEnds (codeSize : Pcb → ℕ) (procName : String) (x : SimState) (j : Journal)
    (z : SimState) (jz : Journal) : Prop where
  stopped : ∀ proc, x.2.running.find? (Pcb.matchesName procName) = some proc →
    z.2.pc proc = codeSize proc ∧ (jz.runsOf proc).length ≤ (j.runsOf proc).length + 1 ∧
      (x.1.2.1.ticks + 2 ≤ z.1.2.1.ticks → proc ∈ z.2.cpus.finished)
  removed : ∀ i < maxPrio, ∀ proc, (x.2.ready i).find? (Pcb.matchesName procName) = some proc →
    proc ∈ z.2.cpus.finished ∧ jz.runsOf proc = j.runsOf proc

/-- **After `killall`**, for any number of CPUs, every interleaving, and whatever other processes
are killed. -/
theorem killed_ends {es es' : List SimEvent} {k : ℕ}
    (hr : (visitLts n ps codeSize timeSlot).Run (.start ps, .start) es (x, j))
    (hkill : (visitLts n ps codeSize timeSlot).step (x, j) (.cpu (.killall k procName)) (y, j'))
    (hr' : (visitLts n ps codeSize timeSlot).Run (y, j') es' (z, jz)) :
    KillEnds codeSize procName x j z jz := by
  obtain ⟨hs, hj⟩ := hkill
  have hs : (simLts n ps codeSize timeSlot).step x (.cpu (.killall k procName)) y := hs
  have hj : j' = nextJournal x j (.cpu (.killall k procName)) := hj
  have hm : RoutineStep n codeSize timeSlot x.2 (.killall k procName) y.2 :=
    Lts.moves_some.mp hs.2.1
  have hn : 0 < n := Nat.zero_lt_of_lt (hm.actor_lt rfl)
  have hi := SimInv.of_run hr
  have hi' : SimInv n ps y j' := hj ▸ hi.step hs
  refine ⟨fun proc hfind => ?_, fun i hmax proc hfind => ?_⟩
  · obtain ⟨c, hc, hend, hending⟩ := Ending.of_killall hi (ShutInv.of_run hn hr) hs hfind
    have hfinal : SimInv n ps z jz ∧ AtEnd codeSize proc z.2 ∧
        Ending c proc x.1.2.1.ticks (j.runsOf proc).length z jz := by
      refine hr'.invariant (I := fun z => SimInv n ps z.1 z.2 ∧ AtEnd codeSize proc z.1.2 ∧
        Ending c proc x.1.2.1.ticks (j.runsOf proc).length z.1 z.2) ?_ ⟨hi', hend, hj ▸ hending⟩
      rintro ⟨v, jv⟩ e ⟨w, jw⟩ ⟨hi, hend, hending⟩ ⟨hs, rfl⟩
      refine ⟨hi.step hs, ?_, hending.step hi hc hend.pc hs⟩
      exact hs.2.1.keeps (I := AtEnd codeSize proc) (fun _ _ hm => hend.step hm) hend
    obtain ⟨_, hend', hending'⟩ := hfinal
    cases hending' with
    | due hold hat htime hruns => exact ⟨hend'.pc, by omega, fun hlate => by omega⟩
    | ran hold hat hruns htime => exact ⟨hend'.pc, hruns, fun hlate => by omega⟩
    | ended hfin hruns => exact ⟨hend'.pc, hruns, fun _ => hfin⟩
  · have hfin := hm.calledKillall.removed i hmax proc hfind
    have hnot : ∀ c, x.2.cpus.held c ≠ some proc := by
      intro c hheld
      have hmem : proc ∈ x.2.ready i := List.mem_of_find?_eq_some hfind
      exact hi.exclusive.notMem hheld (hi.exclusive.prio i proc hmem ▸ hmem)
    have hruns : j'.runsOf proc = j.runsOf proc :=
      hj ▸ runsOf_eq hs fun c hheld => absurd hheld (hnot c)
    have hfinal : SimInv n ps z jz ∧ proc ∈ z.2.cpus.finished ∧ jz.runsOf proc = j.runsOf proc := by
      refine hr'.invariant (I := fun z => SimInv n ps z.1 z.2 ∧ proc ∈ z.1.2.cpus.finished ∧
        z.2.runsOf proc = j.runsOf proc) ?_ ⟨hi', hfin, hruns⟩
      rintro ⟨v, jv⟩ e ⟨w, jw⟩ ⟨hi, hfin, hruns⟩ ⟨hs, rfl⟩
      refine ⟨hi.step hs, (sim_ended_mono hs).1 hfin, ?_⟩
      exact (runsOf_of_finished hs hi.exclusive hfin).trans hruns
    exact hfinal.2

/-- The first CPU frees the process that was stopped, and the other one goes on. -/
def afterKill : List SimEvent :=
  .enter 1 :: slotEnd ++ [.cpu (.finish 0), .cpu (.reload 0), .cpu (.stop 0), .detach 0,
    .cpu (.keep 1), .cpu (.run 1), .enter 1] ++ slotEnd.take 9

omit [SchedHeader] in
/-- In slot 3 the second process of the run kills the first one, which another CPU has just run, and
removes the third one from its queue. -/
theorem killed_ends_sample : ∃ x y z : @SimState sched22 × Journal,
    threeLts.Run threeStart (threeRun.take 71) x ∧
    threeLts.step x (.cpu (.killall 1 "p")) y ∧ threeLts.Run y afterKill z ∧
    z.1.1.2.1.ticks = x.1.1.2.1.ticks + 2 ∧ endedPids z.1 = [1, 3] ∧
    @KillEnds sched22 threeSize "p" x.1 x.2 z.1 z.2 := by
  let := sched22
  have hnext := Lts.withGhost_of_nextGhost (f := nextJournal)
    (@simStep_of_next sched22 2 threeLines threeSize 4)
  obtain ⟨x, j, hr, hx⟩ := threeRun_reach 71
    (P := fun x => ((threeNext x (.cpu (.killall 1 "p"))).any fun y =>
      (Lts.replay threeNext y afterKill).any fun z => z.1.1.2.1.ticks = x.1.1.2.1.ticks + 2 ∧
        endedPids z.1 = [1, 3]) = true) (by decide +kernel)
  obtain ⟨⟨y, j'⟩, hs, hy⟩ := (Option.any_eq_true _ _).mp hx
  obtain ⟨⟨z, jz⟩, hz, hend⟩ := (Option.any_eq_true _ _).mp hy
  obtain ⟨hticks, hfin⟩ := of_decide_eq_true hend
  have hkill := hnext _ _ _ hs
  have hr' := threeLts_of_next hz
  exact ⟨(x, j), (y, j'), (z, jz), hr, hkill, hr', hticks, hfin, killed_ends hr hkill hr'⟩

end BtlOs
