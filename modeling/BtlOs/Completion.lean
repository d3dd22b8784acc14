import BtlOs.Visits
import BtlOs.Lib.Counting

/-! # Completion times

No process is run before the slot of its arrival, and in each slot from then on it executes at most
one instruction: so a program without `killall` around it takes at least as many slots as it has
instructions, and `n` CPUs execute at most `n` instructions a slot.

`LoadInv` says which processes have been added and what is left for the loader. -/

namespace BtlOs

open SchedHeader Counting

/-- The loader has left its loop. -/
def LdLoc.over : LdLoc → Bool
  | .last => true
  | .ended => true
  | _ => false

theorem LdStep.loop_frame {n d : ℕ} {ps : List LdProcess} {s s' : Loading} {e : LdEvent}
    (hs : LdStep n d ps s e s') (hadd : ∀ proc, e ≠ .add proc) (hfin : e ≠ .finish) :
    s'.i = s.i ∧ s'.loc.over = s.loc.over := by
  cases hs with
  | other _ _ => exact ⟨rfl, rfl⟩
  | load htop _ => exact ⟨rfl, by rw [htop]; rfl⟩
  | early htest _ _ => exact ⟨rfl, by rw [htest]; rfl⟩
  | due htest _ _ => exact ⟨rfl, by rw [htest]; rfl⟩
  | add _ _ => exact absurd rfl (hadd _)
  | @enter loc _ henter _ =>
      refine ⟨rfl, ?_⟩
      cases hl : s.loc with
      | early =>
          rw [hl] at henter
          obtain rfl := Option.some.inj henter
          rfl
      | added =>
          rw [hl] at henter
          obtain rfl := Option.some.inj henter
          rfl
      | _ => simp [hl, LdLoc.enter] at henter
  | @leave loc _ hleave _ =>
      refine ⟨rfl, ?_⟩
      cases hl : s.loc with
      | waiting =>
          rw [hl] at hleave
          obtain rfl := Option.some.inj hleave
          rfl
      | resting =>
          rw [hl] at hleave
          obtain rfl := Option.some.inj hleave
          rfl
      | _ => simp [hl, LdLoc.leave] at hleave
  | finish _ _ => exact absurd rfl hfin
  | detach hlast _ => exact ⟨rfl, by rw [hlast]; rfl⟩

variable [SchedHeader]

/-! ### The processes -/

structure LoadInv (ps : List LdProcess) (x : SimState) : Prop where
  toLoad : x.2.toLoad = (pcbs ps).drop x.1.1.i
  added : x.2.cpus.added = ((pcbs ps).take x.1.1.i).reverse
  done : x.2.done = x.1.1.loc.over
  slots : ∀ ad ∈ x.1.2.2, ad.slot ≤ x.1.2.1.ticks

variable {n cpu : ℕ} {ps : List LdProcess} {codeSize : Pcb → ℕ} {timeSlot : ℤ} {x y : SimState}
  {j : Journal} {e : SimEvent} {m m' : Machine} {proc : Pcb}

theorem Procs.killall_added (procName : String) (s : Procs) :
    (s.killall codeSize procName).cpus.added = s.cpus.added := by
  have hloop : ∀ (k i : ℕ) (s : Procs), (killQueues procName i k s).cpus.added = s.cpus.added := by
    intro k
    induction k with
    | zero => exact fun _ _ => rfl
    | succ k ih =>
        intro i s
        rw [killQueues, ih]
        unfold killQueue
        cases (s.cpus.sched.mlqReadyQueue i).scan procName with
        | none => rfl
        | some _ => rfl
  unfold killall
  rw [hloop, stopRunning_cpus]

theorem RoutineStep.load_frame {e : RoutineEvent} (hs : RoutineStep n codeSize timeSlot m e m')
    (hload : e ≠ .load) (hloaded : e ≠ .loaded) :
    m'.toLoad = m.toLoad ∧ m'.cpus.added = m.cpus.added ∧ m'.done = m.done := by
  cases hs with
  | load _ _ _ => exact absurd rfl hload
  | loaded _ => exact absurd rfl hloaded
  | @killall _ proc procName _ _ _ _ =>
      exact ⟨rfl, Procs.killall_added procName (m.advance codeSize proc).toProcs, rfl⟩
  | _ => exact ⟨rfl, rfl, rfl⟩

omit [SchedHeader] in
theorem pcbs_get {i : ℕ} {line : LdProcess} (h : ps[i]? = some line) :
    (pcbs ps)[i]? = some (pcbOf i line) := by
  simp [pcbs, List.getElem?_mapIdx, h]

theorem LoadInv.add (hi : LoadInv ps x) {line : LdProcess}
    (hs : (simLts n ps codeSize timeSlot).step x (.add line) y) :
    LoadInv ps y := by
  obtain ⟨⟨s, h, a⟩, m⟩ := x
  obtain ⟨⟨s', h', a'⟩, m'⟩ := y
  obtain ⟨hld, hghost⟩ := Lts.moves_some.mp hs.1
  have hm : RoutineStep n codeSize timeSlot m .load m' := Lts.moves_some.mp hs.2.1
  have hld : LdStep (n + 1) 0 ps s (.add line) s' := hld
  obtain ⟨rfl, rfl⟩ := Prod.mk.inj hghost
  cases hld with
  | add hdue hline =>
      cases hm with
      | @load p rest hload _ _ =>
          have htoLoad : (pcbs ps).drop s.i = p :: rest := hi.toLoad.symm.trans hload
          have hget : (pcbs ps)[s.i]? = some p := by
            have hhead := congrArg (·[0]?) htoLoad
            simpa using hhead
          refine ⟨?_, ?_, ?_, ?_⟩
          · show rest = (pcbs ps).drop (s.i + 1)
            rw [← List.tail_drop, htoLoad]
            rfl
          · show p :: m.cpus.added = ((pcbs ps).take (s.i + 1)).reverse
            rw [List.take_add_one, hget, hi.added]
            simp
          · show m.done = _
            rw [hi.done]
            show s.loc.over = false
            rw [hdue]
            rfl
          · intro ad had
            cases List.mem_append.mp had with
            | inl had => exact hi.slots ad had
            | inr had =>
                obtain rfl := List.mem_singleton.mp had
                exact Nat.le_refl _

theorem LoadInv.loaded (hi : LoadInv ps x) (hs : (simLts n ps codeSize timeSlot).step x .loaded y) :
    LoadInv ps y := by
  obtain ⟨⟨s, h, a⟩, m⟩ := x
  obtain ⟨⟨s', h', a'⟩, m'⟩ := y
  obtain ⟨hld, hghost⟩ := Lts.moves_some.mp hs.1
  have hm : RoutineStep n codeSize timeSlot m .loaded m' := Lts.moves_some.mp hs.2.1
  have hld : LdStep (n + 1) 0 ps s .finish s' := hld
  obtain ⟨rfl, rfl⟩ := Prod.mk.inj hghost
  cases hld with
  | finish _ _ =>
      cases hm with
      | loaded _ => exact ⟨hi.toLoad, hi.added, rfl, hi.slots⟩

theorem SimGuard.ld_ne {le : LdEvent} (hg : SimGuard n x e) (he : e.ld n = some le)
    (hadd : ∀ line, e ≠ .add line) (hloaded : e ≠ .loaded) :
    (∀ line, le ≠ .add line) ∧ le ≠ .finish := by
  cases e with
  | loader e =>
      obtain rfl := Option.some.inj he
      cases e with
      | add _ => cases hg
      | finish => cases hg
      | _ => simp
  | add _ => exact absurd rfl (hadd _)
  | loaded => exact absurd rfl hloaded
  | cpu _ => cases he
  | _ =>
      obtain rfl := Option.some.inj he
      simp

theorem SimGuard.routine_ne {re : RoutineEvent} (hg : SimGuard n x e) (he : e.routine = some re)
    (hadd : ∀ line, e ≠ .add line) (hloaded : e ≠ .loaded) : re ≠ .load ∧ re ≠ .loaded := by
  cases e with
  | cpu e =>
      obtain rfl := Option.some.inj he
      refine ⟨?_, ?_⟩
      · rintro rfl
        cases hg
      · rintro rfl
        cases hg
  | add _ => exact absurd rfl (hadd _)
  | loaded => exact absurd rfl hloaded
  | ret _ =>
      obtain rfl := Option.some.inj he
      simp
  | _ => cases he

theorem LoadInv.step (hi : LoadInv ps x) (ht : TimerInv (n + 1) x.1.1.timer x.1.2.1)
    (hs : (simLts n ps codeSize timeSlot).step x e y) : LoadInv ps y := by
  by_cases hadd : ∃ line, e = .add line
  · obtain ⟨line, rfl⟩ := hadd
    exact hi.add hs
  by_cases hloaded : e = .loaded
  · subst hloaded
    exact hi.loaded hs
  have hadd : ∀ line, e ≠ .add line := fun line he => hadd ⟨line, he⟩
  have hticks : x.1.2.1.ticks ≤ y.1.2.1.ticks := sim_ticks_le hs ht
  obtain ⟨⟨s, h, a⟩, m⟩ := x
  obtain ⟨⟨s', h', a'⟩, m'⟩ := y
  have hmachine : m'.toLoad = m.toLoad ∧ m'.cpus.added = m.cpus.added ∧ m'.done = m.done := by
    have hm := hs.2.1
    cases hre : e.routine with
    | none =>
        rw [hre, Lts.moves_none] at hm
        obtain rfl : m' = m := hm
        exact ⟨rfl, rfl, rfl⟩
    | some re =>
        rw [hre, Lts.moves_some] at hm
        obtain ⟨hload, hload'⟩ := hs.2.2.routine_ne hre hadd hloaded
        exact RoutineStep.load_frame hm hload hload'
  have hloader : s'.i = s.i ∧ s'.loc.over = s.loc.over ∧ a' = a := by
    have hld := hs.1
    cases hle : e.ld n with
    | none =>
        rw [hle, Lts.moves_none] at hld
        obtain ⟨rfl, _, rfl⟩ : s' = s ∧ h' = h ∧ a' = a := by simpa using hld
        exact ⟨rfl, rfl, rfl⟩
    | some le =>
        rw [hle, Lts.moves_some] at hld
        obtain ⟨hstep, hghost⟩ := hld
        obtain ⟨hadd', hfin⟩ := hs.2.2.ld_ne hle hadd hloaded
        obtain ⟨hidx, hover⟩ := LdStep.loop_frame hstep hadd' hfin
        refine ⟨hidx, hover, ?_⟩
        have ha : a' = (nextAdmissions s (h, a) le).2 := congrArg Prod.snd hghost
        cases le with
        | add line => exact absurd rfl (hadd' line)
        | _ => exact ha
  obtain ⟨htoLoad, hadded, hdone⟩ := hmachine
  obtain ⟨hidx, hover, rfl⟩ := hloader
  refine ⟨?_, ?_, ?_, fun ad had => (hi.slots ad had).trans hticks⟩
  · dsimp only
    rw [htoLoad, hidx]
    exact hi.toLoad
  · dsimp only
    rw [hadded, hidx]
    exact hi.added
  · dsimp only
    rw [hdone, hover]
    exact hi.done

theorem LoadInv.start : LoadInv ps (.start ps) := by
  refine ⟨rfl, rfl, rfl, ?_⟩
  simp [SimState.start]

/-- A process that was added arrived in an earlier slot or in this one. -/
theorem LoadInv.arrived (hi : LoadInv ps x) (hld : LdInv (n + 1) 0 ps x.1.1 x.1.2.1 x.1.2.2)
    (hproc : proc ∈ x.2.cpus.added) : ∃ i line, ps[i]? = some line ∧ proc = pcbOf i line ∧
      arrival (startTime ps) i ≤ x.1.2.1.ticks := by
  rw [hi.added, List.mem_reverse] at hproc
  obtain ⟨i, hget⟩ := List.mem_iff_getElem?.mp hproc
  obtain ⟨hlt, hget⟩ : i < x.1.1.i ∧ (pcbs ps)[i]? = some proc := by
    rw [List.getElem?_take] at hget
    split_ifs at hget with hlt
    exact ⟨hlt, hget⟩
  obtain ⟨line, hline, rfl⟩ : ∃ line, ps[i]? = some line ∧ pcbOf i line = proc := by
    simpa [pcbs, List.getElem?_mapIdx] using hget
  have hlen := hld.admitted.length
  obtain ⟨_, hslot, _⟩ := hld.admitted.get i _ (List.getElem?_eq_getElem (by omega))
  refine ⟨i, line, hline, rfl, ?_⟩
  rw [← hslot]
  exact hi.slots _ (List.getElem_mem _)

/-! ### The processes that have ended -/

theorem CpuStep.ended_mono {s s' : Cpus} {ce : CpuEvent} (hs : CpuStep s ce s') :
    s.finished ⊆ s'.finished ∧ s.refused ⊆ s'.refused := by
  have henlist : ∀ p, s.refused ⊆ (s.enlist p).refused := by
    intro p q hq
    unfold Cpus.enlist
    dsimp only
    split_ifs
    · exact List.mem_cons_of_mem _ hq
    · exact hq
  cases hs with
  | add _ _ => exact ⟨fun _ h => h, henlist _⟩
  | get _ => exact ⟨fun _ h => h, fun _ h => h⟩
  | put _ => exact ⟨fun _ h => h, henlist _⟩
  | finish _ => exact ⟨fun _ h => List.mem_cons_of_mem _ h, fun _ h => h⟩
  | killall _ _ => exact ⟨fun _ h => List.mem_cons_of_mem _ h, fun _ h => h⟩

theorem sim_ended_mono (hs : (simLts n ps codeSize timeSlot).step x e y) :
    x.2.cpus.finished ⊆ y.2.cpus.finished ∧ x.2.cpus.refused ⊆ y.2.cpus.refused := by
  refine hs.2.1.keeps (I := fun m => x.2.cpus.finished ⊆ m.cpus.finished ∧
    x.2.cpus.refused ⊆ m.cpus.refused) (fun re m hm => ?_) ⟨fun _ h => h, fun _ h => h⟩
  obtain ⟨es, hrun⟩ := RoutineStep.cpus_run hm
  refine hrun.invariant (I := fun s => x.2.cpus.finished ⊆ s.finished ∧
    x.2.cpus.refused ⊆ s.refused) (fun s _ s' h hs => ?_) ⟨fun _ h => h, fun _ h => h⟩
  have hmono := CpuStep.ended_mono hs
  exact ⟨fun _ hq => hmono.1 (h.1 hq), fun _ hq => hmono.2 (h.2 hq)⟩

/-! ### The runs of a process -/

/-- No step of the event is a `killall`. -/
def SimEvent.NoKill : SimEvent → Prop
  | .cpu (.killall _ _) => False
  | _ => True

/-- A process is run after it arrived, its `pc` is at most the number of its runs, and a process
that has finished was run as often as it has instructions, in earlier slots. -/
structure RunInv (ps : List LdProcess) (codeSize : Pcb → ℕ) (x : SimState) (j : Journal) :
    Prop where
  arrived : ∀ proc, ∀ slot ∈ j.runsOf proc, ∃ i line, ps[i]? = some line ∧ proc = pcbOf i line ∧
    arrival (startTime ps) i ≤ slot
  pc : ∀ proc, x.2.pc proc ≤ (j.runsOf proc).length
  finished : ∀ proc ∈ x.2.cpus.finished, codeSize proc ≤ (j.runsOf proc).length ∧
    ∀ slot ∈ j.runsOf proc, slot < x.1.2.1.ticks

theorem RoutineStep.pc_le {re : RoutineEvent} (hs : RoutineStep n codeSize timeSlot m re m')
    (hkill : ∀ c procName, re ≠ .killall c procName) (proc : Pcb) :
    m'.pc proc ≤ m.pc proc ∨
      (∃ c, re.visit m = some (c, some proc)) ∧ m'.pc proc ≤ m.pc proc + 1 := by
  cases hs with
  | @load p _ _ _ _ =>
      refine .inl ?_
      show Function.update m.pc p 0 proc ≤ _
      rw [Function.update_apply]
      split_ifs
      · exact Nat.zero_le _
      · exact Nat.le_refl _
  | @run c p _ _ hheld =>
      show Function.update m.pc p _ proc ≤ _ ∨ _ ∧ Function.update m.pc p _ proc ≤ _
      by_cases he : proc = p
      · subst he
        refine .inr ⟨⟨c, congrArg (fun r => some (c, r)) hheld⟩, ?_⟩
        rw [Function.update_self]
        split_ifs <;> omega
      · rw [Function.update_of_ne he]
        exact .inl (Nat.le_refl _)
  | killall _ _ _ _ => exact absurd rfl (hkill _ _)
  | _ => exact .inl (Nat.le_refl _)

/-- A process finishes on the CPU that holds it, at the end of its code. -/
theorem RoutineStep.finished_cases {re : RoutineEvent}
    (hs : RoutineStep n codeSize timeSlot m re m') (hkill : ∀ c procName, re ≠ .killall c procName)
    (hproc : proc ∈ m'.cpus.finished) : proc ∈ m.cpus.finished ∨ ∃ c, m.loc c = .top ∧
      m.cpus.held c = some proc ∧ m.pc proc = codeSize proc := by
  cases hs with
  | @finish c p _ htop hheld hpc =>
      cases List.mem_cons.mp hproc with
      | inl he =>
          subst he
          exact .inr ⟨c, htop, hheld, hpc⟩
      | inr hold => exact .inl hold
  | killall _ _ _ _ => exact absurd rfl (hkill _ _)
  | _ => exact .inl hproc

omit [SchedHeader] in
theorem SimEvent.NoKill.routine {re : RoutineEvent} (hk : e.NoKill) (he : e.routine = some re) :
    ∀ c procName, re ≠ .killall c procName := by
  rintro c procName rfl
  cases e with
  | cpu e =>
      obtain rfl := Option.some.inj he
      exact hk
  | _ => simp [SimEvent.routine] at he

theorem runsOf_visit {re : RoutineEvent} {c : ℕ} (he : e.routine = some re)
    (hv : re.visit x.2 = some (c, some proc)) :
    (nextJournal x j e).runsOf proc = j.runsOf proc ++ [x.1.2.1.ticks] := by
  cases e with
  | cpu e =>
      obtain rfl := Option.some.inj he
      simp [Journal.runsOf, nextJournal, hv]
  | timer _ => cases he
  | loader _ => cases he
  | add _ =>
      obtain rfl := Option.some.inj he
      cases hv
  | loaded =>
      obtain rfl := Option.some.inj he
      cases hv
  | enter _ => cases he
  | ret _ =>
      obtain rfl := Option.some.inj he
      cases hv
  | detach _ => cases he

/-- The runs of a process that a step makes. -/
def RoutineEvent.runs (m : Machine) (re : RoutineEvent) (proc : Pcb) : ℕ :=
  if (re.visit m).map Prod.snd = some (some proc) then 1 else 0

theorem length_runsOf (x : SimState) (j : Journal) (e : SimEvent) (proc : Pcb) :
    ((nextJournal x j e).runsOf proc).length =
      (j.runsOf proc).length + (e.routine.elim 0 fun re => re.runs x.2 proc) := by
  cases e with
  | cpu re =>
      cases hv : re.visit x.2 with
      | none => simp [Journal.runsOf, nextJournal, SimEvent.routine, RoutineEvent.runs, hv]
      | some v =>
          by_cases hp : v.2 = some proc
          · simp [Journal.runsOf, nextJournal, SimEvent.routine, RoutineEvent.runs, hv, hp]
          · simp [Journal.runsOf, nextJournal, SimEvent.routine, RoutineEvent.runs, hv, hp]
  | _ => simp [nextJournal, SimEvent.routine, RoutineEvent.runs, RoutineEvent.visit]

theorem runsOf_extends (x : SimState) (j : Journal) (e : SimEvent) (proc : Pcb) :
    j.runsOf proc <+: (nextJournal x j e).runsOf proc := by
  cases runsOf_next x j e proc with
  | inl hj => rw [hj]
  | inr hj =>
      obtain ⟨_, _, _, _, hj⟩ := hj
      rw [hj]
      exact List.prefix_append _ _

/-- A process that is not at the second look of a CPU is not run in this step. -/
theorem runsOf_eq (hs : (simLts n ps codeSize timeSlot).step x e y)
    (hproc : ∀ c, x.2.cpus.held c = some proc → x.2.loc c ≠ .recheck) :
    (nextJournal x j e).runsOf proc = j.runsOf proc := by
  cases runsOf_next x j e proc with
  | inl hj => exact hj
  | inr hj =>
      obtain ⟨re, c, rfl, hvisit, _⟩ := hj
      have hstep : RoutineStep n codeSize timeSlot x.2 re y.2 := Lts.moves_some.mp hs.2.1
      obtain ⟨hloc, hheld⟩ := hstep.visit_held hvisit
      exact absurd hloc (hproc c hheld)

theorem RunInv.step (hr : RunInv ps codeSize x j) (hi : SimInv n ps x j) (hl : LoadInv ps x)
    (hs : (simLts n ps codeSize timeSlot).step x e y) (hk : e.NoKill) :
    RunInv ps codeSize y (nextJournal x j e) := by
  have hticks : x.1.2.1.ticks ≤ y.1.2.1.ticks := sim_ticks_le hs hi.ld.timer
  refine ⟨fun proc slot hslot => ?_, fun proc => ?_, fun proc hproc => ?_⟩
  · cases runsOf_next x j e proc with
    | inl hj => exact hr.arrived proc slot (hj ▸ hslot)
    | inr hj =>
        obtain ⟨re, c, rfl, hvisit, hj⟩ := hj
        rw [hj] at hslot
        cases List.mem_append.mp hslot with
        | inl hslot => exact hr.arrived proc slot hslot
        | inr hslot =>
            obtain rfl := List.mem_singleton.mp hslot
            have hstep : RoutineStep n codeSize timeSlot x.2 re y.2 := Lts.moves_some.mp hs.2.1
            obtain ⟨_, hheld⟩ := hstep.visit_held hvisit
            exact hl.arrived hi.ld (hi.exclusive.held_live c proc hheld).1
  · have hlen := (runsOf_extends x j e proc).length_le
    have hpc := hr.pc proc
    have hm := hs.2.1
    cases hre : e.routine with
    | none =>
        rw [hre, Lts.moves_none] at hm
        rw [hm]
        omega
    | some re =>
        rw [hre, Lts.moves_some] at hm
        cases RoutineStep.pc_le hm (hk.routine hre) proc with
        | inl hle => omega
        | inr hrun =>
            obtain ⟨⟨c, hvisit⟩, hle⟩ := hrun
            rw [runsOf_visit hre hvisit, List.length_append, List.length_singleton]
            omega
  · have hold : proc ∈ x.2.cpus.finished ∨ ∃ c, x.2.loc c = .top ∧
        x.2.cpus.held c = some proc ∧ x.2.pc proc = codeSize proc := by
      have hm := hs.2.1
      cases hre : e.routine with
      | none =>
          rw [hre, Lts.moves_none] at hm
          rw [hm] at hproc
          exact .inl hproc
      | some re =>
          rw [hre, Lts.moves_some] at hm
          exact RoutineStep.finished_cases hm (hk.routine hre) hproc
    cases hold with
    | inl hfin =>
        obtain ⟨hlen, hlt⟩ := hr.finished proc hfin
        rw [runsOf_eq hs fun c hc => absurd hfin (hi.exclusive.held_live c proc hc).2]
        exact ⟨hlen, fun slot hslot => (hlt slot hslot).trans_le hticks⟩
    | inr hend =>
        obtain ⟨c, htop, hheld, hpc⟩ := hend
        rw [runsOf_eq hs fun c' hc' => by rw [hi.exclusive.inj hc' hheld, htop]; simp]
        refine ⟨hpc ▸ hr.pc proc, fun slot hslot => Nat.lt_of_lt_of_le ?_ hticks⟩
        exact hi.runs_lt hheld (by simp [htop]) (by simp [htop]) slot hslot

theorem LoadInv.of_run {es : List SimEvent}
    (hr : (visitLts n ps codeSize timeSlot).Run (.start ps, .start) es (x, j)) :
    SimInv n ps x j ∧ LoadInv ps x := by
  have hinit : SimInv n ps (.start ps) .start ∧ LoadInv ps (.start ps) :=
    ⟨SimInv.start, LoadInv.start⟩
  refine hr.invariant (I := fun x => SimInv n ps x.1 x.2 ∧ LoadInv ps x.1) ?_ hinit
  rintro ⟨x, j⟩ e ⟨y, j'⟩ ⟨hi, hl⟩ ⟨hs, rfl⟩
  exact ⟨hi.step hs, hl.step hi.ld.timer hs⟩

theorem RunInv.of_run {es : List SimEvent}
    (hr : ((visitLts n ps codeSize timeSlot).restrict fun _ e => e.NoKill).Run
      (.start ps, .start) es (x, j)) : RunInv ps codeSize x j := by
  have hinit : SimInv n ps (.start ps) .start ∧ LoadInv ps (.start ps) ∧
      RunInv ps codeSize (.start ps) .start := by
    refine ⟨SimInv.start, LoadInv.start, ?_, ?_, ?_⟩
    · simp [Journal.start, Journal.runsOf]
    · simp [SimState.start, Machine.start]
    · simp [SimState.start, Machine.start, Cpus.start]
  refine (hr.invariant (I := fun x => SimInv n ps x.1 x.2 ∧ LoadInv ps x.1 ∧
    RunInv ps codeSize x.1 x.2) ?_ hinit).2.2
  rintro ⟨x, j⟩ e ⟨y, j'⟩ ⟨hi, hl, hr⟩ ⟨⟨hs, rfl⟩, hk⟩
  exact ⟨hi.step hs, hl.step hi.ld.timer hs, hr.step hi hl hs hk⟩

/-! ### Completion times -/

/-- No process is ahead of its arrival and its instructions, and no more instructions are executed
than the CPUs have slots. -/
structure OnSchedule (n : ℕ) (ps : List LdProcess) (codeSize : Pcb → ℕ) (x : SimState) : Prop where
  finished : ∀ i line, ps[i]? = some line → pcbOf i line ∈ x.2.cpus.finished →
    arrival (startTime ps) i + codeSize (pcbOf i line) ≤ x.1.2.1.ticks
  pc : ∀ i line, ps[i]? = some line →
    x.2.pc (pcbOf i line) ≤ x.1.2.1.ticks + 1 - arrival (startTime ps) i
  total : (x.2.cpus.added.map x.2.pc).sum ≤ n * (x.1.2.1.ticks + 1)

omit [SchedHeader] in
theorem pcbOf_inj {i i' : ℕ} {line line' : LdProcess} (h : pcbOf i line = pcbOf i' line') :
    i = i' := by
  have hpid := congrArg Pcb.pid h
  simpa [pcbOf] using hpid

omit [SchedHeader] in
theorem nodup_pcbs (ps : List LdProcess) : (pcbs ps).Nodup := by
  rw [List.nodup_iff_getElem?_ne_getElem?]
  intro i k hlt hk he
  have hlen : k < ps.length := by simpa [pcbs] using hk
  rw [pcbs_get (List.getElem?_eq_getElem hlen),
    pcbs_get (List.getElem?_eq_getElem (hlt.trans hlen))] at he
  exact Nat.ne_of_lt hlt (pcbOf_inj (Option.some.inj he))

theorem LoadInv.arrival_le (hl : LoadInv ps x)
    (hld : LdInv (n + 1) 0 ps x.1.1 x.1.2.1 x.1.2.2) {i : ℕ} {line : LdProcess}
    (hproc : pcbOf i line ∈ x.2.cpus.added) : arrival (startTime ps) i ≤ x.1.2.1.ticks := by
  obtain ⟨i', line', _, he, hle⟩ := hl.arrived hld hproc
  rwa [pcbOf_inj he]

theorem RunInv.le_slot (hr : RunInv ps codeSize x j) {i : ℕ} {line : LdProcess} :
    ∀ slot ∈ j.runsOf (pcbOf i line), arrival (startTime ps) i ≤ slot := by
  intro slot hslot
  obtain ⟨i', line', _, he, hle⟩ := hr.arrived _ slot hslot
  rwa [pcbOf_inj he]

/-- Each visit is one of the CPUs', which make one a slot. -/
theorem SimInv.visits_le (hi : SimInv n ps x j) :
    j.visits.length ≤ n * (x.1.2.1.ticks + 1) := by
  have hall : j.visits.countP (fun v => decide (v.cpu ∈ List.range n)) = j.visits.length := by
    rw [List.countP_eq_length]
    intro v hv
    simpa using (hi.visited v hv).1
  have hone : ∀ cpu ∈ List.range n,
      (j.visits.countP fun v => decide (v.cpu = cpu)) ≤ x.1.2.1.ticks + 1 := by
    intro cpu hcpu
    obtain ⟨k, _, hslots⟩ := (hi.cpus cpu (List.mem_range.mp hcpu)).onTime
    have hlen := congrArg List.length hslots
    rw [Journal.slotsOf, List.length_map, ← List.countP_eq_length_filter, List.length_range] at hlen
    rw [hlen]
    exact hi.slots_le hslots
  calc j.visits.length
      = ((List.range n).map fun cpu => j.visits.countP fun v => decide (v.cpu = cpu)).sum := by
        rw [sum_countP List.nodup_range, hall]
    _ ≤ ((List.range n).map fun _ => x.1.2.1.ticks + 1).sum := by
        apply List.sum_le_sum
        exact hone
    _ = n * (x.1.2.1.ticks + 1) := by simp

/-- The processes that were added have executed no more instructions than there were visits. -/
theorem RunInv.sum_pc_le (hr : RunInv ps codeSize x j) (hl : LoadInv ps x) :
    (x.2.cpus.added.map x.2.pc).sum ≤ j.visits.length := by
  have hnodup : (x.2.cpus.added.map some).Nodup := by
    rw [hl.added]
    apply List.Nodup.map (Option.some_injective _)
    exact List.nodup_reverse.mpr ((nodup_pcbs ps).sublist (List.take_sublist _ _))
  calc (x.2.cpus.added.map x.2.pc).sum
      ≤ (x.2.cpus.added.map fun proc => (j.runsOf proc).length).sum := by
        apply List.sum_le_sum
        exact fun proc _ => hr.pc proc
    _ = ((x.2.cpus.added.map some).map fun r =>
          j.visits.countP fun v => decide (v.proc = r)).sum := by
        simp [Journal.runsOf, List.countP_eq_length_filter, Function.comp_def]
    _ ≤ j.visits.length := by
        rw [sum_countP hnodup]
        exact List.countP_le_length

/-- **Completion times**, for programs without `killall`, any number of CPUs and every
interleaving. -/
theorem completion_times {es : List SimEvent}
    (hr : ((visitLts n ps codeSize timeSlot).restrict fun _ e => e.NoKill).Run
      (.start ps, .start) es (x, j)) : OnSchedule n ps codeSize x := by
  obtain ⟨hi, hl⟩ := LoadInv.of_run hr.of_restrict
  have hruns := RunInv.of_run hr
  refine ⟨fun i line _ hfin => ?_, fun i line _ => ?_, ?_⟩
  · obtain ⟨hcode, hlt⟩ := hruns.finished _ hfin
    have hlen := length_le_of_pairwise (hi.runs _) hruns.le_slot hlt
    have hle := hl.arrival_le hi.ld (hi.exclusive.finished_added _ hfin)
    omega
  · have hle : ∀ slot ∈ j.runsOf (pcbOf i line), slot < x.1.2.1.ticks + 1 := by
      intro slot hslot
      obtain ⟨v, hv, _, rfl⟩ := mem_runsOf.mp hslot
      exact Nat.lt_succ_of_le (hi.visited v hv).2
    exact (hruns.pc _).trans (length_le_of_pairwise (hi.runs _) hruns.le_slot hle)
  · exact (hruns.sum_pc_le hl).trans hi.visits_le

omit [SchedHeader] in
theorem threeRun_noKill (k : ℕ) : ∀ e ∈ threeRun.take k, e.NoKill := by
  have hall : ∀ e ∈ threeRun, e.NoKill := by
    simp [threeRun, addLine, slotEnd, threeLines, SimEvent.NoKill]
  exact fun e he => hall e (List.mem_of_mem_take he)

omit [SchedHeader] in
theorem completion_times_sample : ∃ x j,
    (threeLts.restrict fun _ e => e.NoKill).Run threeStart (threeRun.take 129) (x, j) ∧
      endedPids x = [2, 3, 1] ∧
      @OnSchedule sched22 2 threeLines threeSize x := by
  obtain ⟨x, j, hr, hfin⟩ := threeRun_reach 129 (P := fun z => endedPids z.1 = [2, 3, 1])
    (by decide +kernel)
  have hr := hr.restrict (threeRun_noKill 129)
  exact ⟨x, j, hr, hfin, @completion_times sched22 2 threeLines threeSize 4 x j _ hr⟩

end BtlOs
