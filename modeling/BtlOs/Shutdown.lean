import BtlOs.Completion

/-! # The end of the simulation (`os.c`)

A CPU leaves its loop where its second look finds no process and `done` is set.  Between its
`get_proc` and this look another CPU may have put a process back, and the loader may have added one;
neither is left behind.  The CPU that put a process looks for one itself, and the loader calls
`next_slot` after `add_proc`, which does not return before all CPUs have gone on, so `done` is not
set in the slot of the last `add_proc`. -/

namespace BtlOs

open SchedHeader

variable [SchedHeader]

/-- The CPU will make no further call of `get_proc` if `done` is set. -/
def Leaving (m : Machine) (cpu : ℕ) : Prop :=
  m.loc cpu = .recheck ∧ m.cpus.held cpu = none ∨ m.loc cpu = .stopped

/-- The loader has called `add_proc` in this slot. -/
def JustAdded (s : Loading) (h : Slots) : Prop :=
  (s.loc = .added ∨ s.loc = .resting) ∧ h.completed 0 = h.ticks

/-- The ready queues are empty where no CPU will look into them, but for what was added in this
slot. -/
structure ShutInv (n : ℕ) (x : SimState) : Prop where
  empty : (∀ cpu < n, Leaving x.2 cpu) →
    (∀ i < maxPrio, x.2.ready i = []) ∨ JustAdded x.1.1 x.1.2.1
  stopped : ∀ cpu < n, x.2.loc cpu = .stopped → x.2.done = true ∧ x.2.cpus.held cpu = none
  other : ∀ cpu, n ≤ cpu → x.2.cpus.held cpu = none

variable {n cpu : ℕ} {ps : List LdProcess} {codeSize : Pcb → ℕ} {timeSlot : ℤ} {x y : SimState}
  {j : Journal} {e : SimEvent} {m m' : Machine} {s s' : Loading} {h h' : Slots}
  {a a' : List Admission}

/-! ### The CPUs -/

/-- A CPU that looks no further has just found all queues empty, or looked no further before. -/
theorem RoutineStep.leaving {re : RoutineEvent} (hs : RoutineStep n codeSize timeSlot m re m')
    (hre : re.actor = some cpu) (hleave : Leaving m' cpu) :
    (∀ i < maxPrio, m'.ready i = []) ∨ Leaving m cpu ∧ m'.ready = m.ready := by
  cases hs with
  | load _ _ _ => cases hre
  | loaded _ => cases hre
  | @get c _ _ _ =>
      obtain rfl := Option.some.inj hre
      cases hget : m.cpus.sched.getProc.1 with
      | none => simp [Leaving, Machine.goto, hget] at hleave
      | some proc => simp [Leaving, Machine.goto, Machine.fetch, hget] at hleave
  | finish _ _ _ _ =>
      obtain rfl := Option.some.inj hre
      simp [Leaving, Machine.goto] at hleave
  | put _ _ _ _ _ =>
      obtain rfl := Option.some.inj hre
      simp [Leaving, Machine.goto] at hleave
  | keep _ _ hheld _ _ =>
      obtain rfl := Option.some.inj hre
      simp [Leaving, Machine.goto, hheld] at hleave
  | @reload c _ _ _ =>
      obtain rfl := Option.some.inj hre
      have hget : m.cpus.sched.getProc.1 = none := by
        simpa [Leaving, Machine.goto, Machine.fetch] using hleave
      have hempty := Sched.getProc_eq_none.mp hget
      refine .inl fun i hi => ?_
      show m.cpus.sched.getProc.2.ready i = []
      rw [Sched.getProc_of_empty hempty]
      exact hempty i hi
  | stop _ hloc hnone _ =>
      obtain rfl := Option.some.inj hre
      exact .inr ⟨.inl ⟨hloc, hnone⟩, rfl⟩
  | wait _ _ _ _ =>
      obtain rfl := Option.some.inj hre
      simp [Leaving, Machine.goto] at hleave
  | run _ _ _ =>
      obtain rfl := Option.some.inj hre
      simp [Leaving, Machine.goto] at hleave
  | killall _ _ _ _ =>
      obtain rfl := Option.some.inj hre
      simp [Leaving, Machine.goto] at hleave
  | ret _ _ =>
      obtain rfl := Option.some.inj hre
      simp [Leaving, Machine.goto] at hleave

/-- A CPU stops without a process, after `done` was set. -/
theorem RoutineStep.stopped {re : RoutineEvent} (hs : RoutineStep n codeSize timeSlot m re m')
    (hre : re.actor = some cpu) (hstop : m'.loc cpu = .stopped) :
    m'.done = true ∧ m'.cpus.held cpu = none := by
  cases hs with
  | load _ _ _ => cases hre
  | loaded _ => cases hre
  | @get c _ _ _ =>
      obtain rfl := Option.some.inj hre
      cases hget : m.cpus.sched.getProc.1 with
      | none => simp [Machine.goto, hget] at hstop
      | some proc => simp [Machine.goto, hget] at hstop
  | stop _ _ hnone hdone =>
      obtain rfl := Option.some.inj hre
      exact ⟨hdone, hnone⟩
  | _ =>
      obtain rfl := Option.some.inj hre
      simp [Machine.goto] at hstop

theorem RoutineStep.done_mono {re : RoutineEvent} (hs : RoutineStep n codeSize timeSlot m re m')
    (hdone : m.done = true) : m'.done = true := by
  cases hs with
  | loaded _ => rfl
  | _ => exact hdone

theorem RoutineStep.actor_lt {re : RoutineEvent} (hs : RoutineStep n codeSize timeSlot m re m')
    (hre : re.actor = some cpu) : cpu < n := by
  cases hs with
  | load _ _ _ => cases hre
  | loaded _ => cases hre
  | _ =>
      obtain rfl := Option.some.inj hre
      assumption

/-! ### The loader -/

omit [SchedHeader] in
/-- The loader does not leave the `next_slot` after its `add_proc` in the same slot. -/
theorem JustAdded.loader {le : LdEvent} (hj : JustAdded s h) (hi : TimerInv (n + 1) s.timer h)
    (hown : le.Own) (hs : LdStep (n + 1) 0 ps s le s') :
    JustAdded s' (nextAdmissions s (h, a) le).1 := by
  obtain ⟨hloc, hslot⟩ := hj
  have hne : s.loc ≠ .top ∧ s.loc ≠ .test ∧ s.loc ≠ .last ∧ s.loc ≠ .due := by
    cases hloc with
    | inl hl => simp [hl]
    | inr hl => simp [hl]
  cases hs with
  | other _ hdev => exact absurd hown hdev
  | load htop _ => exact absurd htop hne.1
  | early htest _ _ => exact absurd htest hne.2.1
  | due htest _ _ => exact absurd htest hne.2.1
  | add hdue _ => exact absurd hdue hne.2.2.2
  | @enter loc t henter hstep =>
      cases hloc with
      | inl hl =>
          rw [hl] at henter
          obtain rfl := Option.some.inj henter
          cases hstep with
          | setDone _ _ => exact ⟨.inr rfl, hslot⟩
      | inr hl => simp [hl, LdLoc.enter] at henter
  | @leave loc t hleave hstep =>
      cases hstep with
      | ret hd hin hdone =>
          have hticks := hi.of_released hd hin hdone
          omega
  | finish htop _ => exact absurd htop hne.1
  | detach hlast _ => exact absurd hlast hne.2.2.1

omit [SchedHeader] in
/-- A step of the timer or of a CPU's device. -/
theorem JustAdded.device {te : TimerEvent} {t : Timer} (hj : JustAdded s h)
    (hs : TimerStep (n + 1) s.timer te t) (hdev : te.device ≠ some 0) (htick : te ≠ .tick) :
    JustAdded { s with timer := t } (nextSlots s.timer h te) := by
  obtain ⟨hloc, hslot⟩ := hj
  obtain ⟨_, hcomp⟩ := hs.frame (h := h) hdev
  refine ⟨hloc, hcomp.trans (hslot.trans ?_)⟩
  cases te with
  | tick => exact absurd rfl htick
  | _ => rfl

/-! ### The step -/

/-- At a tick a CPU that looks no further has stopped. -/
theorem Leaving.stopped_of_tick (hl : Leaving m cpu) (ht : CpuTime n s h m j cpu)
    (hout : s.timer.loc (deviceOf n cpu) ≠ .outside) : m.loc cpu = .stopped := by
  cases hl with
  | inl hl =>
      obtain ⟨k, hon, _⟩ := ht.onTime
      rw [hl.1] at hon
      generalize s.timer.loc (deviceOf n cpu) = loc at hon hout
      cases hon with
      | outside _ => exact absurd rfl hout
  | inr hl => exact hl

/-- In a tick nothing is forgotten: where all CPUs have stopped, the loader has left its loop. -/
theorem ShutInv.not_justAdded (hu : ShutInv n x) (hl : LoadInv ps x) (hn : 0 < n)
    (hstop : ∀ cpu < n, x.2.loc cpu = .stopped) : ¬ JustAdded x.1.1 x.1.2.1 := by
  rintro ⟨hloc, _⟩
  have hdone := (hu.stopped 0 hn (hstop 0 hn)).1
  rw [hl.done] at hdone
  cases hloc with
  | inl h => simp [h, LdLoc.over] at hdone
  | inr h => simp [h, LdLoc.over] at hdone

theorem ShutInv.empty_step (hu : ShutInv n ((s, h, a), m)) (hl : LoadInv ps ((s, h, a), m))
    (hi : SimInv n ps ((s, h, a), m) j) (hn : 0 < n)
    (hs : (simLts n ps codeSize timeSlot).step ((s, h, a), m) e ((s', h', a'), m'))
    (hleave : ∀ cpu < n, Leaving m' cpu) :
    (∀ i < maxPrio, m'.ready i = []) ∨ JustAdded s' h' := by
  obtain ⟨hld, hm, hg⟩ := hs
  cases e with
  | timer te =>
      obtain rfl : m' = m := Lts.moves_none.mp hm
      have hdev : te.device ≠ some 0 := by
        cases te with
        | setDone _ => cases hg
        | ret _ => cases hg
        | detach _ => cases hg
        | _ => simp [TimerEvent.device]
      obtain ⟨t, hstep, rfl, rfl, rfl⟩ := ldLts_device (Lts.moves_some.mp hld) hdev
      by_cases htick : te = .tick
      · subst htick
        refine .inl ((hu.empty hleave).resolve_right (hu.not_justAdded hl hn fun c hc => ?_))
        exact (hleave c hc).stopped_of_tick (hi.cpus c hc)
          (hi.ld.timer.tick_loc hstep (deviceOf_lt n c))
      · exact (hu.empty hleave).imp_right fun hj => hj.device hstep hdev htick
  | loader le =>
      obtain rfl : m' = m := Lts.moves_none.mp hm
      obtain ⟨hstep, hghost⟩ := Lts.moves_some.mp hld
      obtain ⟨rfl, rfl⟩ := Prod.mk.inj hghost
      exact (hu.empty hleave).imp_right fun hj => hj.loader hi.ld.timer hg hstep
  | add line =>
      obtain ⟨hstep, hghost⟩ := Lts.moves_some.mp hld
      obtain ⟨rfl, rfl⟩ := Prod.mk.inj hghost
      have hstep : LdStep (n + 1) 0 ps s (.add line) s' := hstep
      have hloc := hi.ld.loc
      cases hstep with
      | add hdue _ =>
          rw [hdue] at hloc
          exact .inr ⟨.inl rfl, (hi.ld.timer.of_outside (Nat.succ_pos n) hloc).1.symm⟩
  | loaded =>
      obtain ⟨hstep, hghost⟩ := Lts.moves_some.mp hld
      obtain ⟨rfl, rfl⟩ := Prod.mk.inj hghost
      have hstep : LdStep (n + 1) 0 ps s .finish s' := hstep
      have hroutine : RoutineStep n codeSize timeSlot m .loaded m' := Lts.moves_some.mp hm
      cases hstep with
      | finish htop _ =>
          cases hroutine with
          | loaded _ =>
              refine .inl ((hu.empty hleave).resolve_right ?_)
              rintro ⟨hloc, _⟩
              simp [htop] at hloc
  | cpu re =>
      obtain ⟨rfl, rfl, rfl⟩ : s' = s ∧ h' = h ∧ a' = a := by simpa [SimEvent.ld] using hld
      have hm : RoutineStep n codeSize timeSlot m re m' := Lts.moves_some.mp hm
      obtain ⟨c, hc⟩ := RoutineEvent.Own.actor hg
      cases hm.leaving hc (hleave c (hm.actor_lt hc)) with
      | inl hempty => exact .inl hempty
      | inr hsame =>
          obtain ⟨hbefore, hready⟩ := hsame
          rw [hready]
          refine hu.empty fun c' hc' => ?_
          by_cases he : c' = c
          · exact he ▸ hbefore
          · obtain ⟨hloc, hheld⟩ : m'.loc c' = m.loc c' ∧ m'.cpus.held c' = m.cpus.held c' :=
              hm.frame (by simpa [hc] using Ne.symm he)
            have hl' := hleave c' hc'
            unfold Leaving at hl' ⊢
            rwa [hloc, hheld] at hl'
  | enter c =>
      obtain rfl : m' = m := Lts.moves_none.mp hm
      obtain ⟨t, hstep, rfl, rfl, rfl⟩ := ldLts_device (Lts.moves_some.mp hld) (deviceOf_ne hg.1)
      exact (hu.empty hleave).imp_right fun hj => hj.device hstep (deviceOf_ne hg.1) (by simp)
  | ret c =>
      have hm : RoutineStep n codeSize timeSlot m (.ret c) m' := Lts.moves_some.mp hm
      cases hm with
      | ret hc _ =>
          have hl' := hleave c hc
          simp [Leaving, Machine.goto] at hl'
  | detach c =>
      obtain rfl : m' = m := Lts.moves_none.mp hm
      obtain ⟨t, hstep, rfl, rfl, rfl⟩ := ldLts_device (Lts.moves_some.mp hld) (deviceOf_ne hg.1)
      exact (hu.empty hleave).imp_right fun hj => hj.device hstep (deviceOf_ne hg.1) (by simp)

theorem ShutInv.step (hu : ShutInv n x) (hl : LoadInv ps x) (hi : SimInv n ps x j) (hn : 0 < n)
    (hs : (simLts n ps codeSize timeSlot).step x e y) : ShutInv n y := by
  have hactor : ∀ {re : RoutineEvent} {c : ℕ}, e.routine = some re → e.actor = some c →
      re.actor = some c := by
    intro re c hre hc
    cases e with
    | cpu _ =>
        obtain rfl := Option.some.inj hre
        exact hc
    | ret _ =>
        obtain rfl := Option.some.inj hre
        exact hc
    | add _ => cases hc
    | loaded => cases hc
    | _ => cases hre
  refine ⟨fun hleave => ?_, fun c hc hstop => ?_, fun c hc => ?_⟩
  · obtain ⟨⟨s, h, a⟩, m⟩ := x
    obtain ⟨⟨s', h', a'⟩, m'⟩ := y
    exact hu.empty_step hl hi hn hs hleave
  · have hm := hs.2.1
    cases hre : e.routine with
    | none =>
        rw [hre, Lts.moves_none] at hm
        rw [hm] at hstop ⊢
        exact hu.stopped c hc hstop
    | some re =>
        rw [hre, Lts.moves_some] at hm
        by_cases he : e.actor = some c
        · exact RoutineStep.stopped hm (hactor hre he) hstop
        · obtain ⟨hloc, hheld⟩ := sim_loop hs he
          obtain ⟨hdone, hnone⟩ := hu.stopped c hc (hloc ▸ hstop)
          exact ⟨RoutineStep.done_mono hm hdone, hheld.trans hnone⟩
  · by_cases he : e.actor = some c
    · have hm := hs.2.1
      cases hre : e.routine with
      | none =>
          rw [hre, Lts.moves_none] at hm
          rw [hm]
          exact hu.other c hc
      | some re =>
          rw [hre, Lts.moves_some] at hm
          have hlt := RoutineStep.actor_lt hm (hactor hre he)
          omega
    · exact (sim_loop hs he).2.trans (hu.other c hc)

theorem ShutInv.of_run {es : List SimEvent} (hn : 0 < n)
    (hr : (visitLts n ps codeSize timeSlot).Run (.start ps, .start) es (x, j)) :
    ShutInv n x := by
  have hinit : ShutInv n (.start ps) := by
    refine ⟨fun hleave => ?_, fun cpu _ hstop => ?_, fun _ _ => rfl⟩
    · have hl := hleave 0 hn
      simp [Leaving, SimState.start, Machine.start] at hl
    · simp [SimState.start, Machine.start] at hstop
  refine (hr.invariant (I := fun x => SimInv n ps x.1 x.2 ∧ LoadInv ps x.1 ∧ ShutInv n x.1) ?_
    ⟨SimInv.start, LoadInv.start, hinit⟩).2.2
  rintro ⟨x, j⟩ e ⟨y, j'⟩ ⟨hi, hl, hu⟩ ⟨hs, rfl⟩
  exact ⟨hi.step hs, hl.step hi.ld.timer hs, hu.step hl hi hn hs⟩

/-! ### Nothing is left behind -/

theorem prio_lt_of_run {es : List CpuEvent} {s : Cpus} (hr : cpuLts.Run .start es s) :
    ∀ proc ∈ s.added, proc.prio < maxPrio := by
  refine hr.invariant (I := fun s => ∀ proc ∈ s.added, proc.prio < maxPrio) ?_
    (by simp [Cpus.start])
  intro s e s' hi hs
  cases hs with
  | add hprio _ =>
      intro q hq
      cases List.mem_cons.mp hq with
      | inl he => exact he ▸ hprio
      | inr hq => exact hi q hq
  | _ => exact hi

end BtlOs
