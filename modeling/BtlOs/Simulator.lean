import BtlOs.LdRoutine
import BtlOs.Routine
import BtlOs.Lib.Product

/-! # The simulator (`os.c`)

`main` attaches the CPUs and the loader to the timer, starts a thread for each, joins them and stops
the timer.  The model is the product of the loader on the timer and of the loops of the CPUs: the
call of `add_proc` and the end of the loader are steps of both, and a CPU is a device of the timer,
which is in `next_slot` where its loop says so.

So each run is a run of the loader on the timer and a run of the loops.  What a step does to the
clock, and that the other threads move neither the device nor the loop of a CPU, is said here once. -/

namespace BtlOs

/-! ### The devices -/

/-- The place in `dev_list` of the device of a CPU, the call `cpu` of `attach_event`.  The call for
the loader is the last one, and each call enters its device at the head. -/
def deviceOf (n cpu : ℕ) : ℕ := n - cpu

theorem deviceOf_lt (n cpu : ℕ) : deviceOf n cpu < n + 1 := by
  unfold deviceOf
  omega

theorem deviceOf_pos {n cpu : ℕ} (h : cpu < n) : 0 < deviceOf n cpu := by
  unfold deviceOf
  omega

theorem deviceOf_ne {n cpu : ℕ} (h : cpu < n) : some (deviceOf n cpu) ≠ some 0 := by
  have hpos := deviceOf_pos h
  simp only [ne_eq, Option.some.injEq]
  omega

theorem deviceOf_inj {n cpu cpu' : ℕ} (h : cpu < n) (h' : cpu' < n)
    (he : deviceOf n cpu = deviceOf n cpu') : cpu = cpu' := by
  unfold deviceOf at he
  omega

/-! ### Steps of the timer -/

theorem LdStep.timer_step {n d : ℕ} {ps : List LdProcess} {s s' : Loading} {te : TimerEvent}
    (hs : LdStep n d ps s (.timer te) s') : TimerStep n s.timer te s'.timer := by
  cases hs with
  | other hstep _ => exact hstep
  | enter _ hstep => exact hstep
  | leave _ hstep => exact hstep
  | detach _ hstep => exact hstep

theorem LdStep.timer_eq {n d : ℕ} {ps : List LdProcess} {s s' : Loading} {e : LdEvent}
    (hs : LdStep n d ps s e s') (he : ∀ te, e ≠ .timer te) : s'.timer = s.timer := by
  cases hs with
  | load _ _ => rfl
  | early _ _ _ => rfl
  | due _ _ _ => rfl
  | add _ _ => rfl
  | finish _ _ => rfl
  | other _ _ => exact absurd rfl (he _)
  | enter _ _ => exact absurd rfl (he _)
  | leave _ _ => exact absurd rfl (he _)
  | detach _ _ => exact absurd rfl (he _)

theorem TimerInv.of_released {n d : ℕ} {s : Timer} {h : Slots} (hi : TimerInv n s h) (hd : d < n)
    (hloc : s.loc d = .inside) (hdone : (s.dev d).done = false) :
    h.ticks = h.completed d + 1 := by
  cases hi.view_cases hd with
  | inl hset => exact (hset.of_inside hloc hdone).2
  | inr hdue =>
      have hcontra : (s.dev d).done = true := hdue.done_of_inside hloc
      rw [hdone] at hcontra
      cases hcontra

/-- The timer increments the time where each device has entered `next_slot` or has detached. -/
theorem TimerInv.tick_loc {n d : ℕ} {s s' : Timer} {h : Slots} (hi : TimerInv n s h)
    (hs : TimerStep n s .tick s') (hd : d < n) : s.loc d ≠ .outside := by
  cases hs with
  | tick hphase =>
      have hok := hi.phase
      rw [hphase] at hok
      obtain ⟨_, _, _, _, hpass, hset⟩ := hok
      intro hloc
      obtain ⟨hid, _⟩ := (hset d hd).of_outside hloc
      have hid : s.dev d = ⟨false, false⟩ := hid
      have hflags := hpass d hd
      simp [hid] at hflags

theorem TimerInv.tick_completed {n d : ℕ} {s s' : Timer} {h : Slots} (hi : TimerInv n s h)
    (hs : TimerStep n s .tick s') (hd : d < n) (hloc : s.loc d = .inside) :
    h.completed d = h.ticks := by
  cases hs with
  | tick hphase =>
      have hok := hi.phase
      rw [hphase] at hok
      obtain ⟨_, _, _, _, hpass, hset⟩ := hok
      have hcases := (hset d hd).of_flags (hpass d hd)
      have hcompleted : (view s h d).completed = h.completed d := rfl
      have hticks : (view s h d).ticks = h.ticks := rfl
      have hinside : (view s h d).loc = .inside := hloc
      cases hcases with
      | inl hv =>
          rw [← hcompleted, hv]
          exact hticks
      | inr hv =>
          rw [hv] at hinside
          cases hinside

/-! ### The model -/

open SchedHeader

variable [SchedHeader]

/-- What `load` makes of line `i` of the configuration; `avail_pid` starts at 1. -/
def pcbOf (i : ℕ) (proc : LdProcess) : Pcb := ⟨i + 1, proc.prio, storedPath proc.path⟩

/-- The processes that the loader has to load. -/
def pcbs (ps : List LdProcess) : List Pcb := ps.mapIdx pcbOf

/-- The loader, the timer and the calls of `add_proc` so far, and the CPUs. -/
abbrev SimState := (Loading × Slots × List Admission) × Machine

/-- The steps of the timer and of `main`, of the loader alone, of both the loader and the scheduler,
of a CPU between two calls of `next_slot`, and of a CPU that enters it, leaves it or has ended. -/
inductive SimEvent where
  | timer (e : TimerEvent)
  | loader (e : LdEvent)
  | add (proc : LdProcess)
  | loaded
  | cpu (e : RoutineEvent)
  | enter (cpu : ℕ)
  | ret (cpu : ℕ)
  | detach (cpu : ℕ)

namespace SimEvent

/-- What the loader and the timer see of an event. -/
def ld (n : ℕ) : SimEvent → Option LdEvent
  | timer e => some (.timer e)
  | loader e => some e
  | add proc => some (.add proc)
  | loaded => some .finish
  | cpu _ => none
  | enter c => some (.timer (.setDone (deviceOf n c)))
  | ret c => some (.timer (.ret (deviceOf n c)))
  | detach c => some (.timer (.detach (deviceOf n c)))

/-- What the loops of the CPUs see of it. -/
def routine : SimEvent → Option RoutineEvent
  | timer _ => none
  | loader _ => none
  | add _ => some .load
  | loaded => some .loaded
  | cpu e => some e
  | enter _ => none
  | ret c => some (.ret c)
  | detach _ => none

/-- The CPU that makes a step. -/
def actor : SimEvent → Option ℕ
  | cpu e => e.actor
  | enter c => some c
  | ret c => some c
  | detach c => some c
  | _ => none

end SimEvent

/-- A step of a CPU between two calls of `next_slot`. -/
def RoutineEvent.Own : RoutineEvent → Prop
  | .load => False
  | .loaded => False
  | .ret _ => False
  | _ => True

omit [SchedHeader] in
theorem RoutineEvent.Own.actor {e : RoutineEvent} (h : e.Own) : ∃ cpu, e.actor = some cpu := by
  cases e with
  | load => cases h
  | loaded => cases h
  | _ => exact ⟨_, rfl⟩

/-- A step that the loader makes alone. -/
def LdEvent.Own : LdEvent → Prop
  | .timer e => e.device = some 0
  | .load => True
  | .test => True
  | .add _ => False
  | .finish => False

/-- All threads have ended, and `main` has joined them. -/
def Joined (n : ℕ) (s : Loading) : Prop := ∀ d < n + 1, s.timer.loc d = .detached

/-- Whose step an event is, and where a CPU must be for it. -/
def SimGuard (n : ℕ) (x : SimState) : SimEvent → Prop
  | .timer .stop => x.1.1.timer.timerStop = false ∧ Joined n x.1.1
  | .timer e => e.device = none
  | .loader e => e.Own
  | .cpu e => e.Own
  | .enter c => c < n ∧ x.2.loc c = .slot
  | .detach c => c < n ∧ x.2.loc c = .stopped
  | _ => True

def simLts (n : ℕ) (ps : List LdProcess) (codeSize : Pcb → ℕ) (timeSlot : ℤ) :
    Lts SimState SimEvent :=
  (ldLts (n + 1) 0 ps).product (routineLts n codeSize timeSlot) (SimEvent.ld n) SimEvent.routine
    (SimGuard n)

/-- When the threads start. -/
def SimState.start (ps : List LdProcess) : SimState :=
  ((Loading.start, Slots.start, []), .start (pcbs ps))

/-! ### The clock in a step -/

variable {n cpu : ℕ} {ps : List LdProcess} {codeSize : Pcb → ℕ} {timeSlot : ℤ} {x y : SimState}

theorem RoutineStep.exclusive {m m' : Machine} {e : RoutineEvent}
    (hs : RoutineStep n codeSize timeSlot m e m') (h : Exclusive m.cpus) : Exclusive m'.cpus := by
  obtain ⟨es, hrun⟩ := hs.cpus_run
  exact hrun.invariant (fun _ _ _ => Exclusive.step) h

/-- The step of the timer or of a device that an event is. -/
def SimEvent.timerEvent (n : ℕ) (e : SimEvent) : Option TimerEvent :=
  match e.ld n with
  | some (.timer te) => some te
  | _ => none

variable {e : SimEvent}

/-- An event moves the clock by a step of the timer or of a device, or not at all. -/
theorem sim_timer (hs : (simLts n ps codeSize timeSlot).step x e y) :
    e.timerEvent n = none ∧ y.1.1.timer = x.1.1.timer ∧ y.1.2.1 = x.1.2.1 ∨
      ∃ te, e.timerEvent n = some te ∧ TimerStep (n + 1) x.1.1.timer te y.1.1.timer ∧
        y.1.2.1 = nextSlots x.1.1.timer x.1.2.1 te := by
  obtain ⟨hld, _, _⟩ := hs
  unfold SimEvent.timerEvent
  cases he : e.ld n with
  | none =>
      rw [he, Lts.moves_none] at hld
      exact .inl ⟨rfl, by rw [hld], by rw [hld]⟩
  | some le =>
      rw [he, Lts.moves_some] at hld
      obtain ⟨hstep, hghost⟩ := hld
      have hslots := congrArg Prod.fst hghost
      cases le with
      | timer te => exact .inr ⟨te, rfl, hstep.timer_step, hslots⟩
      | _ => exact .inl ⟨rfl, hstep.timer_eq (by simp), hslots⟩

theorem SimGuard.device_ne {te : TimerEvent} (hg : SimGuard n x e) (hlt : ∀ c, e = .ret c → c < n)
    (hte : e.timerEvent n = some te) (hcpu : cpu < n) (hne : e.actor ≠ some cpu) :
    te.device ≠ some (deviceOf n cpu) := by
  have hpos := deviceOf_pos hcpu
  have hother : ∀ c, c < n → some c ≠ some cpu → some (deviceOf n c) ≠ some (deviceOf n cpu) := by
    intro c hc hne heq
    exact hne (congrArg some (deviceOf_inj hc hcpu (Option.some.inj heq)))
  cases e with
  | timer e =>
      obtain rfl : e = te := Option.some.inj hte
      cases e with
      | stop => simp [TimerEvent.device]
      | setDone d => cases hg
      | ret d => cases hg
      | detach d => cases hg
      | _ => simp [TimerEvent.device]
  | loader e =>
      cases e with
      | timer e =>
          obtain rfl : e = te := Option.some.inj hte
          rw [show e.device = some 0 from hg]
          intro heq
          have := Option.some.inj heq
          omega
      | _ => cases hte
  | add _ => cases hte
  | loaded => cases hte
  | cpu _ => cases hte
  | enter c =>
      obtain rfl := Option.some.inj hte
      exact hother c hg.1 hne
  | ret c =>
      obtain rfl := Option.some.inj hte
      exact hother c (hlt c rfl) hne
  | detach c =>
      obtain rfl := Option.some.inj hte
      exact hother c hg.1 hne

theorem sim_ret_lt (hs : (simLts n ps codeSize timeSlot).step x e y) :
    ∀ c, e = .ret c → c < n := by
  rintro c rfl
  obtain ⟨⟨s', h', a'⟩, m'⟩ := y
  have hstep : RoutineStep n codeSize timeSlot x.2 (.ret c) m' := Lts.moves_some.mp hs.2.1
  cases hstep with
  | ret hlt _ => exact hlt

theorem sim_device (hs : (simLts n ps codeSize timeSlot).step x e y) (hcpu : cpu < n)
    (hne : e.actor ≠ some cpu) :
    y.1.1.timer.loc (deviceOf n cpu) = x.1.1.timer.loc (deviceOf n cpu) ∧
      y.1.2.1.completed (deviceOf n cpu) = x.1.2.1.completed (deviceOf n cpu) := by
  cases sim_timer hs with
  | inl h => exact ⟨by rw [h.2.1], by rw [h.2.2]⟩
  | inr h =>
      obtain ⟨te, hte, hstep, hslots⟩ := h
      rw [hslots]
      exact hstep.frame (hs.2.2.device_ne (sim_ret_lt hs) hte hcpu hne)

/-- The number of the slot changes in a tick only. -/
theorem sim_ticks (hs : (simLts n ps codeSize timeSlot).step x e y)
    (hi : TimerInv (n + 1) x.1.1.timer x.1.2.1) :
    y.1.2.1.ticks = x.1.2.1.ticks ∨ e = .timer .tick ∧ y.1.2.1.ticks = x.1.2.1.ticks + 1 ∧
      ∀ d < n + 1, x.1.1.timer.loc d ≠ .outside := by
  cases sim_timer hs with
  | inl h => exact .inl (by rw [h.2.2])
  | inr h =>
      obtain ⟨te, hte, hstep, hslots⟩ := h
      rw [hslots]
      cases te with
      | tick =>
          refine .inr ⟨?_, rfl, fun d hd => hi.tick_loc hstep hd⟩
          have hg := hs.2.2
          cases e with
          | timer e => exact congrArg SimEvent.timer (Option.some.inj hte)
          | loader e =>
              cases e with
              | timer e =>
                  obtain rfl : e = .tick := Option.some.inj hte
                  cases hg
              | _ => cases hte
          | _ => cases hte
      | _ => exact .inl rfl

/-! ### The steps and a CPU -/

theorem sim_ticks_le (hs : (simLts n ps codeSize timeSlot).step x e y)
    (hi : TimerInv (n + 1) x.1.1.timer x.1.2.1) : x.1.2.1.ticks ≤ y.1.2.1.ticks := by
  cases sim_ticks hs hi with
  | inl heq => exact Nat.le_of_eq heq.symm
  | inr htick =>
      rw [htick.2.1]
      exact Nat.le_succ _

/-- The loop of a CPU is moved by its own steps only. -/
theorem sim_loop (hs : (simLts n ps codeSize timeSlot).step x e y) (hne : e.actor ≠ some cpu) :
    y.2.loc cpu = x.2.loc cpu ∧ y.2.cpus.held cpu = x.2.cpus.held cpu := by
  have hm := hs.2.1
  cases he : e.routine with
  | none =>
      rw [he, Lts.moves_none] at hm
      rw [hm]
      exact ⟨rfl, rfl⟩
  | some re =>
      rw [he, Lts.moves_some] at hm
      refine RoutineStep.frame hm fun hre => ?_
      cases e with
      | add _ =>
          obtain rfl := Option.some.inj he
          cases hre
      | loaded =>
          obtain rfl := Option.some.inj he
          cases hre
      | cpu _ =>
          obtain rfl := Option.some.inj he
          exact hne hre
      | ret _ =>
          obtain rfl := Option.some.inj he
          exact hne hre
      | _ => cases he

variable {s s' : Loading} {h h' : Slots} {a a' : List Admission} {m m' : Machine}

omit [SchedHeader] in
theorem ldLts_device {n d : ℕ} {te : TimerEvent}
    (hs : (ldLts n d ps).step (s, h, a) (.timer te) (s', h', a')) (hne : te.device ≠ some d) :
    ∃ t, TimerStep n s.timer te t ∧ s' = { s with timer := t } ∧ h' = nextSlots s.timer h te ∧
      a' = a := by
  obtain ⟨hld, hghost⟩ := hs
  obtain ⟨hh, ha⟩ := Prod.mk.inj hghost
  have hstep : LdStep n d ps s (.timer te) s' := hld
  cases hstep with
  | other htimer _ => exact ⟨_, htimer, rfl, hh, ha⟩
  | enter _ _ => exact absurd rfl hne
  | leave _ _ => exact absurd rfl hne
  | detach _ _ => exact absurd rfl hne

/-! ### Computed steps -/

/-- The step of a CPU, or of the loader at the scheduler. -/
def Machine.next (n : ℕ) (codeSize : Pcb → ℕ) (timeSlot : ℤ) (s : Machine) :
    RoutineEvent → Option Machine
  | .load =>
      match s.toLoad with
      | [] => none
      | proc :: rest =>
          if proc.prio < maxPrio ∧ ∀ q ∈ s.cpus.added, q.pid ≠ proc.pid then some { s with
            cpus := { s.cpus.enlist proc with added := proc :: s.cpus.added }
            pc := Function.update s.pc proc 0
            toLoad := rest } else none
  | .loaded => if s.toLoad = [] then some { s with done := true } else none
  | .get cpu =>
      if cpu < n ∧ s.loc cpu = .top ∧ s.cpus.held cpu = none then some ((s.fetch cpu).goto cpu
        (if s.cpus.sched.getProc.1 = none then .slot else .recheck)) else none
  | .finish cpu => (s.cpus.held cpu).bind fun proc =>
      if cpu < n ∧ s.loc cpu = .top ∧ s.pc proc = codeSize proc then some ({ s with
          cpus := s.cpus.complete cpu proc
          timeLeft := Function.update s.timeLeft cpu 0 }.goto cpu .reload) else none
  | .put cpu => (s.cpus.held cpu).bind fun proc =>
      if cpu < n ∧ s.loc cpu = .top ∧ s.pc proc ≠ codeSize proc ∧ s.timeLeft cpu = 0 then
        some ({ s with cpus := { s.cpus.enlist proc with
          held := Function.update s.cpus.held cpu none } }.goto cpu .reload) else none
  | .keep cpu => (s.cpus.held cpu).bind fun proc =>
      if cpu < n ∧ s.loc cpu = .top ∧ s.pc proc ≠ codeSize proc ∧ s.timeLeft cpu ≠ 0 then
        some (s.goto cpu .recheck) else none
  | .reload cpu =>
      if cpu < n ∧ s.loc cpu = .reload ∧ s.cpus.held cpu = none then
        some ((s.fetch cpu).goto cpu .recheck) else none
  | .stop cpu =>
      if cpu < n ∧ s.loc cpu = .recheck ∧ s.cpus.held cpu = none ∧ s.done = true then
        some (s.goto cpu .stopped) else none
  | .wait cpu =>
      if cpu < n ∧ s.loc cpu = .recheck ∧ s.cpus.held cpu = none ∧ s.done = false then
        some (s.goto cpu .slot) else none
  | .run cpu => (s.cpus.held cpu).bind fun proc =>
      if cpu < n ∧ s.loc cpu = .recheck then
        some (((s.advance codeSize proc).useSlot timeSlot cpu).goto cpu .slot) else none
  | .killall cpu procName => (s.cpus.held cpu).bind fun proc =>
      if cpu < n ∧ s.loc cpu = .recheck ∧ s.pc proc < codeSize proc then
        some ((((s.advance codeSize proc).kill codeSize procName).useSlot timeSlot cpu).goto cpu
          .slot) else none
  | .ret cpu => if cpu < n ∧ s.loc cpu = .slot then some (s.goto cpu .top) else none

theorem routineStep_of_next {m m' : Machine} {e : RoutineEvent}
    (h : m.next n codeSize timeSlot e = some m') : RoutineStep n codeSize timeSlot m e m' := by
  cases e with
  | load =>
      unfold Machine.next at h
      cases hl : m.toLoad with
      | nil => simp [hl] at h
      | cons proc rest =>
          simp only [hl, Option.ite_none_right_eq_some, Option.some.injEq] at h
          obtain ⟨⟨hprio, hpid⟩, rfl⟩ := h
          exact .load hl hprio hpid
  | loaded =>
      simp only [Machine.next, Option.ite_none_right_eq_some, Option.some.injEq] at h
      obtain ⟨hl, rfl⟩ := h
      exact .loaded hl
  | get cpu =>
      simp only [Machine.next, Option.ite_none_right_eq_some, Option.some.injEq] at h
      obtain ⟨⟨hlt, hloc, hheld⟩, rfl⟩ := h
      exact .get hlt hloc hheld
  | finish cpu =>
      obtain ⟨proc, hheld, hrest⟩ := Option.bind_eq_some_iff.mp h
      simp only [Option.ite_none_right_eq_some, Option.some.injEq] at hrest
      obtain ⟨⟨hlt, hloc, hpc⟩, rfl⟩ := hrest
      exact .finish hlt hloc hheld hpc
  | put cpu =>
      obtain ⟨proc, hheld, hrest⟩ := Option.bind_eq_some_iff.mp h
      simp only [Option.ite_none_right_eq_some, Option.some.injEq] at hrest
      obtain ⟨⟨hlt, hloc, hpc, hleft⟩, rfl⟩ := hrest
      exact .put hlt hloc hheld hpc hleft
  | keep cpu =>
      obtain ⟨proc, hheld, hrest⟩ := Option.bind_eq_some_iff.mp h
      simp only [Option.ite_none_right_eq_some, Option.some.injEq] at hrest
      obtain ⟨⟨hlt, hloc, hpc, hleft⟩, rfl⟩ := hrest
      exact .keep hlt hloc hheld hpc hleft
  | reload cpu =>
      simp only [Machine.next, Option.ite_none_right_eq_some, Option.some.injEq] at h
      obtain ⟨⟨hlt, hloc, hheld⟩, rfl⟩ := h
      exact .reload hlt hloc hheld
  | stop cpu =>
      simp only [Machine.next, Option.ite_none_right_eq_some, Option.some.injEq] at h
      obtain ⟨⟨hlt, hloc, hheld, hdone⟩, rfl⟩ := h
      exact .stop hlt hloc hheld hdone
  | wait cpu =>
      simp only [Machine.next, Option.ite_none_right_eq_some, Option.some.injEq] at h
      obtain ⟨⟨hlt, hloc, hheld, hdone⟩, rfl⟩ := h
      exact .wait hlt hloc hheld hdone
  | run cpu =>
      obtain ⟨proc, hheld, hrest⟩ := Option.bind_eq_some_iff.mp h
      simp only [Option.ite_none_right_eq_some, Option.some.injEq] at hrest
      obtain ⟨⟨hlt, hloc⟩, rfl⟩ := hrest
      exact .run hlt hloc hheld
  | killall cpu procName =>
      obtain ⟨proc, hheld, hrest⟩ := Option.bind_eq_some_iff.mp h
      simp only [Option.ite_none_right_eq_some, Option.some.injEq] at hrest
      obtain ⟨⟨hlt, hloc, hpc⟩, rfl⟩ := hrest
      exact .killall hlt hloc hheld hpc
  | ret cpu =>
      simp only [Machine.next, Option.ite_none_right_eq_some, Option.some.injEq] at h
      obtain ⟨⟨hlt, hloc⟩, rfl⟩ := h
      exact .ret hlt hloc

instance : DecidablePred LdEvent.Own
  | .timer e => inferInstanceAs (Decidable (e.device = some 0))
  | .load => .isTrue trivial
  | .test => .isTrue trivial
  | .add _ => .isFalse id
  | .finish => .isFalse id

instance : DecidablePred RoutineEvent.Own := fun e =>
  match e with
  | .load | .loaded | .ret _ => .isFalse id
  | .get _ | .finish _ | .put _ | .keep _ | .reload _ | .stop _ | .wait _ | .run _
  | .killall _ _ => .isTrue trivial

instance (n : ℕ) (s : Loading) : Decidable (Joined n s) :=
  inferInstanceAs (Decidable (∀ d < n + 1, s.timer.loc d = .detached))

instance (n : ℕ) (x : SimState) : DecidablePred (SimGuard n x)
  | .timer .stop => inferInstanceAs (Decidable (x.1.1.timer.timerStop = false ∧ Joined n x.1.1))
  | .timer (.setDone _) | .timer (.ret _) | .timer (.detach _) => .isFalse nofun
  | .timer .head | .timer (.pass _) | .timer .tick | .timer (.clear _) | .timer .leave =>
      .isTrue rfl
  | .loader e => inferInstanceAs (Decidable e.Own)
  | .cpu e => inferInstanceAs (Decidable e.Own)
  | .enter c => inferInstanceAs (Decidable (c < n ∧ x.2.loc c = .slot))
  | .detach c => inferInstanceAs (Decidable (c < n ∧ x.2.loc c = .stopped))
  | .add _ | .loaded | .ret _ => .isTrue trivial

/-- The step of the simulator that an event is. -/
def SimState.next (n : ℕ) (ps : List LdProcess) (codeSize : Pcb → ℕ) (timeSlot : ℤ) :
    SimState → SimEvent → Option SimState :=
  Lts.nextProduct (Lts.nextGhost (Loading.next (n + 1) 0 ps) nextAdmissions)
    (Machine.next n codeSize timeSlot) (SimEvent.ld n) SimEvent.routine (SimGuard n)

theorem simStep_of_next (x : SimState) (e : SimEvent) (y : SimState)
    (h : x.next n ps codeSize timeSlot e = some y) :
    (simLts n ps codeSize timeSlot).step x e y :=
  Lts.product_of_next (Lts.withGhost_of_nextGhost fun _ _ _ => ldStep_of_next)
    (fun _ _ _ => routineStep_of_next) x e y h

end BtlOs
