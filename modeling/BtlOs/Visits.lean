import BtlOs.Simulator
import BtlOs.Policy

/-! # Every slot

A ghost component notes how each CPU ends its work in a slot, a `Visit`, and the calls of `get_proc`
that found nothing.  `CpuTime` relates the visits of a CPU to the calls of `next_slot` it has
completed, so to the clock: a CPU at work has made one in each slot that is over, and one in
`next_slot` has made one more.

A process runs on the CPU that holds it until that CPU leaves `next_slot`, so it is not run again in
the same slot. -/

namespace BtlOs

open SchedHeader

variable [SchedHeader]

/-! ### Visits -/

/-- A CPU has done its work in a slot: it has run a process, or found none. -/
structure Visit where
  cpu : ℕ
  slot : ℕ
  proc : Option Pcb

/-- What the CPUs did so far, and in which slots they found all ready queues empty. -/
structure Journal where
  visits : List Visit
  searches : List (ℕ × ℕ)

def Journal.start : Journal := ⟨[], []⟩

/-- The branches of `cpu_routine` that end in `next_slot`. -/
def RoutineEvent.visit (m : Machine) : RoutineEvent → Option (ℕ × Option Pcb)
  | .get c => if m.cpus.sched.getProc.1 = none then some (c, none) else none
  | .wait c => some (c, none)
  | .run c => some (c, m.cpus.held c)
  | .killall c _ => some (c, m.cpus.held c)
  | _ => none

/-- A call of `get_proc` while all ready queues are empty. -/
def RoutineEvent.search (m : Machine) : RoutineEvent → Option ℕ
  | .get c => if ∀ i < maxPrio, m.ready i = [] then some c else none
  | .reload c => if ∀ i < maxPrio, m.ready i = [] then some c else none
  | _ => none

/-- The journal after an event. -/
def nextJournal (x : SimState) (j : Journal) : SimEvent → Journal
  | .cpu e =>
      { visits := j.visits ++ ((e.visit x.2).map fun v => ⟨v.1, x.1.2.1.ticks, v.2⟩).toList
        searches := j.searches ++ ((e.search x.2).map fun c => (c, x.1.2.1.ticks)).toList }
  | _ => j

/-- The slots in which a CPU has done its work. -/
def Journal.slotsOf (j : Journal) (cpu : ℕ) : List ℕ :=
  (j.visits.filter fun v => v.cpu = cpu).map Visit.slot

/-- The slots in which `run` was called for a process. -/
def Journal.runsOf (j : Journal) (proc : Pcb) : List ℕ :=
  (j.visits.filter fun v => v.proc = some proc).map Visit.slot

def visitLts (n : ℕ) (ps : List LdProcess) (codeSize : Pcb → ℕ) (timeSlot : ℤ) :
    Lts (SimState × Journal) SimEvent :=
  (simLts n ps codeSize timeSlot).withGhost nextJournal

/-! ### The invariant -/

/-- A CPU between two calls of `next_slot`, in one, and at its end: where it is in its loop and for
the timer, the calls it has completed, and its visits. -/
inductive OnTime : CpuLoc → Loc → ℕ → ℕ → Prop
  | outside {loc : CpuLoc} {k : ℕ} : loc ≠ .slot → OnTime loc .outside k k
  | before {k : ℕ} : OnTime .slot .outside k (k + 1)
  | inside {k : ℕ} : OnTime .slot .inside k (k + 1)
  | detached {k : ℕ} : OnTime .stopped .detached k k

/-- The visits of a CPU so far, and what they say about the present slot. -/
structure CpuTime (n : ℕ) (s : Loading) (h : Slots) (m : Machine) (j : Journal) (cpu : ℕ) :
    Prop where
  onTime : ∃ k, OnTime (m.loc cpu) (s.timer.loc (deviceOf n cpu))
    (h.completed (deviceOf n cpu)) k ∧ j.slotsOf cpu = List.range k
  present : ∀ v ∈ j.visits, v.cpu = cpu → v.slot = h.ticks → m.cpus.held cpu = v.proc
  reload : m.loc cpu = .reload → m.cpus.held cpu = none
  search : m.loc cpu = .recheck → m.cpus.held cpu = none → (cpu, h.ticks) ∈ j.searches

structure SimInv (n : ℕ) (ps : List LdProcess) (x : SimState) (j : Journal) : Prop where
  ld : LdInv (n + 1) 0 ps x.1.1 x.1.2.1 x.1.2.2
  exclusive : Exclusive x.2.cpus
  cpus : ∀ cpu < n, CpuTime n x.1.1 x.1.2.1 x.2 j cpu
  visited : ∀ v ∈ j.visits, v.cpu < n ∧ v.slot ≤ x.1.2.1.ticks
  idle : ∀ v ∈ j.visits, v.proc = none → (v.cpu, v.slot) ∈ j.searches
  runs : ∀ proc, (j.runsOf proc).Pairwise (· < ·)

variable {n cpu : ℕ} {ps : List LdProcess} {codeSize : Pcb → ℕ} {timeSlot : ℤ} {x y : SimState}
  {j : Journal}

/-- A step of a CPU between two calls of `next_slot`: it ends with a visit in `next_slot`, or
without one elsewhere. -/
theorem RoutineStep.own {m m' : Machine} {e : RoutineEvent} {cpu : ℕ}
    (hs : RoutineStep n codeSize timeSlot m e m') (hown : e.Own) (he : e.actor = some cpu) :
    cpu < n ∧ m.loc cpu ≠ .slot ∧ m.loc cpu ≠ .stopped ∧
      ((e.visit m = some (cpu, m'.cpus.held cpu) ∧ m'.loc cpu = .slot) ∨
        e.visit m = none ∧ m'.loc cpu ≠ .slot) := by
  cases hs with
  | load _ _ _ => cases he
  | loaded _ => cases he
  | @get c hlt hloc hnone =>
      obtain rfl := Option.some.inj he
      refine ⟨hlt, by simp [hloc], by simp [hloc], ?_⟩
      cases hget : m.cpus.sched.getProc.1 with
      | none => simp [RoutineEvent.visit, hget, Machine.goto, Machine.fetch]
      | some proc => simp [RoutineEvent.visit, hget, Machine.goto]
  | finish hlt hloc _ _ =>
      obtain rfl := Option.some.inj he
      simp [RoutineEvent.visit, Machine.goto, hlt, hloc]
  | put hlt hloc _ _ _ =>
      obtain rfl := Option.some.inj he
      simp [RoutineEvent.visit, Machine.goto, hlt, hloc]
  | keep hlt hloc _ _ _ =>
      obtain rfl := Option.some.inj he
      simp [RoutineEvent.visit, Machine.goto, hlt, hloc]
  | reload hlt hloc _ =>
      obtain rfl := Option.some.inj he
      simp [RoutineEvent.visit, Machine.goto, hlt, hloc]
  | stop hlt hloc _ _ =>
      obtain rfl := Option.some.inj he
      simp [RoutineEvent.visit, Machine.goto, hlt, hloc]
  | wait hlt hloc hnone _ =>
      obtain rfl := Option.some.inj he
      simp [RoutineEvent.visit, Machine.goto, hlt, hloc, hnone]
  | run hlt hloc _ =>
      obtain rfl := Option.some.inj he
      simp [RoutineEvent.visit, Machine.goto, Machine.advance, Machine.useSlot, hlt, hloc]
  | @killall c proc procName hlt hloc _ _ =>
      obtain rfl := Option.some.inj he
      have hheld : (((m.advance codeSize proc).kill codeSize procName).useSlot timeSlot
          c).cpus.held c = m.cpus.held c :=
        congrFun (Procs.killall_held procName (m.advance codeSize proc).toProcs) c
      refine ⟨hlt, by simp [hloc], by simp [hloc], .inl ⟨?_, Function.update_self ..⟩⟩
      exact congrArg (fun r => some (c, r)) hheld.symm
  | ret _ _ => exact hown.elim

/-- Where a CPU goes on without a visit: after it gave up its process it has none, and without one at
the second look its `get_proc` has just found nothing. -/
theorem RoutineStep.own_held {m m' : Machine} {e : RoutineEvent} {cpu : ℕ}
    (hs : RoutineStep n codeSize timeSlot m e m') (hown : e.Own) (he : e.actor = some cpu) :
    (m'.loc cpu = .reload → m'.cpus.held cpu = none) ∧
      (m'.loc cpu = .recheck → m'.cpus.held cpu = none → e.search m = some cpu) := by
  cases hs with
  | load _ _ _ => cases he
  | loaded _ => cases he
  | @get c _ _ _ =>
      obtain rfl := Option.some.inj he
      cases hget : m.cpus.sched.getProc.1 with
      | none => simp [Machine.goto]
      | some proc => simp [Machine.goto, Machine.fetch, hget]
  | finish _ _ _ _ =>
      obtain rfl := Option.some.inj he
      simp [Machine.goto, Cpus.complete]
  | put _ _ _ _ _ =>
      obtain rfl := Option.some.inj he
      simp [Machine.goto]
  | keep _ _ hheld _ _ =>
      obtain rfl := Option.some.inj he
      simp [Machine.goto, hheld]
  | @reload c _ _ _ =>
      obtain rfl := Option.some.inj he
      refine ⟨by simp [Machine.goto], fun _ hnone => ?_⟩
      have hget : m.cpus.sched.getProc.1 = none := by
        simpa [Machine.goto, Machine.fetch] using hnone
      have hempty : ∀ i < maxPrio, m.ready i = [] := Sched.getProc_eq_none.mp hget
      exact if_pos hempty
  | stop _ _ _ _ =>
      obtain rfl := Option.some.inj he
      simp [Machine.goto]
  | wait _ _ _ _ =>
      obtain rfl := Option.some.inj he
      simp [Machine.goto]
  | run _ _ _ =>
      obtain rfl := Option.some.inj he
      simp [Machine.goto]
  | killall _ _ _ _ =>
      obtain rfl := Option.some.inj he
      simp [Machine.goto]
  | ret _ _ => exact hown.elim

theorem RoutineEvent.visit_actor {m : Machine} {e : RoutineEvent} {v : ℕ × Option Pcb}
    (h : e.visit m = some v) : e.actor = some v.1 := by
  cases e with
  | get c =>
      simp only [visit] at h
      split_ifs at h
      obtain rfl := Option.some.inj h
      rfl
  | wait c =>
      obtain rfl := Option.some.inj h
      rfl
  | run c =>
      obtain rfl := Option.some.inj h
      rfl
  | killall c _ =>
      obtain rfl := Option.some.inj h
      rfl
  | _ => cases h

theorem nextJournal_visits (x : SimState) (j : Journal) (e : SimEvent) :
    (nextJournal x j e).visits = j.visits ∨ ∃ re c proc, e = .cpu re ∧
      re.visit x.2 = some (c, proc) ∧
      (nextJournal x j e).visits = j.visits ++ [⟨c, x.1.2.1.ticks, proc⟩] := by
  cases e with
  | cpu re =>
      cases hv : re.visit x.2 with
      | none => exact .inl (by simp [nextJournal, hv])
      | some v => exact .inr ⟨re, v.1, v.2, rfl, hv, by simp [nextJournal, hv]⟩
  | _ => exact .inl rfl

theorem subset_searches (x : SimState) (j : Journal) (e : SimEvent) :
    j.searches ⊆ (nextJournal x j e).searches := by
  cases e with
  | cpu re => exact fun v hv => List.mem_append_left _ hv
  | _ => exact fun v hv => hv

omit [SchedHeader] in
theorem mem_slotsOf {v : Visit} (hv : v ∈ j.visits) : v.slot ∈ j.slotsOf v.cpu :=
  List.mem_map_of_mem (List.mem_filter.mpr ⟨hv, by simp⟩)

theorem slotsOf_next (x : SimState) (j : Journal) {e : SimEvent} (hne : e.actor ≠ some cpu) :
    (nextJournal x j e).slotsOf cpu = j.slotsOf cpu := by
  cases nextJournal_visits x j e with
  | inl h => simp [Journal.slotsOf, h]
  | inr h =>
      obtain ⟨re, c, proc, rfl, hv, h⟩ := h
      have hc : c ≠ cpu := by
        rintro rfl
        exact hne (RoutineEvent.visit_actor hv)
      simp [Journal.slotsOf, h, hc]

omit [SchedHeader] in
theorem slot_lt {k : ℕ} {v : Visit} (hslots : j.slotsOf cpu = List.range k) (hv : v ∈ j.visits)
    (hcpu : v.cpu = cpu) : v.slot < k := by
  have hmem := mem_slotsOf hv
  rw [hcpu, hslots] at hmem
  exact List.mem_range.mp hmem

theorem CpuTime.other (ht : CpuTime n s h m j cpu)
    (hs : (simLts n ps codeSize timeSlot).step ((s, h, a), m) e ((s', h', a'), m'))
    (hi : TimerInv (n + 1) s.timer h) (hcpu : cpu < n) (hne : e.actor ≠ some cpu)
    (hvisited : ∀ v ∈ j.visits, v.slot ≤ h.ticks) :
    CpuTime n s' h' m' (nextJournal ((s, h, a), m) j e) cpu := by
  obtain ⟨hloc, hheld⟩ := sim_loop hs hne
  obtain ⟨hdev, hcomp⟩ := sim_device hs hcpu hne
  dsimp only at hloc hheld hdev hcomp
  have hmem : ∀ v ∈ (nextJournal ((s, h, a), m) j e).visits, v.cpu = cpu → v ∈ j.visits := by
    intro v hv hc
    cases nextJournal_visits ((s, h, a), m) j e with
    | inl hj => rwa [hj] at hv
    | inr hj =>
        obtain ⟨re, c, proc, rfl, hvisit, hj⟩ := hj
        rw [hj] at hv
        cases List.mem_append.mp hv with
        | inl hv => exact hv
        | inr hv =>
            obtain rfl := List.mem_singleton.mp hv
            exact absurd (hc ▸ RoutineEvent.visit_actor hvisit) hne
  refine ⟨?_, ?_, ?_, ?_⟩
  · rw [hloc, hdev, hcomp, slotsOf_next _ _ hne]
    exact ht.onTime
  · intro v hv hc hslot
    have hold := hmem v hv hc
    rw [hheld]
    cases sim_ticks hs hi with
    | inl hticks => exact ht.present v hold hc (hslot.trans hticks)
    | inr htick =>
        have hle := hvisited v hold
        have hticks := htick.2.1
        dsimp only at hticks
        omega
  · rw [hloc, hheld]
    exact ht.reload
  · rw [hloc, hheld]
    intro hrecheck hnone
    apply subset_searches
    cases sim_ticks hs hi with
    | inl hticks =>
        dsimp only at hticks
        rw [hticks]
        exact ht.search hrecheck hnone
    | inr htick =>
        obtain ⟨k, hon, _⟩ := ht.onTime
        rw [hrecheck] at hon
        have hout := htick.2.2 (deviceOf n cpu) (deviceOf_lt n cpu)
        dsimp only at hout
        generalize s.timer.loc (deviceOf n cpu) = loc at hon hout
        cases hon with
        | outside _ => exact absurd rfl hout

/-- A CPU at work is outside of `next_slot`, where the clock stands still, and has made a visit in
each earlier slot. -/
theorem CpuTime.working (ht : CpuTime n s h m j cpu) (hi : TimerInv (n + 1) s.timer h)
    (hslot : m.loc cpu ≠ .slot) (hstop : m.loc cpu ≠ .stopped) :
    s.timer.loc (deviceOf n cpu) = .outside ∧ h.completed (deviceOf n cpu) = h.ticks ∧
      j.slotsOf cpu = List.range h.ticks := by
  obtain ⟨k, hon, hslots⟩ := ht.onTime
  obtain ⟨hloc, hcomp⟩ : s.timer.loc (deviceOf n cpu) = .outside ∧
      h.completed (deviceOf n cpu) = k := by
    generalize m.loc cpu = loc at hon hslot hstop
    generalize s.timer.loc (deviceOf n cpu) = t at hon
    generalize h.completed (deviceOf n cpu) = c at hon
    cases hon with
    | outside _ => exact ⟨rfl, rfl⟩
    | before => exact absurd rfl hslot
    | inside => exact absurd rfl hslot
    | detached => exact absurd rfl hstop
  have hticks : h.ticks = k := (hi.of_outside (deviceOf_lt n cpu) hloc).1.trans hcomp
  exact ⟨hloc, hcomp.trans hticks.symm, hticks ▸ hslots⟩

/-- In a tick, a CPU that has not stopped is in `next_slot`, after its visit in this slot. -/
theorem CpuTime.of_tick {t : Timer} (ht : CpuTime n s h m j cpu) (hi : TimerInv (n + 1) s.timer h)
    (hs : TimerStep (n + 1) s.timer .tick t) (hstop : m.loc cpu ≠ .stopped) :
    m.loc cpu = .slot ∧ j.slotsOf cpu = List.range (h.ticks + 1) := by
  have hout := hi.tick_loc hs (deviceOf_lt n cpu)
  have hslot : m.loc cpu = .slot := by
    by_contra hslot
    exact hout (ht.working hi hslot hstop).1
  obtain ⟨k, hon, hslots⟩ := ht.onTime
  obtain ⟨hin, hk⟩ : s.timer.loc (deviceOf n cpu) = .inside ∧
      h.completed (deviceOf n cpu) + 1 = k := by
    rw [hslot] at hon
    generalize s.timer.loc (deviceOf n cpu) = loc at hon hout
    generalize h.completed (deviceOf n cpu) = completed at hon
    cases hon with
    | outside hne => exact absurd rfl hne
    | before => exact absurd rfl hout
    | inside => exact ⟨rfl, rfl⟩
  have hcompleted := hi.tick_completed hs (deviceOf_lt n cpu) hin
  refine ⟨hslot, ?_⟩
  rw [hslots, ← hk, hcompleted]

theorem CpuTime.own (ht : CpuTime n s h m j cpu) {re : RoutineEvent}
    (hs : RoutineStep n codeSize timeSlot m re m') (hi : TimerInv (n + 1) s.timer h)
    (hown : re.Own) (hre : re.actor = some cpu) :
    CpuTime n s h m' (nextJournal ((s, h, a), m) j (.cpu re)) cpu := by
  obtain ⟨_, hslot, hstop, hcases⟩ := hs.own hown hre
  obtain ⟨hloc, hcomp, hslots⟩ := ht.working hi hslot hstop
  have hsearch : m'.loc cpu = .recheck → m'.cpus.held cpu = none →
      (cpu, h.ticks) ∈ (nextJournal ((s, h, a), m) j (.cpu re)).searches := by
    intro hrecheck hnone
    simp [nextJournal, (hs.own_held hown hre).2 hrecheck hnone]
  cases hcases with
  | inl hvisit =>
      obtain ⟨hvisit, hend⟩ := hvisit
      have hj : (nextJournal ((s, h, a), m) j (.cpu re)).visits =
          j.visits ++ [⟨cpu, h.ticks, m'.cpus.held cpu⟩] := by
        simp [nextJournal, hvisit]
      refine ⟨⟨h.ticks + 1, ?_, ?_⟩, ?_, fun hr => ?_, hsearch⟩
      · rw [hend, hloc, hcomp]
        exact .before
      · rw [List.range_succ, ← hslots]
        simp [Journal.slotsOf, hj]
      · intro v hv hc hpresent
        rw [hj] at hv
        cases List.mem_append.mp hv with
        | inl hv =>
            have hlt := slot_lt hslots hv hc
            omega
        | inr hv =>
            obtain rfl := List.mem_singleton.mp hv
            rfl
      · rw [hend] at hr
        cases hr
  | inr hquiet =>
      obtain ⟨hvisit, hend⟩ := hquiet
      have hj : (nextJournal ((s, h, a), m) j (.cpu re)).visits = j.visits := by
        simp [nextJournal, hvisit]
      refine ⟨⟨h.ticks, ?_, ?_⟩, ?_, (hs.own_held hown hre).1, hsearch⟩
      · rw [hloc, hcomp]
        exact .outside hend
      · rw [← hslots]
        simp [Journal.slotsOf, hj]
      · intro v hv hc hpresent
        rw [hj] at hv
        have hlt := slot_lt hslots hv hc
        omega

variable {t : Timer}

theorem CpuTime.enter (ht : CpuTime n s h m j cpu) (hslot : m.loc cpu = .slot)
    (hs : TimerStep (n + 1) s.timer (.setDone (deviceOf n cpu)) t) :
    CpuTime n { s with timer := t } (nextSlots s.timer h (.setDone (deviceOf n cpu))) m j cpu := by
  obtain ⟨k, hon, hslots⟩ := ht.onTime
  cases hs with
  | setDone _ hloc =>
      refine ⟨⟨k, ?_, hslots⟩, ht.present, ht.reload, ht.search⟩
      have hin : ((s.timer.setDone (deviceOf n cpu) true).goto (deviceOf n cpu) .inside).loc
          (deviceOf n cpu) = .inside := Function.update_self ..
      rw [hslot, hloc] at hon
      rw [hslot, hin]
      show OnTime _ _ (h.completed (deviceOf n cpu)) k
      generalize h.completed (deviceOf n cpu) = c at hon
      cases hon with
      | outside hne => exact absurd rfl hne
      | before => exact .inside

theorem CpuTime.ret (ht : CpuTime n s h m j cpu) (hslot : m.loc cpu = .slot)
    (hi : TimerInv (n + 1) s.timer h) (hs : TimerStep (n + 1) s.timer (.ret (deviceOf n cpu)) t) :
    CpuTime n { s with timer := t } (nextSlots s.timer h (.ret (deviceOf n cpu)))
      (m.goto cpu .top) j cpu := by
  obtain ⟨k, hon, hslots⟩ := ht.onTime
  cases hs with
  | ret hd hloc hdone =>
      have hk : h.completed (deviceOf n cpu) + 1 = k := by
        rw [hslot, hloc] at hon
        generalize h.completed (deviceOf n cpu) = c at hon
        cases hon with
        | inside => rfl
      have hticks := hi.of_released hd hloc hdone
      have htop : (m.goto cpu .top).loc cpu = .top := Function.update_self ..
      refine ⟨⟨k, ?_, hslots⟩, ?_, by simp [htop], by simp [htop]⟩
      · have hout : (s.timer.goto (deviceOf n cpu) .outside).loc (deviceOf n cpu) = .outside :=
          Function.update_self ..
        have hcomp : (nextSlots s.timer h (.ret (deviceOf n cpu))).completed (deviceOf n cpu) =
            k := (Function.update_self ..).trans hk
        rw [htop, hout, hcomp]
        exact .outside (by simp)
      · intro v hv hc hpresent
        have hlt := slot_lt hslots hv hc
        have hpresent : v.slot = h.ticks := hpresent
        omega

theorem CpuTime.detach (ht : CpuTime n s h m j cpu) (hstop : m.loc cpu = .stopped)
    (hs : TimerStep (n + 1) s.timer (.detach (deviceOf n cpu)) t) :
    CpuTime n { s with timer := t } (nextSlots s.timer h (.detach (deviceOf n cpu))) m j cpu := by
  obtain ⟨k, hon, hslots⟩ := ht.onTime
  cases hs with
  | detach _ hloc =>
      refine ⟨⟨k, ?_, hslots⟩, ht.present, ht.reload, ht.search⟩
      have hdet : ((s.timer.setFsh (deviceOf n cpu)).goto (deviceOf n cpu) .detached).loc
          (deviceOf n cpu) = .detached := Function.update_self ..
      rw [hstop, hloc] at hon
      rw [hstop, hdet]
      show OnTime _ _ (h.completed (deviceOf n cpu)) k
      generalize h.completed (deviceOf n cpu) = c at hon
      cases hon with
      | outside _ => exact .detached

theorem CpuTime.step (ht : CpuTime n s h m j cpu)
    (hs : (simLts n ps codeSize timeSlot).step ((s, h, a), m) e ((s', h', a'), m'))
    (hi : TimerInv (n + 1) s.timer h) (hcpu : cpu < n)
    (hvisited : ∀ v ∈ j.visits, v.slot ≤ h.ticks) :
    CpuTime n s' h' m' (nextJournal ((s, h, a), m) j e) cpu := by
  by_cases hne : e.actor = some cpu
  · obtain ⟨hld, hm, hg⟩ := hs
    cases e with
    | timer _ => cases hne
    | loader _ => cases hne
    | add _ => cases hne
    | loaded => cases hne
    | cpu re =>
        obtain ⟨rfl, rfl, rfl⟩ : s' = s ∧ h' = h ∧ a' = a := by
          simpa [SimEvent.ld] using hld
        exact ht.own (Lts.moves_some.mp hm) hi hg hne
    | enter c =>
        obtain rfl := Option.some.inj hne
        obtain ⟨t, hstep, rfl, rfl, rfl⟩ := ldLts_device (Lts.moves_some.mp hld) (deviceOf_ne hcpu)
        obtain rfl : m' = m := by simpa [SimEvent.routine] using hm
        exact ht.enter hg.2 hstep
    | ret c =>
        obtain rfl := Option.some.inj hne
        obtain ⟨t, hstep, rfl, rfl, rfl⟩ := ldLts_device (Lts.moves_some.mp hld) (deviceOf_ne hcpu)
        have hm : RoutineStep n codeSize timeSlot m (.ret c) m' := Lts.moves_some.mp hm
        cases hm with
        | ret _ hslot =>
            exact ht.ret hslot hi hstep
    | detach c =>
        obtain rfl := Option.some.inj hne
        obtain ⟨t, hstep, rfl, rfl, rfl⟩ := ldLts_device (Lts.moves_some.mp hld) (deviceOf_ne hcpu)
        obtain rfl : m' = m := by simpa [SimEvent.routine] using hm
        exact ht.detach hg.2 hstep
  · exact ht.other hs hi hcpu hne hvisited

/-! ### The invariant of a run -/

theorem runsOf_next (x : SimState) (j : Journal) (e : SimEvent) (proc : Pcb) :
    (nextJournal x j e).runsOf proc = j.runsOf proc ∨ ∃ re c, e = .cpu re ∧
      re.visit x.2 = some (c, some proc) ∧
      (nextJournal x j e).runsOf proc = j.runsOf proc ++ [x.1.2.1.ticks] := by
  cases nextJournal_visits x j e with
  | inl h => exact .inl (by simp [Journal.runsOf, h])
  | inr h =>
      obtain ⟨re, c, r, rfl, hv, h⟩ := h
      by_cases hr : r = some proc
      · subst hr
        exact .inr ⟨re, c, rfl, hv, by simp [Journal.runsOf, h]⟩
      · exact .inl (by simp [Journal.runsOf, h, hr])

omit [SchedHeader] in
theorem mem_runsOf {proc : Pcb} {slot : ℕ} :
    slot ∈ j.runsOf proc ↔ ∃ v ∈ j.visits, v.proc = some proc ∧ v.slot = slot := by
  simp [Journal.runsOf, and_assoc]

/-- A visit without a process is the end of a search that found nothing, in this step or before. -/
theorem idle_visit {m m' : Machine} {re : RoutineEvent} {c : ℕ} (ht : CpuTime n s h m j c)
    (hs : RoutineStep n codeSize timeSlot m re m') (hv : re.visit m = some (c, none)) :
    (c, h.ticks) ∈ (nextJournal ((s, h, a), m) j (.cpu re)).searches := by
  cases hs with
  | @get c' _ _ _ =>
      simp only [RoutineEvent.visit] at hv
      split_ifs at hv with hget
      obtain ⟨rfl, _⟩ := Prod.mk.inj (Option.some.inj hv)
      have hempty : ∀ i < maxPrio, m.ready i = [] := Sched.getProc_eq_none.mp hget
      have hsearch : (RoutineEvent.get c').search m = some c' := if_pos hempty
      simp [nextJournal, hsearch]
  | wait _ hloc hnone _ =>
      obtain ⟨rfl, _⟩ := Prod.mk.inj (Option.some.inj hv)
      exact subset_searches _ _ _ (ht.search hloc hnone)
  | run _ _ hheld =>
      obtain ⟨rfl, hr⟩ := Prod.mk.inj (Option.some.inj hv)
      rw [hheld] at hr
      cases hr
  | killall _ _ hheld _ =>
      obtain ⟨rfl, hr⟩ := Prod.mk.inj (Option.some.inj hv)
      rw [hheld] at hr
      cases hr
  | _ => cases hv

/-- `run` is called for the process of the CPU. -/
theorem RoutineStep.visit_held {re : RoutineEvent} {c : ℕ} {proc : Pcb}
    (hs : RoutineStep n codeSize timeSlot m re m') (hv : re.visit m = some (c, some proc)) :
    m.loc c = .recheck ∧ m.cpus.held c = some proc := by
  cases hs with
  | get _ _ _ =>
      simp only [RoutineEvent.visit] at hv
      split_ifs at hv with hget
      simp at hv
  | run _ hloc _ =>
      obtain ⟨rfl, hr⟩ := Prod.mk.inj (Option.some.inj hv)
      exact ⟨hloc, hr⟩
  | killall _ hloc _ _ =>
      obtain ⟨rfl, hr⟩ := Prod.mk.inj (Option.some.inj hv)
      exact ⟨hloc, hr⟩
  | wait _ _ _ _ => simp [RoutineEvent.visit] at hv
  | _ => cases hv

/-- The process of a CPU at work was not yet run in this slot. -/
theorem SimInv.runs_lt (hi : SimInv n ps ((s, h, a), m) j) {c : ℕ} {proc : Pcb}
    (hheld : m.cpus.held c = some proc) (hslot : m.loc c ≠ .slot) (hstop : m.loc c ≠ .stopped) :
    ∀ slot ∈ j.runsOf proc, slot < h.ticks := by
  intro slot hmem
  obtain ⟨v, hvmem, hproc, rfl⟩ := mem_runsOf.mp hmem
  obtain ⟨hvlt, hvle⟩ := hi.visited v hvmem
  apply Nat.lt_of_le_of_ne hvle
  intro hpresent
  -- the process would still be on the CPU that ran it, which is in `next_slot`
  have hcpu := (hi.cpus v.cpu hvlt).present v hvmem rfl hpresent
  obtain rfl : v.cpu = c := hi.exclusive.inj (hcpu.trans hproc) hheld
  obtain ⟨_, _, hslots⟩ := (hi.cpus v.cpu hvlt).working hi.ld.timer hslot hstop
  exact absurd hpresent (Nat.ne_of_lt (slot_lt hslots hvmem rfl))

theorem SimInv.step (hi : SimInv n ps x j) (hs : (simLts n ps codeSize timeSlot).step x e y) :
    SimInv n ps y (nextJournal x j e) := by
  obtain ⟨⟨s, h, a⟩, m⟩ := x
  obtain ⟨⟨s', h', a'⟩, m'⟩ := y
  have hle : h.ticks ≤ h'.ticks := sim_ticks_le hs hi.ld.timer
  refine ⟨?_, ?_, fun cpu hcpu => ?_, ?_, ?_, ?_⟩
  · refine hs.1.keeps (I := fun x => LdInv (n + 1) 0 ps x.1 x.2.1 x.2.2) ?_ hi.ld
    rintro le ⟨t, ht, at'⟩ ⟨hstep, hghost⟩
    obtain ⟨rfl, rfl⟩ := Prod.mk.inj hghost
    exact hi.ld.step (Nat.succ_pos n) hstep
  · exact hs.2.1.keeps (I := fun m => Exclusive m.cpus)
      (fun _ _ hstep => RoutineStep.exclusive hstep hi.exclusive) hi.exclusive
  · exact (hi.cpus cpu hcpu).step hs hi.ld.timer hcpu fun v hv => (hi.visited v hv).2
  · intro v hv
    cases nextJournal_visits ((s, h, a), m) j e with
    | inl hj =>
        rw [hj] at hv
        exact ⟨(hi.visited v hv).1, (hi.visited v hv).2.trans hle⟩
    | inr hj =>
        obtain ⟨re, c, r, rfl, hvisit, hj⟩ := hj
        rw [hj] at hv
        cases List.mem_append.mp hv with
        | inl hv => exact ⟨(hi.visited v hv).1, (hi.visited v hv).2.trans hle⟩
        | inr hv =>
            obtain rfl := List.mem_singleton.mp hv
            have hstep : RoutineStep n codeSize timeSlot m re m' := Lts.moves_some.mp hs.2.1
            exact ⟨(hstep.own hs.2.2 (RoutineEvent.visit_actor hvisit)).1, hle⟩
  · intro v hv hnone
    cases nextJournal_visits ((s, h, a), m) j e with
    | inl hj =>
        rw [hj] at hv
        exact subset_searches _ _ _ (hi.idle v hv hnone)
    | inr hj =>
        obtain ⟨re, c, r, rfl, hvisit, hj⟩ := hj
        rw [hj] at hv
        cases List.mem_append.mp hv with
        | inl hv => exact subset_searches _ _ _ (hi.idle v hv hnone)
        | inr hv =>
            obtain rfl := List.mem_singleton.mp hv
            obtain rfl : r = none := hnone
            have hstep : RoutineStep n codeSize timeSlot m re m' := Lts.moves_some.mp hs.2.1
            have hlt := (hstep.own hs.2.2 (RoutineEvent.visit_actor hvisit)).1
            exact idle_visit (hi.cpus c hlt) hstep hvisit
  · intro proc
    cases runsOf_next ((s, h, a), m) j e proc with
    | inl hj =>
        rw [hj]
        exact hi.runs proc
    | inr hj =>
        obtain ⟨re, c, rfl, hvisit, hj⟩ := hj
        have hstep : RoutineStep n codeSize timeSlot m re m' := Lts.moves_some.mp hs.2.1
        rw [hj, List.pairwise_append]
        refine ⟨hi.runs proc, List.pairwise_singleton _ _, fun slot hslot t ht => ?_⟩
        obtain rfl := List.mem_singleton.mp ht
        obtain ⟨hloc, hheld⟩ := hstep.visit_held hvisit
        exact hi.runs_lt hheld (by simp [hloc]) (by simp [hloc]) slot hslot

theorem SimInv.start : SimInv n ps (.start ps) .start := by
  have hld : LdInv (n + 1) 0 ps Loading.start Slots.start [] := LdInv.of_run (Nat.succ_pos n) .nil
  refine ⟨hld, exclusive_start, fun cpu _ => ?_, by simp [Journal.start], by simp [Journal.start],
    by simp [Journal.start, Journal.runsOf]⟩
  exact ⟨⟨0, .outside (by simp [SimState.start, Machine.start]), rfl⟩, by simp [Journal.start],
    by simp [SimState.start, Machine.start], by simp [SimState.start, Machine.start]⟩

theorem SimInv.of_run {es : List SimEvent}
    (hr : (visitLts n ps codeSize timeSlot).Run (.start ps, .start) es (x, j)) :
    SimInv n ps x j := by
  refine hr.invariant (I := fun x => SimInv n ps x.1 x.2) ?_ SimInv.start
  rintro ⟨x, j⟩ e ⟨y, j'⟩ hi ⟨hs, rfl⟩
  exact hi.step hs

/-! ### Every slot -/

/-- A CPU visits each slot once and in order, finds no process only where all ready queues are
empty, and no process is run twice in a slot. -/
structure EverySlot (n : ℕ) (x : SimState) (j : Journal) : Prop where
  visits : ∀ cpu < n, ∃ k, j.slotsOf cpu = List.range k ∧ k ≤ x.1.2.1.ticks + 1 ∧
    (x.2.loc cpu ≠ .stopped → x.1.2.1.ticks ≤ k)
  idle : ∀ v ∈ j.visits, v.proc = none → (v.cpu, v.slot) ∈ j.searches
  runs : ∀ proc, (j.runsOf proc).Pairwise (· < ·)

/-- A CPU that has not stopped has visited each slot that is over. -/
theorem CpuTime.ticks_le {k : ℕ} (ht : CpuTime n s h m j cpu) (hi : TimerInv (n + 1) s.timer h)
    (hslots : j.slotsOf cpu = List.range k) (hstop : m.loc cpu ≠ .stopped) : h.ticks ≤ k := by
  by_cases hslot : m.loc cpu = .slot
  · obtain ⟨k', hon, hslots'⟩ := ht.onTime
    obtain rfl : k = k' := by
      have hlen := congrArg List.length (hslots.symm.trans hslots')
      simpa using hlen
    have hloc : s.timer.loc (deviceOf n cpu) ≠ .detached ∧
        h.completed (deviceOf n cpu) + 1 = k := by
      rw [hslot] at hon
      generalize s.timer.loc (deviceOf n cpu) = t at hon
      generalize h.completed (deviceOf n cpu) = c at hon
      cases hon with
      | outside hne => exact absurd rfl hne
      | before => simp
      | inside => simp
    obtain ⟨hloc, hk⟩ := hloc
    cases hi.view_cases (deviceOf_lt n cpu) with
    | inl hset =>
        have hcomp : h.completed (deviceOf n cpu) = h.ticks ∨
            h.completed (deviceOf n cpu) + 1 = h.ticks := hset.completed hloc
        omega
    | inr hdue =>
        have hcomp : h.completed (deviceOf n cpu) + 1 = h.ticks := hdue.completed hloc
        omega
  · obtain ⟨_, _, hslots'⟩ := ht.working hi hslot hstop
    have hlen := congrArg List.length (hslots.symm.trans hslots')
    simp only [List.length_range] at hlen
    omega

theorem SimInv.slots_le (hi : SimInv n ps x j) {k : ℕ} (hslots : j.slotsOf cpu = List.range k) :
    k ≤ x.1.2.1.ticks + 1 := by
  cases k with
  | zero => exact Nat.zero_le _
  | succ k =>
      have hmem : k ∈ j.slotsOf cpu := by simp [hslots]
      obtain ⟨v, hv, rfl⟩ := List.mem_map.mp hmem
      exact Nat.succ_le_succ (hi.visited v (List.mem_filter.mp hv).1).2

/-- **Every slot**, for any number of CPUs, every interleaving with the loader and the timer, and
programs with or without `killall`. -/
theorem every_slot {es : List SimEvent}
    (hr : (visitLts n ps codeSize timeSlot).Run (.start ps, .start) es (x, j)) :
    EverySlot n x j := by
  have hi := SimInv.of_run hr
  refine ⟨fun cpu hcpu => ?_, hi.idle, hi.runs⟩
  obtain ⟨k, _, hslots⟩ := (hi.cpus cpu hcpu).onTime
  exact ⟨k, hslots, hi.slots_le hslots, (hi.cpus cpu hcpu).ticks_le hi.ld.timer hslots⟩

/-! ### A run -/

/-- One process, in the first slot. -/
def oneLine : List LdProcess := [⟨"p0", 0, 0, zero_lt_two_pow⟩]

/-- Three processes; the second waits for its start time, and holds up the third. -/
def threeLines : List LdProcess :=
  [⟨"p0", 0, 0, zero_lt_two_pow⟩, ⟨"p1", 1, 0, one_lt_two_pow⟩, ⟨"p2", 0, 1, zero_lt_two_pow⟩]

def threeSize (proc : Pcb) : ℕ := if proc.pid = 3 then 1 else 5

/-- The threads are in `next_slot`, or have ended: the timer releases them, and the CPUs go on. -/
def slotEnd : List SimEvent :=
  [.timer .head, .timer (.pass 0), .timer (.pass 1), .timer (.pass 2), .timer .tick,
    .timer (.clear 0), .timer (.clear 1), .timer (.clear 2), .timer .leave, .ret 0, .ret 1]

/-- The loader adds a process at the beginning of a slot. -/
def addLine (i : ℕ) : List SimEvent :=
  [.loader .load, .loader .test] ++ threeLines[i]?.toList.map .add ++
    [.loader (.timer (.setDone 0))]

/-- Two CPUs, and four slots for a process at a time: the CPUs take the first two processes, and the
third one waits from slot 2 until the first one has ended, in slot 5. -/
def threeRun : List SimEvent :=
  addLine 0 ++ [.cpu (.get 0), .cpu (.run 0), .enter 0, .cpu (.get 1), .enter 1] ++ slotEnd ++
  .loader (.timer (.ret 0)) :: addLine 1 ++ [.cpu (.keep 0), .cpu (.run 0), .enter 0,
    .cpu (.get 1), .cpu (.run 1), .enter 1] ++ slotEnd ++
  .loader (.timer (.ret 0)) :: addLine 2 ++ [.cpu (.keep 0), .cpu (.run 0), .enter 0,
    .cpu (.keep 1), .cpu (.run 1), .enter 1] ++ slotEnd ++
  [.loader (.timer (.ret 0)), .loaded, .loader (.timer (.detach 0)), .cpu (.keep 0), .cpu (.run 0),
    .enter 0, .cpu (.keep 1), .cpu (.run 1), .enter 1] ++ slotEnd ++
  [.cpu (.put 0), .cpu (.reload 0), .cpu (.run 0), .enter 0, .cpu (.keep 1), .cpu (.run 1),
    .enter 1] ++ slotEnd ++
  [.cpu (.finish 0), .cpu (.reload 0), .cpu (.run 0), .enter 0, .cpu (.put 1), .cpu (.reload 1),
    .cpu (.run 1), .enter 1] ++ slotEnd ++
  [.cpu (.finish 0), .cpu (.reload 0), .cpu (.stop 0), .detach 0, .cpu (.finish 1),
    .cpu (.reload 1), .cpu (.stop 1), .detach 1]

/-- The simulator of the run, and its first state. -/
abbrev threeLts : Lts (@SimState sched22 × Journal) SimEvent :=
  @visitLts sched22 2 threeLines threeSize 4

abbrev threeStart : @SimState sched22 × Journal :=
  (@SimState.start sched22 threeLines, Journal.start)

/-- The pids of the processes that have ended, the last one first. -/
def endedPids (x : @SimState sched22) : List ℕ :=
  letI := sched22
  x.2.cpus.finished.map Pcb.pid

def threeNext : @SimState sched22 × Journal → SimEvent → Option (@SimState sched22 × Journal) :=
  Lts.nextGhost (@SimState.next sched22 2 threeLines threeSize 4) (@nextJournal sched22)

omit [SchedHeader] in
theorem threeLts_of_next {x y : @SimState sched22 × Journal} {es : List SimEvent}
    (h : Lts.replay threeNext x es = some y) : threeLts.Run x es y :=
  Lts.Run.of_replay (Lts.withGhost_of_nextGhost (@simStep_of_next sched22 _ _ _ _)) h

omit [SchedHeader] in
theorem threeRun_reach (k : ℕ) {P : @SimState sched22 × Journal → Prop} [DecidablePred P]
    (h : (Lts.replay threeNext threeStart (threeRun.take k)).any (P ·) = true) :
    ∃ x j, threeLts.Run threeStart (threeRun.take k) (x, j) ∧ P (x, j) := by
  obtain ⟨⟨x, j⟩, hs, hP⟩ := (Option.any_eq_true _ _).mp h
  exact ⟨x, j, threeLts_of_next hs, of_decide_eq_true hP⟩

omit [SchedHeader] in
theorem every_slot_sample : ∃ x j, threeLts.Run threeStart (threeRun.take 129) (x, j) ∧
    j.slotsOf 0 = [0, 1, 2, 3, 4, 5] ∧ @EverySlot sched22 2 x j := by
  obtain ⟨x, j, hr, hslots⟩ := threeRun_reach 129
    (P := fun z => z.2.slotsOf 0 = [0, 1, 2, 3, 4, 5]) (by decide +kernel)
  exact ⟨x, j, hr, hslots, @every_slot sched22 2 threeLines threeSize 4 x j _ hr⟩

end BtlOs
