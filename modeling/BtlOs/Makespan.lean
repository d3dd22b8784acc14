import BtlOs.Shutdown
import BtlOs.Lib.ListSchedule

/-! # When the processes have finished (`sched.c`, `os.c`)

A process needs a slot for each of its instructions, and one if it has none.  When all processes
have been added, a CPU finds none only where the CPUs that are about to call `get_proc` are no fewer
than the processes that wait.  This holds from then on, since no other process is added, and in a
tick no CPU is about to call `get_proc`: so each process that is left runs in every slot.

In each slot after the last `add_proc` all CPUs run processes, or all processes that are left run.
This is list scheduling, and its bound on the last slot holds. -/

namespace BtlOs

open SchedHeader Counting

variable [SchedHeader]

/-- The slots in which `run` is called for a process: `put_proc` is not called at the end of the
code, but the first `run` does not look at the size of the code. -/
def slotsNeeded (codeSize : Pcb → ℕ) (proc : Pcb) : ℕ := max (codeSize proc) 1

/-- The slot after the last `add_proc`. -/
def allAdded (ps : List LdProcess) : ℕ := earliest (startTime ps) ps.length

variable {n c : ℕ} {ps : List LdProcess} {codeSize : Pcb → ℕ} {timeSlot : ℤ} {x y : SimState}
  {j : Journal} {e : SimEvent} {m m' : Machine} {re : RoutineEvent} {proc : Pcb}

/-! ### The runs of a process -/

namespace Sched

variable {s : Sched} {q : Pcb} {i : ℕ}

theorem mem_ready_of_getProc (h : q ∈ s.getProc.2.ready i) : q ∈ s.ready i := by
  cases s.getProc_cases with
  | inl hidle =>
      rw [hidle] at h
      exact h
  | inr hget =>
      obtain ⟨k, p, rest, _, hcons, hready, _⟩ := hget
      rw [hready, Function.update_apply] at h
      split_ifs at h with hi
      · subst hi
        rw [hcons]
        exact List.mem_cons_of_mem _ h
      · exact h

theorem mem_ready_of_got (h : s.getProc.1 = some q) : ∃ i, q ∈ s.ready i := by
  cases s.getProc_cases with
  | inl hidle =>
      rw [hidle] at h
      cases h
  | inr hget =>
      obtain ⟨k, p, rest, hp, hcons, _⟩ := hget
      obtain rfl := Option.some.inj (hp.symm.trans h)
      exact ⟨k, by simp [hcons]⟩

theorem mem_ready_of_requeue {p : Pcb} (h : q ∈ (s.requeue p).ready i) : q = p ∨ q ∈ s.ready i := by
  rw [ready_requeue, Function.update_apply] at h
  split_ifs at h with hi hfull
  · exact .inr (hi ▸ h)
  · cases List.mem_append.mp h with
    | inl h => exact .inr (hi ▸ h)
    | inr h => exact .inl (List.mem_singleton.mp h)
  · exact .inr h

end Sched

/-- The number of calls of `run` for each process, its `pc`, and where it can be with calls left. -/
structure WorkInv (codeSize : Pcb → ℕ) (m : Machine) (runs : Pcb → ℕ) : Prop where
  pc : ∀ proc, m.pc proc = min (runs proc) (codeSize proc)
  le : ∀ proc, runs proc ≤ slotsNeeded codeSize proc
  ready : ∀ i, ∀ proc ∈ m.ready i, runs proc < slotsNeeded codeSize proc
  recheck : ∀ c proc, m.cpus.held c = some proc → m.loc c = .recheck →
    runs proc < slotsNeeded codeSize proc
  added : ∀ proc, proc ∉ m.cpus.added → runs proc = 0

variable {runs : Pcb → ℕ}

/-- Where the `pc` has not reached the end, a run is left. -/
theorem WorkInv.lt_of_pc (hw : WorkInv codeSize m runs) (hpc : m.pc proc ≠ codeSize proc) :
    runs proc < slotsNeeded codeSize proc := by
  have hmin := hw.pc proc
  unfold slotsNeeded
  omega

theorem WorkInv.goto (hw : WorkInv codeSize m runs) {loc : CpuLoc}
    (hloc : ∀ proc, m.cpus.held c = some proc → loc = .recheck →
      runs proc < slotsNeeded codeSize proc) : WorkInv codeSize (m.goto c loc) runs := by
  refine ⟨hw.pc, hw.le, hw.ready, fun c' proc hheld hat => ?_, hw.added⟩
  have hrecheck : Function.update m.loc c loc c' = .recheck := hat
  rw [Function.update_apply] at hrecheck
  split_ifs at hrecheck with hc
  · subst hc
    exact hloc proc hheld hrecheck
  · exact hw.recheck c' proc hheld hrecheck

theorem WorkInv.fetch (hw : WorkInv codeSize m runs) (loc : CpuLoc) :
    WorkInv codeSize ((m.fetch c).goto c loc) runs := by
  refine ⟨hw.pc, hw.le, ?_, fun c' proc hheld hrecheck => ?_, hw.added⟩
  · exact fun i proc hmem => hw.ready i proc (Sched.mem_ready_of_getProc hmem)
  · have hheld : Function.update m.cpus.held c m.cpus.sched.getProc.1 c' = some proc := hheld
    have hrecheck : Function.update m.loc c loc c' = .recheck := hrecheck
    rw [Function.update_apply] at hheld hrecheck
    split_ifs at hheld hrecheck
    · obtain ⟨i, hmem⟩ := Sched.mem_ready_of_got hheld
      exact hw.ready i proc hmem
    · exact hw.recheck c' proc hheld hrecheck

theorem WorkInv.run (hw : WorkInv codeSize m runs) (hx : Exclusive m.cpus)
    (hheld : m.cpus.held c = some proc) (hrecheck : m.loc c = .recheck) :
    WorkInv codeSize (((m.advance codeSize proc).useSlot timeSlot c).goto c .slot)
      fun q => runs q + if proc = q then 1 else 0 := by
  have hlt := hw.recheck c proc hheld hrecheck
  refine ⟨fun q => ?_, fun q => ?_, fun i q hmem => ?_, fun c' q hheld' hloc' => ?_, fun q hq => ?_⟩
  · show Function.update m.pc proc _ q = _
    rw [Function.update_apply]
    have hpc := hw.pc q
    by_cases hq : q = proc
    · subst hq
      simp only [if_true]
      split_ifs <;> omega
    · simp only [if_neg hq, if_neg (Ne.symm hq)]
      exact hpc
  · have hle := hw.le q
    by_cases hq : proc = q
    · subst hq
      simp only [if_true]
      omega
    · simpa [hq] using hle
  · have hmem : q ∈ m.ready i := hmem
    have hne : proc ≠ q := by
      rintro rfl
      exact hx.notMem hheld (hx.prio i _ hmem ▸ hmem)
    simpa [hne] using hw.ready i q hmem
  · have hheld' : m.cpus.held c' = some q := hheld'
    have hloc' : Function.update m.loc c .slot c' = .recheck := hloc'
    rw [Function.update_apply] at hloc'
    split_ifs at hloc' with hc
    have hne : proc ≠ q := by
      rintro rfl
      exact hc (hx.inj hheld' hheld)
    simpa [hne] using hw.recheck c' q hheld' hloc'
  · have hadded := (hx.held_live c proc hheld).1
    have hne : proc ≠ q := by
      rintro rfl
      exact hq hadded
    simpa [hne] using hw.added q hq

theorem WorkInv.step (hw : WorkInv codeSize m runs) (hx : Exclusive m.cpus)
    (hs : RoutineStep n codeSize timeSlot m re m')
    (hkill : ∀ c procName, re ≠ .killall c procName) :
    WorkInv codeSize m' fun proc => runs proc + re.runs m proc := by
  have hquiet : (re.visit m).map Prod.snd = none ∨ (re.visit m).map Prod.snd = some none →
      (fun proc => runs proc + re.runs m proc) = runs := by
    intro hv
    funext proc
    unfold RoutineEvent.runs
    rcases hv with hv | hv <;> simp [hv]
  cases hs with
  | @load p rest _ _ hpid =>
      rw [hquiet (.inl rfl)]
      have hzero : runs p = 0 := hw.added p fun hmem => hpid p hmem rfl
      refine ⟨fun q => ?_, hw.le, fun i q hmem => ?_, hw.recheck, fun q hq => ?_⟩
      · show Function.update m.pc p 0 q = _
        rw [Function.update_apply]
        split_ifs with hq
        · rw [hq, hzero, Nat.zero_min]
        · exact hw.pc q
      · cases Sched.mem_ready_of_requeue hmem with
        | inl hq =>
            rw [hq, hzero]
            exact Nat.lt_of_lt_of_le Nat.one_pos (Nat.le_max_right _ _)
        | inr hmem => exact hw.ready i q hmem
      · exact hw.added q fun hmem => hq (List.mem_cons_of_mem _ hmem)
  | loaded _ =>
      rw [hquiet (.inl rfl)]
      exact ⟨hw.pc, hw.le, hw.ready, hw.recheck, hw.added⟩
  | @get c _ _ _ =>
      rw [hquiet]
      · exact hw.fetch _
      · by_cases hget : m.cpus.sched.getProc.1 = none
        · exact .inr (by simp [RoutineEvent.visit, hget])
        · exact .inl (by simp [RoutineEvent.visit, hget])
  | @finish c p _ _ _ _ =>
      rw [hquiet (.inl rfl)]
      refine ⟨hw.pc, hw.le, hw.ready, fun c' q hheld hloc => ?_, hw.added⟩
      have hheld : Function.update m.cpus.held c none c' = some q := hheld
      have hloc : Function.update m.loc c .reload c' = .recheck := hloc
      rw [Function.update_apply] at hheld hloc
      split_ifs at hheld hloc
      exact hw.recheck c' q hheld hloc
  | @put c p _ _ _ hpc _ =>
      rw [hquiet (.inl rfl)]
      refine ⟨hw.pc, hw.le, fun i q hmem => ?_, fun c' q hheld hloc => ?_, hw.added⟩
      · cases Sched.mem_ready_of_requeue hmem with
        | inl hq => exact hq ▸ hw.lt_of_pc hpc
        | inr hmem => exact hw.ready i q hmem
      · have hheld : Function.update m.cpus.held c none c' = some q := hheld
        have hloc : Function.update m.loc c .reload c' = .recheck := hloc
        rw [Function.update_apply] at hheld hloc
        split_ifs at hheld hloc
        exact hw.recheck c' q hheld hloc
  | keep _ _ hheld hpc _ =>
      rw [hquiet (.inl rfl)]
      refine hw.goto fun q hq _ => ?_
      obtain rfl := Option.some.inj (hheld.symm.trans hq)
      exact hw.lt_of_pc hpc
  | reload _ _ _ =>
      rw [hquiet (.inl rfl)]
      exact hw.fetch _
  | stop _ _ _ _ =>
      rw [hquiet (.inl rfl)]
      exact hw.goto (by simp)
  | wait _ _ _ _ =>
      rw [hquiet (.inr rfl)]
      exact hw.goto (by simp)
  | @run c p _ hloc hheld =>
      have hruns : ∀ q, RoutineEvent.runs m (.run c) q = if p = q then 1 else 0 := by
        intro q
        simp [RoutineEvent.runs, RoutineEvent.visit, hheld]
      simp only [hruns]
      exact hw.run hx hheld hloc
  | killall _ _ _ _ => exact absurd rfl (hkill _ _)
  | ret _ _ =>
      rw [hquiet (.inl rfl)]
      exact hw.goto (by simp)

/-! ### Processes that wait and CPUs that ask -/

namespace Sched

variable {s : Sched}

/-- The processes in the ready queues. -/
def waiting (s : Sched) : ℕ := ((List.range maxPrio).map fun i => (s.ready i).length).sum

theorem waiting_eq_zero : s.waiting = 0 ↔ ∀ i < maxPrio, s.ready i = [] := by
  simp [waiting, List.sum_eq_zero_iff]

theorem waiting_update {s' : Sched} {k : ℕ} {l : List Pcb} (hk : k < maxPrio)
    (hready : s'.ready = Function.update s.ready k l) :
    s'.waiting + (s.ready k).length = s.waiting + l.length := by
  have hchange := sum_map_change List.nodup_range (List.mem_range.mpr hk)
    (f := fun i => (s.ready i).length) (g := fun i => (s'.ready i).length)
    fun i _ hne => by rw [hready, Function.update_of_ne hne]
  rw [hready, Function.update_self, ← hready] at hchange
  exact hchange

theorem waiting_getProc (s : Sched) : s.getProc.2.waiting = s.waiting - 1 := by
  have hstep := s.getStep
  unfold getProc getMlqProc
  generalize (getLoop 2 s).1 = r at hstep
  generalize (getLoop 2 s).2 = s' at hstep
  cases hstep with
  | served hi _ hcons _ =>
      have hlen := waiting_update hi (ready_serve hcons)
      rw [hcons, List.length_cons] at hlen
      omega
  | refilled hi hcons _ _ =>
      have hlen := waiting_update (s := s.resetSlots) hi (ready_serve (s := s.resetSlots) hcons)
      rw [show s.resetSlots.ready _ = _ from hcons, List.length_cons] at hlen
      have hsame : s.resetSlots.waiting = s.waiting := rfl
      omega
  | idle hnil =>
      have hzero := waiting_eq_zero.mpr hnil
      have hsame : s.resetSlots.waiting = s.waiting := rfl
      omega

theorem waiting_requeue (s : Sched) (q : Pcb) : (s.requeue q).waiting ≤ s.waiting + 1 := by
  by_cases hq : q.prio < maxPrio
  · have hlen := waiting_update hq (ready_requeue (s := s) q)
    split_ifs at hlen
    · omega
    · rw [List.length_append, List.length_singleton] at hlen
      omega
  · refine Nat.le_trans (Nat.le_of_eq ?_) (Nat.le_succ _)
    unfold waiting
    refine congrArg List.sum (List.map_congr_left fun i hi => ?_)
    have hne : i ≠ q.prio := by
      have hlt := List.mem_range.mp hi
      omega
    rw [ready_requeue, Function.update_of_ne hne]

end Sched

/-- The CPUs that gave a process up and are about to call `get_proc`. -/
def Machine.reloading (n : ℕ) (m : Machine) : ℕ :=
  ((List.range n).map fun c => if m.loc c = .reload then 1 else 0).sum

theorem Machine.reloading_goto (m : Machine) (hc : c < n) (loc : CpuLoc) :
    (m.goto c loc).reloading n + (if m.loc c = .reload then 1 else 0) =
      m.reloading n + if loc = .reload then 1 else 0 := by
  have hchange := sum_map_change List.nodup_range (List.mem_range.mpr hc)
    (f := fun c => if m.loc c = .reload then 1 else 0)
    (g := fun c' => if (m.goto c loc).loc c' = .reload then 1 else 0)
    fun c' _ hne => by simp [Machine.goto, hne]
  have hself : (m.goto c loc).loc c = loc := Function.update_self ..
  rw [hself] at hchange
  exact hchange

/-- Each process that waits will be found by a CPU that has just given its own up. -/
def Drained (n : ℕ) (m : Machine) : Prop := m.cpus.sched.waiting ≤ m.reloading n

/-- A CPU that was not about to call `get_proc` goes on, and is now if it put a process back. -/
theorem Drained.goto {m₁ : Machine} {loc : CpuLoc} (hd : Drained n m) (hc : c < n)
    (hloc : m₁.loc = m.loc) (hne : m.loc c ≠ .reload)
    (hw : m₁.cpus.sched.waiting ≤ m.cpus.sched.waiting + if loc = .reload then 1 else 0) :
    Drained n (m₁.goto c loc) := by
  have hgoto := m₁.reloading_goto hc loc
  have hsame : m₁.reloading n = m.reloading n := by
    unfold Machine.reloading
    rw [hloc]
  rw [hloc, if_neg hne, hsame] at hgoto
  unfold Drained at hd ⊢
  show m₁.cpus.sched.waiting ≤ _
  omega

theorem RoutineStep.drained (hs : RoutineStep n codeSize timeSlot m re m')
    (hkill : ∀ c procName, re ≠ .killall c procName) (hload : m.toLoad = [])
    (hd : Drained n m) : Drained n m' := by
  have hget : m.cpus.sched.getProc.2.waiting = m.cpus.sched.waiting - 1 := Sched.waiting_getProc _
  cases hs with
  | load hcons _ _ => simp [hload] at hcons
  | loaded _ => exact hd
  | @get c hc hloc _ =>
      refine hd.goto hc rfl (by simp [hloc]) ?_
      show m.cpus.sched.getProc.2.waiting ≤ _
      omega
  | finish hc hloc _ _ => exact hd.goto hc rfl (by simp [hloc]) (Nat.le_succ _)
  | put hc hloc _ _ _ => exact hd.goto hc rfl (by simp [hloc]) (Sched.waiting_requeue _ _)
  | keep hc hloc _ _ _ => exact hd.goto hc rfl (by simp [hloc]) (Nat.le_refl _)
  | @reload c hc hloc _ =>
      have hgoto := (m.fetch c).reloading_goto hc .recheck
      rw [show (m.fetch c).loc c = .reload from hloc] at hgoto
      have hsame : (m.fetch c).reloading n = m.reloading n := rfl
      unfold Drained at hd ⊢
      show m.cpus.sched.getProc.2.waiting ≤ _
      simp only [if_true, reduceCtorEq, if_false] at hgoto
      omega
  | stop hc hloc _ _ => exact hd.goto hc rfl (by simp [hloc]) (Nat.le_refl _)
  | wait hc hloc _ _ => exact hd.goto hc rfl (by simp [hloc]) (Nat.le_refl _)
  | run hc hloc _ => exact hd.goto hc rfl (by simp [hloc]) (Nat.le_refl _)
  | killall _ _ _ _ => exact absurd rfl (hkill _ _)
  | ret hc hloc => exact hd.goto hc rfl (by simp [hloc]) (Nat.le_refl _)

theorem RoutineEvent.drained_of_search (h : re.search m = some c) : Drained n m := by
  have hempty : ∀ i < maxPrio, m.ready i = [] := by
    cases re with
    | get c' =>
        simp only [search] at h
        split_ifs at h with hempty
        exact hempty
    | reload c' =>
        simp only [search] at h
        split_ifs at h with hempty
        exact hempty
    | _ => cases h
  have hzero : m.cpus.sched.waiting = 0 := Sched.waiting_eq_zero.mpr hempty
  unfold Drained
  omega

/-! ### The last slots -/

theorem nextJournal_searches (x : SimState) (j : Journal) (e : SimEvent) :
    (nextJournal x j e).searches = j.searches ∨ ∃ re c, e = .cpu re ∧ re.search x.2 = some c ∧
      (nextJournal x j e).searches = j.searches ++ [(c, x.1.2.1.ticks)] := by
  cases e with
  | cpu re =>
      cases hsearch : re.search x.2 with
      | none => exact .inl (by simp [nextJournal, hsearch])
      | some c => exact .inr ⟨re, c, rfl, hsearch, by simp [nextJournal, hsearch]⟩
  | _ => exact .inl rfl

omit [SchedHeader] in
/-- After the last `add_proc` the loader has no other process. -/
theorem LdInv.all_added {n : ℕ} {s : Loading} {h : Slots} {a : List Admission}
    (hi : LdInv (n + 1) 0 ps s h a) (hle : allAdded ps ≤ h.ticks) : s.i = ps.length := by
  by_contra hne
  have hlt : s.i < ps.length := by
    have := hi.le
    omega
  have hticks := hi.ticks_le (Nat.succ_pos n) hlt
  have hmono := (strictMono_nat_of_lt_succ (earliest_lt_succ (startTime ps))).monotone
    (Nat.succ_le_of_lt hlt)
  have hnext : arrival (startTime ps) s.i + 1 = earliest (startTime ps) s.i.succ := rfl
  unfold allAdded at hle
  omega

/-- What holds after a search of a CPU has found nothing in a slot after the last `add_proc`: the
processes that are left have run in each slot since. -/
structure LastInv (n : ℕ) (ps : List LdProcess) (x : SimState) (j : Journal) : Prop where
  searched : ∀ s ∈ j.searches, s.2 ≤ x.1.2.1.ticks
  loaded : x.1.1.loc.over = true → allAdded ps ≤ x.1.2.1.ticks
  stopped : ∀ c < n, x.2.loc c = .stopped → ∃ slot, (c, slot) ∈ j.searches ∧
    allAdded ps ≤ slot ∧ j.slotsOf c = List.range slot
  drained : ∀ s ∈ j.searches, allAdded ps ≤ s.2 → Drained n x.2
  ran : ∀ s ∈ j.searches, allAdded ps ≤ s.2 → ∀ t, s.2 ≤ t → t < x.1.2.1.ticks →
    ∀ proc ∈ pcbs ps, proc ∉ x.2.cpus.finished → proc ∉ x.2.cpus.refused → t ∈ j.runsOf proc

/-- What is known of a state besides, from the invariants of the runs. -/
structure SimFacts (n : ℕ) (ps : List LdProcess) (x : SimState) (j : Journal) : Prop where
  sim : SimInv n ps x j
  load : LoadInv ps x
  shut : ShutInv n x
  kept : Kept x.2.cpus
  prio : ∀ proc ∈ x.2.cpus.added, proc.prio < maxPrio

theorem SimFacts.of_run {es : List SimEvent} (hn : 0 < n)
    (hr : (visitLts n ps codeSize timeSlot).Run (.start ps, .start) es (x, j)) :
    SimFacts n ps x j := by
  obtain ⟨hi, hl⟩ := LoadInv.of_run hr
  obtain ⟨ks, hcpus⟩ := routine_run_cpus (Lts.Run.snd hr.of_withGhost)
  refine ⟨hi, hl, ShutInv.of_run hn hr, ?_, prio_lt_of_run hcpus⟩
  refine (hcpus.invariant (I := fun s => Exclusive s ∧ Kept s) ?_
    ⟨exclusive_start, by simp [Kept, Cpus.start]⟩).2
  exact fun _ _ _ h hs => ⟨h.1.step hs, h.2.step h.1 hs⟩

/-- In the tick of a slot, a process that no CPU has left to wait has run in it. -/
theorem SimFacts.ran_of_tick (hf : SimFacts n ps x j) {t : Timer}
    (hs : TimerStep (n + 1) x.1.1.timer .tick t) (hd : Drained n x.2)
    (hadded : proc ∈ x.2.cpus.added) (hfin : proc ∉ x.2.cpus.finished)
    (href : proc ∉ x.2.cpus.refused) : x.1.2.1.ticks ∈ j.runsOf proc := by
  obtain ⟨⟨s, h, a⟩, m⟩ := x
  have hreloading : m.reloading n = 0 := by
    refine List.sum_eq_zero fun k hk => ?_
    obtain ⟨c, hc, rfl⟩ := List.mem_map.mp hk
    have hlt := List.mem_range.mp hc
    refine if_neg fun hloc => ?_
    have hslot := ((hf.sim.cpus c hlt).of_tick hf.sim.ld.timer hs (by simp [hloc])).1
    rw [hloc] at hslot
    cases hslot
  have hempty : ∀ i < maxPrio, m.ready i = [] := by
    have hwaiting : m.cpus.sched.waiting ≤ m.reloading n := hd
    exact Sched.waiting_eq_zero.mp (by omega)
  obtain ⟨c, hheld⟩ : ∃ c, m.cpus.held c = some proc := by
    cases ((hf.kept proc hadded).resolve_left hfin).resolve_left href with
    | inl hready =>
        have hready : proc ∈ m.ready proc.prio := hready
        simp [hempty proc.prio (hf.prio proc hadded)] at hready
    | inr hheld => exact hheld
  have hc : c < n := by
    by_contra hge
    have hnone := hf.shut.other c (by omega)
    rw [hheld] at hnone
    cases hnone
  have hstop : m.loc c ≠ .stopped := by
    intro hstop
    have hnone := (hf.shut.stopped c hc hstop).2
    rw [hheld] at hnone
    cases hnone
  -- its visit in this slot was one with the process
  have ht := hf.sim.cpus c hc
  have hmem : h.ticks ∈ j.slotsOf c := by
    rw [(ht.of_tick hf.sim.ld.timer hs hstop).2]
    exact List.mem_range.mpr (Nat.lt_succ_self _)
  obtain ⟨v, hv, hslot⟩ := List.mem_map.mp hmem
  obtain ⟨hv, hcpu⟩ := List.mem_filter.mp hv
  have hpresent := ht.present v hv (of_decide_eq_true hcpu) hslot
  exact mem_runsOf.mpr ⟨v, hv, hpresent.symm.trans hheld, hslot⟩

/-- A CPU leaves its loop after a search in this slot. -/
theorem RoutineStep.of_stopped (hs : RoutineStep n codeSize timeSlot m re m')
    (hre : re.actor = some c) (hstop : m'.loc c = .stopped) :
    m.loc c = .recheck ∧ m.cpus.held c = none ∧ m.done = true := by
  cases hs with
  | load _ _ _ => cases hre
  | loaded _ => cases hre
  | @get c' _ _ _ =>
      obtain rfl := Option.some.inj hre
      cases hget : m.cpus.sched.getProc.1 with
      | none => simp [Machine.goto, hget] at hstop
      | some p => simp [Machine.goto, hget] at hstop
  | stop _ hloc hheld hdone =>
      obtain rfl := Option.some.inj hre
      exact ⟨hloc, hheld, hdone⟩
  | _ =>
      obtain rfl := Option.some.inj hre
      simp [Machine.goto] at hstop

/-- The loader leaves its loop in the slot after the last `add_proc`. -/
theorem sim_over (hf : SimFacts n ps x j) (hs : (simLts n ps codeSize timeSlot).step x e y)
    (hover : x.1.1.loc.over = true → allAdded ps ≤ x.1.2.1.ticks)
    (hover' : y.1.1.loc.over = true) : allAdded ps ≤ y.1.2.1.ticks := by
  have hticks := sim_ticks_le hs hf.sim.ld.timer
  obtain ⟨⟨s, h, a⟩, m⟩ := x
  obtain ⟨⟨s', h', a'⟩, m'⟩ := y
  have hld := hs.1
  cases he : e.ld n with
  | none =>
      rw [he, Lts.moves_none] at hld
      obtain ⟨rfl, rfl, rfl⟩ : s' = s ∧ h' = h ∧ a' = a := by simpa using hld
      exact hover hover'
  | some le =>
      rw [he, Lts.moves_some] at hld
      have hstep : LdStep (n + 1) 0 ps s le s' := hld.1
      by_cases hadd : ∃ line, le = .add line
      · obtain ⟨line, rfl⟩ := hadd
        cases hstep with
        | add _ _ => cases hover'
      · by_cases hfin : le = .finish
        · subst hfin
          cases hstep with
          | finish htop hlen =>
              have hloc := hf.sim.ld.loc
              have hreached := hf.sim.ld.reached
              rw [htop] at hloc hreached
              have hcompleted : h.completed 0 = earliest (startTime ps) s.i := hreached
              obtain ⟨hclock, _⟩ := hf.sim.ld.timer.of_outside (Nat.succ_pos n) hloc
              have hi : s.i = ps.length := Nat.le_antisymm hf.sim.ld.le (Nat.not_lt.mp hlen)
              rw [hi] at hcompleted
              exact (hcompleted.symm.trans hclock.symm).le.trans hticks
        · have hsame := (hstep.loop_frame (fun line hline => hadd ⟨line, hline⟩) hfin).2
          exact (hover (hsame ▸ hover')).trans hticks

theorem LastInv.stopped_own (hl : LastInv n ps x j) (hf : SimFacts n ps x j)
    (hs : (simLts n ps codeSize timeSlot).step x e y) (hact : e.actor = some c) (hc : c < n)
    (hstop : y.2.loc c = .stopped) : ∃ slot, (c, slot) ∈ (nextJournal x j e).searches ∧
      allAdded ps ≤ slot ∧ (nextJournal x j e).slotsOf c = List.range slot := by
  obtain ⟨⟨s, h, a⟩, m⟩ := x
  obtain ⟨⟨s', h', a'⟩, m'⟩ := y
  obtain ⟨_, hm, hg⟩ := hs
  cases e with
  | cpu re =>
      have hm : RoutineStep n codeSize timeSlot m re m' := Lts.moves_some.mp hm
      obtain ⟨hloc, hheld, hdone⟩ := hm.of_stopped hact hstop
      have ht := hf.sim.cpus c hc
      obtain ⟨_, _, hslots⟩ := ht.working hf.sim.ld.timer (by simp [hloc]) (by simp [hloc])
      obtain ⟨_, _, _, hvisit⟩ := hm.own hg hact
      have hquiet : re.visit m = none := by
        cases hvisit with
        | inl hv =>
            rw [hv.2] at hstop
            cases hstop
        | inr hv => exact hv.1
      refine ⟨h.ticks, subset_searches _ _ _ (ht.search hloc hheld), ?_, ?_⟩
      · exact hl.loaded (hf.load.done.symm.trans hdone)
      · rw [← hslots]
        simp [Journal.slotsOf, nextJournal, hquiet]
  | enter _ =>
      obtain rfl := Option.some.inj hact
      obtain rfl : m' = m := Lts.moves_none.mp hm
      rw [hg.2] at hstop
      cases hstop
  | ret k =>
      obtain rfl := Option.some.inj hact
      have hm : RoutineStep n codeSize timeSlot m (.ret k) m' := Lts.moves_some.mp hm
      have hloc := (hm.of_stopped rfl hstop).1
      cases hm with
      | ret _ hslot =>
          rw [hslot] at hloc
          cases hloc
  | detach k =>
      obtain rfl := Option.some.inj hact
      obtain rfl : m' = m := Lts.moves_none.mp hm
      exact hl.stopped k hc hstop
  | _ => cases hact

theorem LastInv.step (hl : LastInv n ps x j) (hf : SimFacts n ps x j)
    (hs : (simLts n ps codeSize timeSlot).step x e y) (hk : e.NoKill) :
    LastInv n ps y (nextJournal x j e) := by
  have hticks := sim_ticks_le hs hf.sim.ld.timer
  have hsearched : ∀ s ∈ (nextJournal x j e).searches, s ∈ j.searches ∨
      s.2 = x.1.2.1.ticks ∧ Drained n x.2 ∧ y.1.2.1.ticks = x.1.2.1.ticks := by
    intro s hmem
    cases nextJournal_searches x j e with
    | inl hj => exact .inl (hj ▸ hmem)
    | inr hj =>
        obtain ⟨re, c, rfl, hsearch, hj⟩ := hj
        rw [hj] at hmem
        refine (List.mem_append.mp hmem).imp_right fun hnew => ?_
        obtain rfl := List.mem_singleton.mp hnew
        refine ⟨rfl, RoutineEvent.drained_of_search hsearch, ?_⟩
        exact (sim_ticks hs hf.sim.ld.timer).resolve_right fun htick => by cases htick.1
  have hdrained : ∀ s ∈ (nextJournal x j e).searches, allAdded ps ≤ s.2 → Drained n x.2 ∧
      x.1.1.i = ps.length := by
    intro s hmem hle
    cases hsearched s hmem with
    | inl hold =>
        exact ⟨hl.drained s hold hle, hf.sim.ld.all_added (hle.trans (hl.searched s hold))⟩
    | inr hnew =>
        obtain ⟨heq, hd, _⟩ := hnew
        exact ⟨hd, hf.sim.ld.all_added (heq ▸ hle)⟩
  refine ⟨fun s hmem => ?_, sim_over hf hs hl.loaded, fun c hc hstop => ?_, fun s hmem hle => ?_,
    fun s hmem hle t hst htlt proc hproc hfin href => ?_⟩
  · cases hsearched s hmem with
    | inl hold => exact (hl.searched s hold).trans hticks
    | inr hnew => exact hnew.1.le.trans hticks
  · by_cases hact : e.actor = some c
    · exact hl.stopped_own hf hs hact hc hstop
    · obtain ⟨slot, hmem, hle, hslots⟩ := hl.stopped c hc ((sim_loop hs hact).1 ▸ hstop)
      exact ⟨slot, subset_searches _ _ _ hmem, hle, (slotsOf_next x j hact).trans hslots⟩
  · obtain ⟨hd, hi⟩ := hdrained s hmem hle
    have hload : x.2.toLoad = [] := by
      rw [hf.load.toLoad, hi]
      exact List.drop_of_length_le (by simp [pcbs])
    have hm := hs.2.1
    cases hre : e.routine with
    | none =>
        rw [hre, Lts.moves_none] at hm
        rwa [hm]
    | some re =>
        rw [hre, Lts.moves_some] at hm
        exact RoutineStep.drained hm (hk.routine hre) hload hd
  · have hfin' : proc ∉ x.2.cpus.finished := fun h => hfin ((sim_ended_mono hs).1 h)
    have href' : proc ∉ x.2.cpus.refused := fun h => href ((sim_ended_mono hs).2 h)
    by_cases hlt : t < x.1.2.1.ticks
    · have hold : s ∈ j.searches := by
        refine (hsearched s hmem).resolve_right fun hnew => ?_
        omega
      exact (runsOf_extends x j e proc).subset
        (hl.ran s hold hle t hst hlt proc hproc hfin' href')
    · obtain ⟨rfl, heq, _⟩ := (sim_ticks hs hf.sim.ld.timer).resolve_left (by omega)
      obtain rfl : t = x.1.2.1.ticks := by omega
      obtain ⟨hd, hi⟩ := hdrained s hmem hle
      obtain ⟨u, hstep, _⟩ := ldLts_device (Lts.moves_some.mp hs.1) (by simp [TimerEvent.device])
      refine hf.ran_of_tick hstep hd ?_ hfin' href'
      rw [hf.load.added, hi, List.take_of_length_le (by simp [pcbs]), List.mem_reverse]
      exact hproc

theorem LastInv.of_run {es : List SimEvent} (hn : 0 < n)
    (hr : ((visitLts n ps codeSize timeSlot).restrict fun _ e => e.NoKill).Run
      (.start ps, .start) es (x, j)) : LastInv n ps x j := by
  generalize hz : (x, j) = z at hr
  induction hr generalizing x j with
  | nil =>
      obtain ⟨rfl, rfl⟩ := Prod.mk.inj hz
      refine ⟨by simp [Journal.start], fun hover => ?_, fun c _ hstop => ?_,
        by simp [Journal.start], by simp [Journal.start]⟩
      · cases hover
      · cases hstop
  | @snoc z w es e hr hs ih =>
      subst hz
      obtain ⟨v, jv⟩ := z
      obtain ⟨⟨hsim, hj⟩, hk⟩ := hs
      have hj : j = nextJournal v jv e := hj
      rw [hj]
      exact (ih rfl).step (SimFacts.of_run hn hr.of_restrict) hsim hk

theorem WorkInv.of_run {es : List SimEvent}
    (hr : ((visitLts n ps codeSize timeSlot).restrict fun _ e => e.NoKill).Run
      (.start ps, .start) es (x, j)) :
    WorkInv codeSize x.2 fun proc => (j.runsOf proc).length := by
  have hinit : WorkInv codeSize (SimState.start ps).2 fun proc =>
      (Journal.start.runsOf proc).length := by
    refine ⟨fun _ => (Nat.zero_min _).symm, fun _ => Nat.zero_le _, fun i proc hmem => ?_,
      fun c proc hheld => ?_, fun _ _ => rfl⟩
    · cases (exclusive_start.ready_live i proc hmem).1
    · cases hheld
  refine (hr.invariant (I := fun z => SimInv n ps z.1 z.2 ∧
    WorkInv codeSize z.1.2 fun proc => (z.2.runsOf proc).length) ?_ ⟨SimInv.start, hinit⟩).2
  rintro ⟨x, j⟩ e ⟨y, j'⟩ ⟨hi, hw⟩ ⟨⟨hs, rfl⟩, hk⟩
  refine ⟨hi.step hs, ?_⟩
  have hm := hs.2.1
  simp only [length_runsOf]
  cases hre : e.routine with
  | none =>
      rw [hre, Lts.moves_none] at hm
      rw [hm]
      exact hw
  | some re =>
      rw [hre, Lts.moves_some] at hm
      exact hw.step hi.exclusive hm (hk.routine hre)

/-! ### The bound -/

/-- Before the first search that finds nothing all CPUs run processes. -/
theorem LastInv.busy (hl : LastInv n ps x j) (hf : SimFacts n ps x j)
    (hruns : RunInv ps codeSize x j) {t : ℕ} (hle : allAdded ps ≤ t) (hlt : t < x.1.2.1.ticks)
    (hsearch : ∀ s ∈ j.searches, allAdded ps ≤ s.2 → t < s.2) (hc : c < n) :
    ListSchedule.Busy Visit.cpu Visit.slot Visit.proc (pcbs ps) j.visits c t := by
  obtain ⟨k, _, hslots⟩ := (hf.sim.cpus c hc).onTime
  have hk : t < k := by
    by_cases hstop : x.2.loc c = .stopped
    · obtain ⟨slot, hmem, hles, hslots'⟩ := hl.stopped c hc hstop
      have hlen := congrArg List.length (hslots.symm.trans hslots')
      simp only [List.length_range] at hlen
      exact hlen ▸ hsearch _ hmem hles
    · exact hlt.trans_le ((hf.sim.cpus c hc).ticks_le hf.sim.ld.timer hslots hstop)
  have hmem : t ∈ j.slotsOf c := by
    rw [hslots]
    exact List.mem_range.mpr hk
  obtain ⟨v, hv, hslot⟩ := List.mem_map.mp hmem
  obtain ⟨hv, hcpu⟩ := List.mem_filter.mp hv
  have hcpu : v.cpu = c := of_decide_eq_true hcpu
  cases hp : v.proc with
  | none =>
      have hnot := hsearch _ (hf.sim.idle v hv hp) (hslot.symm ▸ hle)
      dsimp only at hnot
      omega
  | some q =>
      obtain ⟨i, line, hline, rfl, _⟩ := hruns.arrived q t (mem_runsOf.mpr ⟨v, hv, hp, hslot⟩)
      exact ⟨v, hv, hcpu, hslot, _, List.mem_of_getElem? (pcbs_get hline), hp⟩

end BtlOs
