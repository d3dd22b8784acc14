import BtlOs.Shutdown
import BtlOs.Lib.Counting
import Mathlib.Algebra.BigOperators.Ring.List

/-! # Waiting times (`sched.c`, `os.c`)

How long a process stays in its ready queue.  Each call of `get_proc` that does not dispatch it
lowers `Sched.ahead`, its place in the queue times the bound on bypasses plus the bypasses that are
left.  A CPU calls `get_proc` again when the slots of its process are used up, and as long as a
process waits each call finds one.  So a CPU that has not stopped makes a call in `time_slot` slots,
and the calls bound the slots; while a process waits not all CPUs have stopped. -/

namespace BtlOs

open SchedHeader Counting Sched

/-! ### Places in a list -/

section places

variable {α : Type} [DecidableEq α]

theorem idxOf_le_of_sublist {a : α} {l l' : List α} (h : l'.Sublist l) (hl : l.Nodup) (ha : a ∈ l') :
    l'.idxOf a ≤ l.idxOf a := by
  induction h with
  | slnil => exact Nat.le_refl _
  | @cons l' l b hsub ih =>
      obtain ⟨hb, hl⟩ := List.nodup_cons.mp hl
      have hne : b ≠ a := fun he => hb (he ▸ hsub.subset ha)
      rw [List.idxOf_cons_ne _ hne]
      exact (ih hl ha).trans (Nat.le_succ _)
  | @cons_cons l' l b hsub ih =>
      obtain ⟨_, hl⟩ := List.nodup_cons.mp hl
      by_cases he : b = a
      · subst he
        simp
      · have ha' : a ∈ l' := (List.mem_cons.mp ha).resolve_left fun h => he h.symm
        rw [List.idxOf_cons_ne _ he, List.idxOf_cons_ne _ he]
        exact Nat.succ_le_succ (ih hl ha')

end places

section waits

variable [SchedHeader]

/-! ### One call of `get_proc` -/

/-- The calls that may pass queue `j` over. -/
def passLimit (j : ℕ) : ℕ :=
  ∑ i ∈ (Finset.range maxPrio).erase j, (maxPrio - i) + ∑ i ∈ Finset.range j, (maxPrio - i)

namespace Sched

variable {s : Sched} {proc : Pcb}

theorem SlotBounded.rank_le (h : SlotBounded s) (j : ℕ) : s.rank j ≤ passLimit j := by
  have hcounted : Counted s fun i => maxPrio - i - s.slot i := by
    intro i
    have := h i
    dsimp only
    omega
  exact hcounted.rank_le j

/-- A bound on the calls before the one that dispatches the process. -/
def ahead (s : Sched) (proc : Pcb) : ℕ :=
  (s.ready proc.prio).idxOf proc * (passLimit proc.prio + 1) + s.rank proc.prio

/-- The queue of the process was served, and the process is still there. -/
theorem ahead_served_lt {s' : Sched} {p : Pcb} {rest : List Pcb} (hb : SlotBounded s')
    (hnodup : (s.ready proc.prio).Nodup) (hcons : s.ready proc.prio = p :: rest)
    (hready : s'.ready proc.prio = rest) (hmem : proc ∈ s'.ready proc.prio) :
    s'.ahead proc < s.ahead proc := by
  rw [hready] at hmem
  rw [hcons] at hnodup
  have hne : p ≠ proc := fun he => (List.nodup_cons.mp hnodup).1 (he ▸ hmem)
  have hrank := hb.rank_le proc.prio
  unfold ahead
  rw [hcons, hready, List.idxOf_cons_ne _ hne, Nat.succ_mul]
  omega

/-- A call that does not dispatch the process brings it nearer. -/
theorem ahead_getProc_lt (hprio : proc.prio < maxPrio) (hb : SlotBounded s)
    (hnodup : (s.ready proc.prio).Nodup) (hmem : proc ∈ s.ready proc.prio)
    (hmem' : proc ∈ s.getProc.2.ready proc.prio) : s.getProc.2.ahead proc < s.ahead proc := by
  have hready : s.ready proc.prio ≠ [] := List.ne_nil_of_mem hmem
  have hpass : s.servedQueue ≠ some proc.prio → s.getProc.2.rank proc.prio < s.rank proc.prio :=
    fun hserved => rank_getProc_lt hprio ⟨hready, hserved⟩
  have hstep := getStep s
  unfold getProc getMlqProc at *
  unfold servedQueue at hpass
  generalize (getLoop 2 s).1 = r at hstep hpass
  generalize (getLoop 2 s).2 = s' at hstep hpass hmem'
  -- another queue is served: the place stays, and one bypass less is left
  have hother : ∀ (t : Sched) (i : ℕ) (p : Pcb) (rest : List Pcb), t.ready = s.ready →
      t.ready i = p :: rest → i ≠ proc.prio → s' = t.serve i p →
      s'.rank proc.prio < s.rank proc.prio → s'.ahead proc < s.ahead proc := by
    intro t i p rest ht hcons hne hs' hrank
    have hsame : s'.ready proc.prio = s.ready proc.prio := by
      rw [hs', ready_serve hcons, Function.update_of_ne hne.symm, ht]
    unfold ahead
    rw [hsame]
    omega
  cases hstep with
  | @served i p rest hi hslot hcons _ =>
      by_cases he : i = proc.prio
      · subst he
        refine ahead_served_lt (hb.serve _ _) hnodup hcons ?_ hmem'
        rw [ready_serve hcons, Function.update_self]
      · exact hother s i p rest rfl hcons he rfl (hpass fun h => he (Option.some.inj h))
  | @refilled i p rest hi hcons _ _ =>
      by_cases he : i = proc.prio
      · subst he
        refine ahead_served_lt ((slotBounded_resetSlots s).serve _ _) hnodup hcons ?_ hmem'
        rw [ready_serve (s := s.resetSlots) hcons, Function.update_self]
      · exact hother s.resetSlots i p rest rfl hcons he rfl
          (hpass fun h => he (Option.some.inj h))
  | idle hnil => exact absurd (hnil _ hprio) hready

theorem ahead_le_of_slot {s' : Sched} (hslot : s'.slot = s.slot)
    (hidx : (s'.ready proc.prio).idxOf proc ≤ (s.ready proc.prio).idxOf proc) :
    s'.ahead proc ≤ s.ahead proc := by
  unfold ahead rank
  rw [hslot]
  exact Nat.add_le_add_right (Nat.mul_le_mul_right _ hidx) _

theorem ahead_requeue (q : Pcb) (hmem : proc ∈ s.ready proc.prio) :
    (s.requeue q).ahead proc ≤ s.ahead proc := by
  refine ahead_le_of_slot rfl ?_
  rw [ready_requeue]
  by_cases he : proc.prio = q.prio
  · rw [← he, Function.update_self]
    split_ifs
    · exact Nat.le_refl _
    · rw [List.idxOf_append_of_mem hmem]
  · rw [Function.update_of_ne he]

end Sched

/-! ### The steps of the CPUs -/

/-- The CPU that calls `get_proc`. -/
def RoutineEvent.fetch : RoutineEvent → Option ℕ
  | .get c => some c
  | .reload c => some c
  | _ => none

variable {n c : ℕ} {codeSize : Pcb → ℕ} {timeSlot : ℤ} {m m' : Machine} {re : RoutineEvent}
  {proc : Pcb}

/-- `killall` removes entries of the ready queues, and no more. -/
theorem Procs.killall_sched (codeSize : Pcb → ℕ) (procName : String) (s : Procs) :
    (s.killall codeSize procName).cpus.sched.slot = s.cpus.sched.slot ∧
      ∀ i, ((s.killall codeSize procName).ready i).Sublist (s.ready i) := by
  have hone : ∀ (i : ℕ) (s : Procs), (s.killQueue i procName).cpus.sched.slot = s.cpus.sched.slot ∧
      ∀ k, ((s.killQueue i procName).ready k).Sublist (s.ready k) := by
    intro i s
    unfold killQueue
    cases (s.cpus.sched.mlqReadyQueue i).scan procName with
    | none => exact ⟨rfl, fun _ => List.Sublist.refl _⟩
    | some victim =>
        refine ⟨rfl, fun k => ?_⟩
        show ((Sched.mk _ _ _).ready k).Sublist _
        rw [ready_update]
        by_cases he : k = i
        · subst he
          rw [Function.update_self, QueueT.toList_dequeueRunning]
          exact List.eraseP_sublist
        · rw [Function.update_of_ne he]
          exact List.Sublist.refl _
  have hloop : ∀ (k i : ℕ) (s : Procs),
      (killQueues procName i k s).cpus.sched.slot = s.cpus.sched.slot ∧
        ∀ i', ((killQueues procName i k s).ready i').Sublist (s.ready i') := by
    intro k
    induction k with
    | zero => exact fun _ _ => ⟨rfl, fun _ => List.Sublist.refl _⟩
    | succ k ih =>
        intro i s
        obtain ⟨hslot, hsub⟩ := hone i s
        obtain ⟨hslot', hsub'⟩ := ih (i + 1) (s.killQueue i procName)
        exact ⟨hslot'.trans hslot, fun i' => (hsub' i').trans (hsub i')⟩
  have hres := hloop maxPrio 0 (s.stopRunning codeSize procName)
  unfold ready at hres
  rwa [stopRunning_cpus] at hres

theorem RoutineStep.slotBounded (hs : RoutineStep n codeSize timeSlot m re m')
    (hb : SlotBounded m.cpus.sched) : SlotBounded m'.cpus.sched := by
  cases hs with
  | get _ _ _ => exact hb.step .get
  | reload _ _ _ => exact hb.step .get
  | @killall _ p procName _ _ _ _ =>
      intro i
      have hslot := (Procs.killall_sched codeSize procName (m.advance codeSize p).toProcs).1
      show ((m.advance codeSize p).toProcs.killall codeSize procName).cpus.sched.slot i ≤ _
      rw [hslot]
      exact hb i
  | _ => exact hb

/-- A step that leaves the process in its queue brings it nearer if it is a call of `get_proc`, and
never moves it away. -/
theorem RoutineStep.ahead_le (hs : RoutineStep n codeSize timeSlot m re m') (hx : Exclusive m.cpus)
    (hb : SlotBounded m.cpus.sched) (hprio : proc.prio < maxPrio)
    (hmem : proc ∈ m.ready proc.prio) (hmem' : proc ∈ m'.ready proc.prio) :
    m'.cpus.sched.ahead proc + (if re.fetch.isSome then 1 else 0) ≤ m.cpus.sched.ahead proc := by
  have hnodup := hx.nodup proc.prio
  cases hs with
  | load _ _ _ => exact ahead_requeue _ hmem
  | put _ _ _ _ _ => exact ahead_requeue _ hmem
  | get _ _ _ => exact Nat.succ_le_of_lt (ahead_getProc_lt hprio hb hnodup hmem hmem')
  | reload _ _ _ => exact Nat.succ_le_of_lt (ahead_getProc_lt hprio hb hnodup hmem hmem')
  | @killall _ p procName _ _ _ _ =>
      obtain ⟨hslot, hsub⟩ := Procs.killall_sched codeSize procName
        (m.advance codeSize p).toProcs
      exact ahead_le_of_slot hslot (idxOf_le_of_sublist (hsub proc.prio) hnodup hmem')
  | _ => exact Nat.le_refl _

/-! ### The slots of a CPU -/

/-- `time_left` between two iterations, where each dispatch gives `q` slots. -/
structure TimeOk (q : ℕ) (m : Machine) (c : ℕ) : Prop where
  nonneg : 0 ≤ m.timeLeft c
  le : m.timeLeft c ≤ q
  idle : m.cpus.held c = none → m.timeLeft c = 0

/-- The visits that a CPU may make before its next call of `get_proc`. -/
def Machine.slotsLeft (q : ℕ) (m : Machine) (c : ℕ) : ℕ :=
  match m.cpus.held c with
  | none => if m.loc c = .recheck then 1 else 0
  | some _ => if m.loc c = .recheck ∧ m.timeLeft c = 0 then q else (m.timeLeft c).toNat

theorem RoutineStep.timeLeft_frame (hs : RoutineStep n codeSize timeSlot m re m')
    (hne : re.actor ≠ some c) : m'.timeLeft c = m.timeLeft c := by
  have hother : ∀ {c' : ℕ}, some c' ≠ some c → c ≠ c' := by
    rintro c' hne rfl
    exact hne rfl
  cases hs with
  | finish _ _ _ _ => exact Function.update_of_ne (hother hne) _ _
  | run _ _ _ => exact Function.update_of_ne (hother hne) _ _
  | killall _ _ _ _ => exact Function.update_of_ne (hother hne) _ _
  | _ => rfl

/-- A CPU runs its process for one slot. -/
theorem RoutineStep.ran (hs : RoutineStep n codeSize timeSlot m re m')
    (hv : re.visit m = some (c, some proc)) : m.loc c = .recheck ∧ m.cpus.held c = some proc ∧
      m'.loc c = .slot ∧ m'.cpus.held c = some proc ∧
      m'.timeLeft c = (if m.timeLeft c = 0 then timeSlot else m.timeLeft c) - 1 := by
  obtain ⟨hloc, hheld⟩ := hs.visit_held hv
  refine ⟨hloc, hheld, ?_⟩
  cases hs with
  | get _ _ _ =>
      simp only [RoutineEvent.visit] at hv
      split_ifs at hv with hget
      cases hv
  | wait _ _ _ _ => cases hv
  | run _ _ _ =>
      obtain rfl := congrArg Prod.fst (Option.some.inj hv)
      exact ⟨Function.update_self .., hheld, Function.update_self ..⟩
  | @killall c' p procName _ _ _ _ =>
      obtain rfl := congrArg Prod.fst (Option.some.inj hv)
      have hsame : ((m.advance codeSize p).toProcs.killall codeSize procName).cpus.held c' =
          m.cpus.held c' := congrFun (Procs.killall_held procName _) c'
      exact ⟨Function.update_self .., hsame.trans hheld, Function.update_self ..⟩
  | _ => cases hv

theorem RoutineStep.timeOk {q : ℕ} (hs : RoutineStep n codeSize q m re m') (hq : 0 < q)
    (ht : TimeOk q m c) : TimeOk q m' c := by
  have hnonneg := ht.nonneg
  have hle := ht.le
  by_cases hact : re.actor = some c
  · by_cases hv : ∃ p, re.visit m = some (c, some p)
    · obtain ⟨p, hv⟩ := hv
      obtain ⟨_, _, _, hheld, htime⟩ := hs.ran hv
      refine ⟨?_, ?_, fun hnone => by simp [hheld] at hnone⟩
      · rw [htime]
        split_ifs <;> omega
      · rw [htime]
        split_ifs <;> omega
    · cases hs with
      | load _ _ _ => cases hact
      | loaded _ => cases hact
      | get _ _ hheld =>
          obtain rfl := Option.some.inj hact
          exact ⟨hnonneg, hle, fun _ => ht.idle hheld⟩
      | @finish c' _ _ _ _ _ =>
          obtain rfl := Option.some.inj hact
          have hzero : Function.update m.timeLeft c' 0 c' = 0 := Function.update_self ..
          exact ⟨hzero.ge, hzero.le.trans (Int.natCast_nonneg q), fun _ => hzero⟩
      | put _ _ _ _ hzero =>
          obtain rfl := Option.some.inj hact
          exact ⟨hnonneg, hle, fun _ => hzero⟩
      | reload _ _ hheld =>
          obtain rfl := Option.some.inj hact
          exact ⟨hnonneg, hle, fun _ => ht.idle hheld⟩
      | @run c' p _ _ hheld =>
          obtain rfl := Option.some.inj hact
          exact absurd ⟨p, congrArg (fun r => some (c', r)) hheld⟩ hv
      | @killall c' p _ _ _ hheld _ =>
          obtain rfl := Option.some.inj hact
          exact absurd ⟨p, congrArg (fun r => some (c', r)) hheld⟩ hv
      | _ => exact ⟨hnonneg, hle, ht.idle⟩
  · have htime := hs.timeLeft_frame hact
    obtain ⟨_, hheld⟩ := hs.frame hact
    exact ⟨htime ▸ hnonneg, htime ▸ hle, fun hnone => htime ▸ ht.idle (hheld ▸ hnone)⟩

/-- A visit uses up a slot, and a call of `get_proc` that finds a process gives `q` slots. -/
theorem RoutineStep.slotsLeft_le {q : ℕ} (hs : RoutineStep n codeSize q m re m') (hq : 0 < q)
    (ht : TimeOk q m c) (hfound : m.cpus.sched.getProc.1 ≠ none) :
    m'.slotsLeft q c + (if (re.visit m).map Prod.fst = some c then 1 else 0) ≤
      m.slotsLeft q c + if re.fetch = some c then q else 0 := by
  have hnonneg := ht.nonneg
  by_cases hact : re.actor = some c
  · by_cases hv : ∃ p, re.visit m = some (c, some p)
    · obtain ⟨p, hv⟩ := hv
      obtain ⟨hloc, hheld, hloc', hheld', htime⟩ := hs.ran hv
      refine Nat.le_trans ?_ (Nat.le_add_right _ _)
      by_cases hzero : m.timeLeft c = 0
      · simp [Machine.slotsLeft, hloc, hheld, hloc', hheld', htime, hv, hzero]
        omega
      · simp [Machine.slotsLeft, hloc, hheld, hloc', hheld', htime, hv, hzero]
        omega
    · obtain ⟨found, hget⟩ := Option.ne_none_iff_exists'.mp hfound
      cases hs with
      | load _ _ _ => cases hact
      | loaded _ => cases hact
      | get _ _ hheld =>
          obtain rfl := Option.some.inj hact
          simp [Machine.slotsLeft, Machine.goto, Machine.fetch, RoutineEvent.visit,
            RoutineEvent.fetch, hget, ht.idle hheld]
      | reload _ _ hheld =>
          obtain rfl := Option.some.inj hact
          simp [Machine.slotsLeft, Machine.goto, Machine.fetch, RoutineEvent.visit,
            RoutineEvent.fetch, hget, ht.idle hheld]
      | finish _ _ _ _ =>
          obtain rfl := Option.some.inj hact
          simp [Machine.slotsLeft, Machine.goto, Cpus.complete, RoutineEvent.visit,
            RoutineEvent.fetch]
      | put _ _ _ _ _ =>
          obtain rfl := Option.some.inj hact
          simp [Machine.slotsLeft, Machine.goto, RoutineEvent.visit, RoutineEvent.fetch]
      | keep _ hloc hheld _ hleft =>
          obtain rfl := Option.some.inj hact
          simp [Machine.slotsLeft, Machine.goto, RoutineEvent.visit, RoutineEvent.fetch, hheld,
            hloc, hleft]
      | stop _ _ hheld _ =>
          obtain rfl := Option.some.inj hact
          simp [Machine.slotsLeft, Machine.goto, RoutineEvent.visit, RoutineEvent.fetch, hheld]
      | wait _ hloc hheld _ =>
          obtain rfl := Option.some.inj hact
          simp [Machine.slotsLeft, Machine.goto, RoutineEvent.visit, RoutineEvent.fetch, hheld,
            hloc]
      | @run c' p _ _ hheld =>
          obtain rfl := Option.some.inj hact
          exact absurd ⟨p, congrArg (fun r => some (c', r)) hheld⟩ hv
      | @killall c' p _ _ _ hheld _ =>
          obtain rfl := Option.some.inj hact
          exact absurd ⟨p, congrArg (fun r => some (c', r)) hheld⟩ hv
      | @ret c' _ hloc =>
          obtain rfl := Option.some.inj hact
          simp [Machine.slotsLeft, Machine.goto, RoutineEvent.visit, RoutineEvent.fetch, hloc]
  · obtain ⟨hloc, hheld⟩ := hs.frame hact
    have htime := hs.timeLeft_frame hact
    have hvisit : (re.visit m).map Prod.fst ≠ some c := by
      intro hfst
      obtain ⟨v, hv, rfl⟩ := Option.map_eq_some_iff.mp hfst
      exact hact (RoutineEvent.visit_actor hv)
    have hsame : m'.slotsLeft q c = m.slotsLeft q c := by
      unfold Machine.slotsLeft
      rw [hloc, hheld, htime]
    rw [hsame, if_neg hvisit]
    exact Nat.le_add_right _ _

theorem Machine.slotsLeft_le {q : ℕ} (hq : 0 < q) (ht : TimeOk q m c) : m.slotsLeft q c ≤ q := by
  have hle := ht.le
  unfold slotsLeft
  cases m.cpus.held c with
  | none =>
      dsimp only
      split_ifs <;> omega
  | some p =>
      dsimp only
      split_ifs <;> omega

/-! ### The steps of the simulator -/

/-- The CPU that calls `get_proc`. -/
def SimEvent.fetch (e : SimEvent) : Option ℕ := e.routine.bind RoutineEvent.fetch

variable {ps : List LdProcess} {x y : SimState} {j j' : Journal} {e : SimEvent} {es : List SimEvent}
  {q : ℕ}

theorem length_slotsOf (x : SimState) (j : Journal) (e : SimEvent) (c : ℕ) :
    ((nextJournal x j e).slotsOf c).length = (j.slotsOf c).length +
      if (e.routine.bind fun re => re.visit x.2).map Prod.fst = some c then 1 else 0 := by
  cases e with
  | cpu re =>
      cases hv : re.visit x.2 with
      | none => simp [Journal.slotsOf, nextJournal, SimEvent.routine, hv]
      | some v =>
          by_cases hc : v.1 = c
          · simp [Journal.slotsOf, nextJournal, SimEvent.routine, hv, hc]
          · simp [Journal.slotsOf, nextJournal, SimEvent.routine, hv, hc]
  | _ => simp [nextJournal, SimEvent.routine, RoutineEvent.visit]

/-- The counters of the scheduler and of the CPUs. -/
structure CountersOk (q : ℕ) (m : Machine) : Prop where
  slots : SlotBounded m.cpus.sched
  time : ∀ c, TimeOk q m c

theorem CountersOk.step (hk : CountersOk q x.2) (hq : 0 < q)
    (hs : (simLts n ps codeSize q).step x e y) : CountersOk q y.2 :=
  hs.2.1.keeps (I := CountersOk q) (fun _ _ hm =>
    ⟨RoutineStep.slotBounded hm hk.slots, fun c => RoutineStep.timeOk hm hq (hk.time c)⟩) hk

theorem CountersOk.start (ps : List LdProcess) (q : ℕ) : CountersOk q (SimState.start ps).2 :=
  ⟨slotBounded_resetSlots Sched.zero, fun _ => ⟨Int.le_refl 0, Int.natCast_nonneg q, fun _ => rfl⟩⟩

theorem CountersOk.of_run (hq : 0 < q)
    (hr : (visitLts n ps codeSize q).Run (.start ps, .start) es (x, j)) : CountersOk q x.2 := by
  refine hr.invariant (I := fun x => CountersOk q x.1.2) ?_ (CountersOk.start ps q)
  exact fun _ _ _ hk hs => hk.step hq hs.1

theorem sim_waiting (hs : (simLts n ps codeSize q).step x e y) (hq : 0 < q)
    (hx : Exclusive x.2.cpus) (hk : CountersOk q x.2) (hprio : proc.prio < maxPrio)
    (hmem : proc ∈ x.2.ready proc.prio) (hmem' : proc ∈ y.2.ready proc.prio) (j : Journal) :
    y.2.cpus.sched.ahead proc + (if e.fetch.isSome then 1 else 0) ≤ x.2.cpus.sched.ahead proc ∧
      ∀ c, y.2.slotsLeft q c + ((nextJournal x j e).slotsOf c).length ≤
        x.2.slotsLeft q c + (j.slotsOf c).length + if e.fetch = some c then q else 0 := by
  have hfound : x.2.cpus.sched.getProc.1 ≠ none := by
    intro hnone
    have hnil : x.2.ready proc.prio = [] := getProc_eq_none.mp hnone proc.prio hprio
    simp [hnil] at hmem
  have hm := hs.2.1
  have hlen := length_slotsOf x j e
  unfold SimEvent.fetch
  cases hre : e.routine with
  | none =>
      rw [hre, Lts.moves_none] at hm
      refine ⟨by simp [hm], fun c => ?_⟩
      rw [hlen c, hre, hm]
      simp
  | some re =>
      rw [hre, Lts.moves_some] at hm
      refine ⟨RoutineStep.ahead_le hm hx hk.slots hprio hmem hmem', fun c => ?_⟩
      have hleft := RoutineStep.slotsLeft_le hm hq (hk.time c) hfound
      rw [hlen c, hre]
      simp only [Option.bind_some]
      omega

theorem run_waiting (hq : 0 < q) (hprio : proc.prio < maxPrio) (hi : SimInv n ps x j)
    (hk : CountersOk q x.2)
    (hrun : ((visitLts n ps codeSize q).restrict fun z _ => proc ∈ z.1.2.ready proc.prio).Run
      (x, j) es (y, j')) (hmem : proc ∈ y.2.ready proc.prio) :
    y.2.cpus.sched.ahead proc + es.countP (fun e => e.fetch.isSome) ≤ x.2.cpus.sched.ahead proc ∧
      ∀ c, y.2.slotsLeft q c + (j'.slotsOf c).length ≤ x.2.slotsLeft q c + (j.slotsOf c).length +
        q * es.countP fun e => e.fetch = some c := by
  generalize hz : (y, j') = z at hrun
  induction hrun generalizing y j' with
  | nil =>
      obtain ⟨rfl, rfl⟩ := Prod.mk.inj hz
      exact ⟨by simp, fun c => by simp⟩
  | @snoc z w es e hrun hs ih =>
      subst hz
      obtain ⟨v, jv⟩ := z
      obtain ⟨⟨hsim, hj⟩, hmemv⟩ := hs
      have hsim : (simLts n ps codeSize q).step v e y := hsim
      have hmemv : proc ∈ v.2.ready proc.prio := hmemv
      obtain ⟨hahead, hleft⟩ := ih hmemv rfl
      have hinv : SimInv n ps v jv ∧ CountersOk q v.2 := by
        refine hrun.of_restrict.invariant
          (I := fun z => SimInv n ps z.1 z.2 ∧ CountersOk q z.1.2) ?_ ⟨hi, hk⟩
        rintro ⟨x, j⟩ e ⟨y, j'⟩ ⟨hi, hk⟩ ⟨hs, rfl⟩
        exact ⟨hi.step hs, hk.step hq hs⟩
      obtain ⟨hahead', hleft'⟩ :=
        sim_waiting hsim hq hinv.1.exclusive hinv.2 hprio hmemv hmem jv
      have hj : j' = nextJournal v jv e := hj
      refine ⟨?_, fun c => ?_⟩
      · rw [List.countP_append, List.countP_singleton]
        omega
      · have h₁ := hleft c
        have h₂ := hleft' c
        rw [List.countP_append, List.countP_singleton, Nat.mul_add, hj]
        by_cases hf : e.fetch = some c
        · simp only [hf, if_true, decide_true, Nat.mul_one] at h₂ ⊢
          omega
        · simp only [hf, if_false, decide_false, Bool.false_eq_true, Nat.mul_zero] at h₂ ⊢
          omega

/-! ### Slots -/

/-- The CPUs that have not left their loops. -/
def active (n : ℕ) (m : Machine) : List ℕ := (List.range n).filter fun c => m.loc c ≠ .stopped

theorem sum_fetch_le (es : List SimEvent) (n : ℕ) (m : Machine) :
    ((active n m).map fun c => es.countP fun e => e.fetch = some c).sum ≤
      es.countP fun e => e.fetch.isSome := by
  have hnodup : ((active n m).map some).Nodup :=
    (List.nodup_range.filter _).map (Option.some_injective ℕ)
  have hsum := sum_countP hnodup SimEvent.fetch es
  rw [List.map_map] at hsum
  refine hsum.le.trans (List.countP_mono_left fun e _ he => ?_)
  simp only [decide_eq_true_eq] at he
  obtain ⟨c, _, hc⟩ := List.mem_map.mp he
  rw [← hc]
  rfl

/-- While a process waits not all CPUs have stopped. -/
theorem exists_active (hn : 0 < n)
    (hr : (visitLts n ps codeSize q).Run (.start ps, .start) es (x, j))
    (hprio : proc.prio < maxPrio) (hmem : proc ∈ x.2.ready proc.prio) :
    0 < (active n x.2).length := by
  by_contra hnone
  have hnil : active n x.2 = [] := List.eq_nil_of_length_eq_zero (by omega)
  have hstop : ∀ c < n, x.2.loc c = .stopped := by
    intro c hc
    have hout := List.filter_eq_nil_iff.mp hnil c (List.mem_range.mpr hc)
    simpa using hout
  have hl := (LoadInv.of_run hr).2
  have hu := ShutInv.of_run hn hr
  have hempty := (hu.empty fun c hc => .inr (hstop c hc)).resolve_right
    (hu.not_justAdded hl hn hstop)
  simp [hempty proc.prio hprio] at hmem

/-- What is known while a process waits: some CPU works, and the slots are bounded by the place of
the process, in proportion to the CPUs at work. -/
structure WaitBound (n q place prio : ℕ) (m : Machine) (slots : ℕ) : Prop where
  working : 0 < (active n m).length
  slots_le : (active n m).length * slots ≤
    (active n m).length * (q + 1) + q * ((place + 1) * (passLimit prio + 1))

/-- **Waiting times**: while a process waits in its queue, for any number of CPUs, every
interleaving, and programs with or without `killall`. -/
theorem dispatched_in_time {es₀ : List SimEvent} (hn : 0 < n) (hq : 0 < q)
    (hr : (visitLts n ps codeSize q).Run (.start ps, .start) es₀ (x, j))
    (hrun : ((visitLts n ps codeSize q).restrict fun z _ => proc ∈ z.1.2.ready proc.prio).Run
      (x, j) es (y, j')) (hmem : proc ∈ y.2.ready proc.prio) :
    WaitBound n q ((x.2.ready proc.prio).idxOf proc) proc.prio y.2
      (y.1.2.1.ticks - x.1.2.1.ticks) := by
  have hr' : (visitLts n ps codeSize q).Run (.start ps, .start) (es₀ ++ es) (y, j') :=
    hr.append hrun.of_restrict
  have hi := SimInv.of_run hr
  have hi' := SimInv.of_run hr'
  have hk := CountersOk.of_run hq hr
  have hprio : proc.prio < maxPrio := by
    obtain ⟨ks, hcpus⟩ := routine_run_cpus (Lts.Run.snd hr'.of_withGhost)
    exact prio_lt_of_run hcpus proc (hi'.exclusive.ready_live _ proc hmem).1
  obtain ⟨hahead, hleft⟩ := run_waiting hq hprio hi hk hrun hmem
  refine ⟨exists_active hn hr' hprio hmem, ?_⟩
  -- a CPU at work has visited all slots but the last one
  have hslots : ∀ c ∈ active n y.2, y.1.2.1.ticks - x.1.2.1.ticks ≤
      q + 1 + q * es.countP fun e => e.fetch = some c := by
    intro c hc
    obtain ⟨hmemc, hstop⟩ := List.mem_filter.mp hc
    have hlt : c < n := List.mem_range.mp hmemc
    obtain ⟨k, _, hvis⟩ := (hi.cpus c hlt).onTime
    obtain ⟨k', _, hvis'⟩ := (hi'.cpus c hlt).onTime
    have hle := hi.slots_le hvis
    have hge := (hi'.cpus c hlt).ticks_le hi'.ld.timer hvis' (of_decide_eq_true hstop)
    have hbound := hleft c
    have hsl := x.2.slotsLeft_le hq (hk.time c)
    rw [hvis, hvis', List.length_range, List.length_range] at hbound
    omega
  have hcalls := sum_fetch_le es n y.2
  have hplace : x.2.cpus.sched.ahead proc ≤
      ((x.2.ready proc.prio).idxOf proc + 1) * (passLimit proc.prio + 1) := by
    have hrank := hk.slots.rank_le proc.prio
    unfold Sched.ahead
    rw [Nat.succ_mul]
    exact Nat.add_le_add_left (hrank.trans (Nat.le_succ _)) _
  calc (active n y.2).length * (y.1.2.1.ticks - x.1.2.1.ticks)
      ≤ ((active n y.2).map fun c => q + 1 + q * es.countP fun e => e.fetch = some c).sum := by
        have hsum := List.card_nsmul_le_sum
          ((active n y.2).map fun c => q + 1 + q * es.countP fun e => e.fetch = some c)
          (y.1.2.1.ticks - x.1.2.1.ticks) (by simpa using hslots)
        simpa using hsum
    _ = (active n y.2).length * (q + 1) +
          q * ((active n y.2).map fun c => es.countP fun e => e.fetch = some c).sum := by
        rw [sum_map_add, List.sum_map_mul_left]
        simp
    _ ≤ (active n y.2).length * (q + 1) +
          q * (((x.2.ready proc.prio).idxOf proc + 1) * (passLimit proc.prio + 1)) := by
        apply Nat.add_le_add_left
        apply Nat.mul_le_mul_left
        omega

end waits

/-! ### A run -/

/-- The third process of the run. -/
def thirdPcb : Pcb := ⟨3, 1, storedPath "p2"⟩

/-- The process waits from slot 2 on, and has not been dispatched in slot 5. -/
theorem dispatched_in_time_sample : ∃ x y : @SimState sched22 × Journal,
    threeLts.Run threeStart (threeRun.take 46) x ∧
    (threeLts.restrict fun z _ =>
      thirdPcb ∈ @Procs.ready sched22 (@Machine.toProcs sched22 z.1.2) 1).Run x
        ((threeRun.drop 46).take 57) y ∧
    y.1.1.2.1.ticks - x.1.1.2.1.ticks = 3 ∧ @WaitBound sched22 2 4 0 1 y.1.2 3 := by
  let := sched22
  obtain ⟨x, j, hr, hx⟩ := threeRun_reach 46
    (P := fun z => (z.1.2.ready 1).idxOf thirdPcb = 0 ∧ ((Lts.replay (Lts.guarded threeNext
      fun z _ => thirdPcb ∈ z.1.2.ready 1) z ((threeRun.drop 46).take 57)).any fun y =>
        thirdPcb ∈ y.1.2.ready 1 ∧ y.1.1.2.1.ticks - z.1.1.2.1.ticks = 3) = true)
    (by decide +kernel)
  have hplace : (x.2.ready thirdPcb.prio).idxOf thirdPcb = 0 := hx.1
  obtain ⟨⟨y, j'⟩, hs, hmem⟩ := (Option.any_eq_true _ _).mp hx.2
  obtain ⟨hmem, hticks⟩ := of_decide_eq_true hmem
  have hrun : (threeLts.restrict fun z _ => thirdPcb ∈ z.1.2.ready thirdPcb.prio).Run (x, j)
      ((threeRun.drop 46).take 57) (y, j') :=
    Lts.Run.of_replay_guarded (Lts.withGhost_of_nextGhost simStep_of_next) hs
  have hbound := dispatched_in_time (q := 4) (by decide) (by decide) hr hrun hmem
  rw [hplace, hticks] at hbound
  exact ⟨(x, j), (y, j'), hr, hrun, hticks, hbound⟩

end BtlOs
