import BtlOs.Completion
import BtlOs.Lib.Rank
import Mathlib.Algebra.BigOperators.Group.Finset.Basic
import Mathlib.Algebra.Order.BigOperators.Group.Finset

/-! # Progress (`timer.c`, `os.c`)

No interleaving keeps the clock from ticking: between two ticks each thread makes a bounded number
of steps, and until the timer has ended some thread can make one.  The calls of `run` return here; a
CPU whose call does not return takes the others with it, since the barrier does not open without it.

The rank of a state counts the steps that the timer and each device have left before the next
tick. -/

namespace BtlOs

open SchedHeader

/-! ### The rank -/

/-- The steps that a thread has left in a slot, where `work` of them are outside of `next_slot`. -/
def threadRank (loc : Loc) (done : Bool) (work : ℕ) : ℕ :=
  match loc with
  | .outside => work
  | .inside => if done then 1 else 7
  | .detached => 0

def CpuLoc.work : CpuLoc → ℕ
  | .top => 5
  | .reload => 4
  | .recheck => 3
  | .slot => 2
  | .stopped => 2

def LdLoc.work : LdLoc → ℕ
  | .top => 6
  | .test => 5
  | .due => 4
  | _ => 2

/-- The steps of the timer, and those of the devices whose flags it will clear. -/
def Phase.rank (n : ℕ) : Phase → ℕ
  | .head => n + 1
  | .wait temp _ _ => n - temp
  | .release temp _ _ => 8 * (n - temp) + n + 2
  | .exited => 0

theorem threadRank_le (loc : Loc) (done : Bool) {work : ℕ} (hw : work ≤ 7) :
    threadRank loc done work ≤ 7 := by
  cases loc with
  | outside => exact hw
  | inside =>
      simp only [threadRank]
      split_ifs <;> omega
  | detached => exact Nat.zero_le _

theorem CpuLoc.work_le (loc : CpuLoc) : loc.work ≤ 5 := by cases loc <;> decide

theorem LdLoc.work_le (loc : LdLoc) : loc.work ≤ 6 := by cases loc <;> decide

theorem threadRank_clear (loc : Loc) (done : Bool) (work : ℕ) :
    threadRank loc false work ≤ threadRank loc done work + 6 := by
  cases loc with
  | inside => cases done <;> simp [threadRank]
  | _ => simp [threadRank]

theorem sum_of_one {n cpu k l : ℕ} {f g : ℕ → ℕ} (hcpu : cpu < n)
    (hother : ∀ c < n, c ≠ cpu → g c = f c) (hone : g cpu + k ≤ f cpu + l) :
    ∑ c ∈ Finset.range n, g c + k ≤ ∑ c ∈ Finset.range n, f c + l := by
  have hmem := Finset.mem_range.mpr hcpu
  have hrest : ∑ c ∈ (Finset.range n).erase cpu, g c = ∑ c ∈ (Finset.range n).erase cpu, f c := by
    refine Finset.sum_congr rfl fun c hc => ?_
    obtain ⟨hne, hc⟩ := Finset.mem_erase.mp hc
    exact hother c (Finset.mem_range.mp hc) hne
  rw [← Finset.add_sum_erase _ g hmem, ← Finset.add_sum_erase _ f hmem]
  omega

/-- A device enters `next_slot`, leaves it or detaches: its own rank falls. -/
theorem threadRank_device {n d : ℕ} {t t' : Timer} {te : TimerEvent} (hs : TimerStep n t te t')
    (hdev : te.device = some d) : t'.phase = t.phase ∧ t'.timerStop = t.timerStop ∧
      ∀ k, k ≠ d → t'.loc k = t.loc k ∧ (t'.dev k).done = (t.dev k).done := by
  cases hs with
  | setDone _ _ =>
      obtain rfl := Option.some.inj hdev
      refine ⟨rfl, rfl, fun k hk => ?_⟩
      simp [Timer.setDone, Timer.goto, hk]
  | ret _ _ _ =>
      obtain rfl := Option.some.inj hdev
      refine ⟨rfl, rfl, fun k hk => ?_⟩
      simp [Timer.goto, hk]
  | detach _ _ =>
      obtain rfl := Option.some.inj hdev
      refine ⟨rfl, rfl, fun k hk => ?_⟩
      simp [Timer.setFsh, Timer.goto, hk]
  | _ => cases hdev

/-- What a device has left after its step, where it goes on with `work` outside of `next_slot`. -/
theorem threadRank_lt {n d work work' : ℕ} {t t' : Timer} {te : TimerEvent}
    (hs : TimerStep n t te t') (hdev : te.device = some d) (hwork : t.loc d = .outside → 2 ≤ work)
    (hwork' : te = .ret d → work' < 7) :
    threadRank (t'.loc d) (t'.dev d).done work' < threadRank (t.loc d) (t.dev d).done work := by
  cases hs with
  | setDone _ hloc =>
      obtain rfl := Option.some.inj hdev
      have h2 := hwork hloc
      simp only [Timer.setDone, Timer.goto, Function.update_self, hloc, threadRank, if_true]
      omega
  | ret _ hloc hdone =>
      obtain rfl := Option.some.inj hdev
      have h7 := hwork' rfl
      simpa [Timer.goto, hloc, hdone, threadRank] using h7
  | detach _ hloc =>
      obtain rfl := Option.some.inj hdev
      have h2 := hwork hloc
      simp only [Timer.setFsh, Timer.goto, Function.update_self, hloc, threadRank]
      omega
  | _ => cases hdev

variable [SchedHeader]

def ldRank (s : Loading) : ℕ := threadRank (s.timer.loc 0) (s.timer.dev 0).done s.loc.work

def cpuRank (n : ℕ) (s : Loading) (m : Machine) (cpu : ℕ) : ℕ :=
  threadRank (s.timer.loc (deviceOf n cpu)) (s.timer.dev (deviceOf n cpu)).done (m.loc cpu).work

def simRank (n : ℕ) (s : Loading) (m : Machine) : ℕ :=
  s.timer.phase.rank (n + 1) + (if s.timer.timerStop then 0 else 1) + ldRank s +
    ∑ cpu ∈ Finset.range n, cpuRank n s m cpu

variable {n cpu : ℕ} {ps : List LdProcess} {codeSize : Pcb → ℕ} {timeSlot : ℤ} {x y : SimState}
  {j j' : Journal} {e : SimEvent} {m m' : Machine} {s s' : Loading} {h h' : Slots}
  {a a' : List Admission}

theorem simRank_le (n : ℕ) (s : Loading) (m : Machine) : simRank n s m ≤ 16 * (n + 1) + 3 := by
  have hld : ldRank s ≤ 7 :=
    threadRank_le _ _ ((LdLoc.work_le _).trans (by decide))
  have hcpus : ∑ cpu ∈ Finset.range n, cpuRank n s m cpu ≤ n * 7 := by
    have hle := Finset.sum_le_card_nsmul (Finset.range n) (cpuRank n s m) 7
      fun c _ => threadRank_le _ _ ((CpuLoc.work_le _).trans (by decide))
    simpa using hle
  have hphase : s.timer.phase.rank (n + 1) ≤ 9 * (n + 1) + 2 := by
    cases s.timer.phase with
    | head =>
        simp only [Phase.rank]
        omega
    | wait temp _ _ =>
        simp only [Phase.rank]
        omega
    | release temp _ _ =>
        simp only [Phase.rank]
        omega
    | exited => exact Nat.zero_le _
  unfold simRank
  split_ifs <;> omega

/-! ### The steps of the threads -/

theorem RoutineStep.work_lt {re : RoutineEvent} (hs : RoutineStep n codeSize timeSlot m re m')
    (hown : re.Own) (hre : re.actor = some cpu) : (m'.loc cpu).work < (m.loc cpu).work := by
  cases hs with
  | load _ _ _ => cases hre
  | loaded _ => cases hre
  | @get c _ hloc _ =>
      obtain rfl := Option.some.inj hre
      cases hget : m.cpus.sched.getProc.1 with
      | none => simp [Machine.goto, hloc, CpuLoc.work]
      | some proc => simp [Machine.goto, hloc, CpuLoc.work]
  | finish _ hloc _ _ =>
      obtain rfl := Option.some.inj hre
      simp [Machine.goto, hloc, CpuLoc.work]
  | put _ hloc _ _ _ =>
      obtain rfl := Option.some.inj hre
      simp [Machine.goto, hloc, CpuLoc.work]
  | keep _ hloc _ _ _ =>
      obtain rfl := Option.some.inj hre
      simp [Machine.goto, hloc, CpuLoc.work]
  | reload _ hloc _ =>
      obtain rfl := Option.some.inj hre
      simp [Machine.goto, hloc, CpuLoc.work]
  | stop _ hloc _ _ =>
      obtain rfl := Option.some.inj hre
      simp [Machine.goto, hloc, CpuLoc.work]
  | wait _ hloc _ _ =>
      obtain rfl := Option.some.inj hre
      simp [Machine.goto, hloc, CpuLoc.work]
  | run _ hloc _ =>
      obtain rfl := Option.some.inj hre
      simp [Machine.goto, hloc, CpuLoc.work]
  | killall _ hloc _ _ =>
      obtain rfl := Option.some.inj hre
      simp [Machine.goto, hloc, CpuLoc.work]
  | ret _ _ => exact hown.elim

theorem simRank_cpu (hcpu : cpu < n) (hphase : s'.timer.phase = s.timer.phase)
    (hstop : s'.timer.timerStop = s.timer.timerStop) (hld : ldRank s' = ldRank s)
    (hother : ∀ c < n, c ≠ cpu → cpuRank n s' m' c = cpuRank n s m c)
    (hone : cpuRank n s' m' cpu < cpuRank n s m cpu) :
    simRank n s' m' < simRank n s m := by
  have hsum := sum_of_one (k := 1) (l := 0) hcpu hother hone
  unfold simRank
  rw [hphase, hstop, hld]
  omega

theorem simRank_ld (hphase : s'.timer.phase = s.timer.phase)
    (hstop : s'.timer.timerStop = s.timer.timerStop) (hld : ldRank s' < ldRank s)
    (hcpus : ∀ c < n, cpuRank n s' m' c = cpuRank n s m c) :
    simRank n s' m' < simRank n s m := by
  have hsum : ∑ c ∈ Finset.range n, cpuRank n s' m' c = ∑ c ∈ Finset.range n, cpuRank n s m c :=
    Finset.sum_congr rfl fun c hc => hcpus c (Finset.mem_range.mp hc)
  unfold simRank
  rw [hphase, hstop, hsum]
  omega

theorem simRank_cpu_device (hcpu : cpu < n) {t : Timer} {te : TimerEvent}
    (hs : TimerStep (n + 1) s.timer te t) (hdev : te.device = some (deviceOf n cpu))
    (hm : ∀ c, c ≠ cpu → m'.loc c = m.loc c) :
    simRank n { s with timer := t } m' < simRank n s m := by
  obtain ⟨hphase, hstop, hframe⟩ := threadRank_device hs hdev
  have hpos := deviceOf_pos hcpu
  refine simRank_cpu hcpu hphase hstop ?_ ?_ ?_
  · obtain ⟨hloc, hdone⟩ := hframe 0 (by omega)
    unfold ldRank
    rw [hloc, hdone]
  · intro c hc hne
    obtain ⟨hloc, hdone⟩ := hframe (deviceOf n c) fun he => hne (deviceOf_inj hc hcpu he)
    unfold cpuRank
    rw [hloc, hdone, hm c hne]
  · refine threadRank_lt hs hdev (fun _ => ?_) fun _ => ?_
    · cases m.loc cpu <;> decide
    · have := CpuLoc.work_le (m'.loc cpu)
      omega

theorem simRank_ld_device {t : Timer} {te : TimerEvent} {loc : LdLoc}
    (hs : TimerStep (n + 1) s.timer te t) (hdev : te.device = some 0) :
    simRank n { s with timer := t, loc := loc } m < simRank n s m := by
  obtain ⟨hphase, hstop, hframe⟩ := threadRank_device hs hdev
  refine simRank_ld hphase hstop ?_ ?_
  · refine threadRank_lt hs hdev (fun _ => ?_) fun _ => ?_
    · cases s.loc <;> decide
    · have := LdLoc.work_le loc
      show loc.work < 7
      omega
  · intro c hc
    obtain ⟨hloc, hdone⟩ := hframe (deviceOf n c) (Nat.pos_iff_ne_zero.mp (deviceOf_pos hc))
    unfold cpuRank
    rw [hloc, hdone]

/-! ### The steps of the timer -/

theorem simRank_phase {phase : Phase} {timerStop : Bool}
    (h : phase.rank (n + 1) + (if timerStop then 0 else 1) <
      s.timer.phase.rank (n + 1) + (if s.timer.timerStop then 0 else 1)) :
    simRank n { s with timer := { s.timer with phase := phase, timerStop := timerStop } } m <
      simRank n s m := by
  have hld : ldRank { s with timer := { s.timer with phase := phase, timerStop := timerStop } } =
      ldRank s := rfl
  have hcpus : ∀ c, cpuRank n { s with timer := { s.timer with
      phase := phase, timerStop := timerStop } } m c = cpuRank n s m c := fun _ => rfl
  unfold simRank
  simp only [hld, hcpus]
  omega

/-- The ranks of the threads after one flag was cleared. -/
theorem ranks_clear {t : Timer} {d : ℕ} (hd : d < n + 1) (hloc : t.loc = s.timer.loc)
    (hother : ∀ k, k ≠ d → t.dev k = s.timer.dev k) (hself : (t.dev d).done = false) :
    ldRank { s with timer := t } + ∑ c ∈ Finset.range n, cpuRank n { s with timer := t } m c ≤
      ldRank s + ∑ c ∈ Finset.range n, cpuRank n s m c + 6 := by
  have hcpu : ∀ c, deviceOf n c ≠ d → cpuRank n { s with timer := t } m c = cpuRank n s m c := by
    intro c hne
    show threadRank (t.loc _) (t.dev _).done _ = _
    rw [hloc, hother _ hne]
    rfl
  by_cases hzero : d = 0
  · subst hzero
    have hld : ldRank { s with timer := t } ≤ ldRank s + 6 := by
      show threadRank (t.loc 0) (t.dev 0).done _ ≤ _
      rw [hloc, hself]
      exact threadRank_clear _ _ _
    have hcpus : ∑ c ∈ Finset.range n, cpuRank n { s with timer := t } m c =
        ∑ c ∈ Finset.range n, cpuRank n s m c :=
      Finset.sum_congr rfl fun c hc =>
        hcpu c (Nat.pos_iff_ne_zero.mp (deviceOf_pos (Finset.mem_range.mp hc)))
    omega
  · have hdev : deviceOf n (n - d) = d := by
      unfold deviceOf
      omega
    have hld : ldRank { s with timer := t } = ldRank s := by
      show threadRank (t.loc 0) (t.dev 0).done _ = _
      rw [hloc, hother 0 (Ne.symm hzero)]
      rfl
    have hone : cpuRank n { s with timer := t } m (n - d) + 0 ≤ cpuRank n s m (n - d) + 6 := by
      show threadRank (t.loc _) (t.dev _).done _ + 0 ≤ _
      rw [hloc, hdev, hself]
      have hle := threadRank_clear (s.timer.loc d) (s.timer.dev d).done (m.loc (n - d)).work
      unfold cpuRank
      rw [hdev]
      exact hle
    have hsum := sum_of_one (show n - d < n by omega)
      (fun c _ hne => hcpu c fun he => hne (by unfold deviceOf at he; omega)) hone
    omega

theorem simRank_clear {d fsh event : ℕ} (hphase : s.timer.phase = .release d fsh event)
    (hd : d < n + 1) :
    simRank n { s with timer := { s.timer.setDone d false with
      phase := .release (d + 1) fsh event } } m < simRank n s m := by
  have hranks := ranks_clear (m := m) (s := s) (t := { s.timer.setDone d false with
    phase := .release (d + 1) fsh event }) hd rfl (fun k hk => Function.update_of_ne hk _ _)
    (by simp [Timer.setDone])
  have hrank : (Phase.release (d + 1) fsh event).rank (n + 1) + 8 =
      s.timer.phase.rank (n + 1) := by
    rw [hphase]
    simp only [Phase.rank]
    omega
  unfold simRank
  show Phase.rank _ (.release (d + 1) fsh event) + (if s.timer.timerStop then 0 else 1) + _ + _ < _
  omega

/-! ### Every step but a tick -/

theorem simRank_loop (hloc : s.timer.loc 0 = .outside) (htimer : s'.timer = s.timer)
    (hwork : s'.loc.work < s.loc.work) (hm : m'.loc = m.loc) :
    simRank n s' m' < simRank n s m := by
  refine simRank_ld (by rw [htimer]) (by rw [htimer]) ?_ fun c _ => ?_
  · unfold ldRank
    rw [htimer, hloc]
    exact hwork
  · unfold cpuRank
    rw [htimer, hm]

theorem simRank_timer {te : TimerEvent} {t : Timer} (hs : TimerStep (n + 1) s.timer te t)
    (hdev : te.device = none) (hstop : te = .stop → s.timer.timerStop = false)
    (htick : te ≠ .tick) : simRank n { s with timer := t } m < simRank n s m := by
  cases hs with
  | setDone _ _ => cases hdev
  | ret _ _ _ => cases hdev
  | detach _ _ => cases hdev
  | head hphase =>
      apply simRank_phase
      rw [hphase]
      split_ifs <;> simp [Phase.rank]
  | @pass d fsh event hphase hd _ =>
      apply simRank_phase
      rw [hphase]
      simp only [Phase.rank]
      omega
  | tick _ => exact absurd rfl htick
  | clear hphase hd => exact simRank_clear hphase hd
  | @leave fsh event hphase =>
      apply simRank_phase
      rw [hphase]
      split_ifs <;> simp [Phase.rank]
  | stop =>
      apply simRank_phase
      rw [hstop rfl]
      simp

/-- **The step lemma**: every step but a tick lowers the rank. -/
theorem simRank_lt (hi : SimInv n ps ((s, h, a), m) j)
    (hs : (simLts n ps codeSize timeSlot).step ((s, h, a), m) e ((s', h', a'), m'))
    (htick : e ≠ .timer .tick) : simRank n s' m' < simRank n s m := by
  obtain ⟨hld, hm, hg⟩ := hs
  have hloc := hi.ld.loc
  cases e with
  | timer te =>
      obtain rfl : m' = m := Lts.moves_none.mp hm
      have hdev : te.device = none := by
        cases te with
        | stop => rfl
        | _ => exact hg
      obtain ⟨t, hstep, rfl, rfl, rfl⟩ := ldLts_device (Lts.moves_some.mp hld) (by simp [hdev])
      refine simRank_timer hstep hdev ?_ fun he => htick (congrArg SimEvent.timer he)
      rintro rfl
      exact hg.1
  | loader le =>
      obtain rfl : m' = m := Lts.moves_none.mp hm
      obtain ⟨hstep, _⟩ := Lts.moves_some.mp hld
      have hstep : LdStep (n + 1) 0 ps s le s' := hstep
      cases hstep with
      | other _ hdev => exact absurd hg hdev
      | load htop _ =>
          rw [htop] at hloc
          exact simRank_loop hloc rfl (by simp [htop, LdLoc.work]) rfl
      | early htest _ _ =>
          rw [htest] at hloc
          exact simRank_loop hloc rfl (by simp [htest, LdLoc.work]) rfl
      | due htest _ _ =>
          rw [htest] at hloc
          exact simRank_loop hloc rfl (by simp [htest, LdLoc.work]) rfl
      | add _ _ => cases hg
      | enter _ htimer => exact simRank_ld_device htimer rfl
      | leave _ htimer => exact simRank_ld_device htimer rfl
      | finish _ _ => cases hg
      | detach _ htimer => exact simRank_ld_device htimer rfl
  | add line =>
      obtain ⟨hstep, _⟩ := Lts.moves_some.mp hld
      have hstep : LdStep (n + 1) 0 ps s (.add line) s' := hstep
      have hroutine : RoutineStep n codeSize timeSlot m .load m' := Lts.moves_some.mp hm
      cases hstep with
      | add hdue _ =>
          rw [hdue] at hloc
          cases hroutine with
          | load _ _ _ => exact simRank_loop hloc rfl (by simp [hdue, LdLoc.work]) rfl
  | loaded =>
      obtain ⟨hstep, _⟩ := Lts.moves_some.mp hld
      have hstep : LdStep (n + 1) 0 ps s .finish s' := hstep
      have hroutine : RoutineStep n codeSize timeSlot m .loaded m' := Lts.moves_some.mp hm
      cases hstep with
      | finish htop _ =>
          rw [htop] at hloc
          cases hroutine with
          | loaded _ => exact simRank_loop hloc rfl (by simp [htop, LdLoc.work]) rfl
  | cpu re =>
      obtain ⟨rfl, rfl, rfl⟩ : s' = s ∧ h' = h ∧ a' = a := by simpa [SimEvent.ld] using hld
      have hroutine : RoutineStep n codeSize timeSlot m re m' := Lts.moves_some.mp hm
      obtain ⟨c, hc⟩ := RoutineEvent.Own.actor hg
      obtain ⟨hlt, hslot, hstop, _⟩ := hroutine.own hg hc
      obtain ⟨hout, _, _⟩ := (hi.cpus c hlt).working hi.ld.timer hslot hstop
      refine simRank_cpu hlt rfl rfl rfl (fun c' _ hne => ?_) ?_
      · obtain ⟨hloc, _⟩ : m'.loc c' = m.loc c' ∧ _ :=
          hroutine.frame (by simpa [hc] using Ne.symm hne)
        unfold cpuRank
        rw [hloc]
      · unfold cpuRank
        dsimp only at hout
        rw [hout]
        exact hroutine.work_lt hg hc
  | enter c =>
      obtain rfl : m' = m := Lts.moves_none.mp hm
      obtain ⟨t, hstep, rfl, rfl, rfl⟩ := ldLts_device (Lts.moves_some.mp hld) (deviceOf_ne hg.1)
      exact simRank_cpu_device hg.1 hstep rfl fun _ _ => rfl
  | ret c =>
      have hroutine : RoutineStep n codeSize timeSlot m (.ret c) m' := Lts.moves_some.mp hm
      cases hroutine with
      | ret hc _ =>
          obtain ⟨t, hstep, rfl, rfl, rfl⟩ := ldLts_device (Lts.moves_some.mp hld) (deviceOf_ne hc)
          exact simRank_cpu_device hc hstep rfl fun c' hne => Function.update_of_ne hne _ _
  | detach c =>
      obtain rfl : m' = m := Lts.moves_none.mp hm
      obtain ⟨t, hstep, rfl, rfl, rfl⟩ := ldLts_device (Lts.moves_some.mp hld) (deviceOf_ne hg.1)
      exact simRank_cpu_device hg.1 hstep rfl fun _ _ => rfl

/-! ### A tick -/

def SimEvent.isTick : SimEvent → Bool
  | .timer .tick => true
  | _ => false

/-- After a tick every thread that has not ended is in `next_slot`, and the timer has its flag to
clear. -/
theorem simRank_tick (hi : TimerInv (n + 1) s.timer h) {t : Timer}
    (hs : TimerStep (n + 1) s.timer .tick t) :
    simRank n { s with timer := t } m ≤ 10 * (n + 1) + 3 := by
  have hi' := (hi.step hs).phase
  have hphase : ∃ fsh event, t.phase = .release 0 fsh event := by
    cases hs with
    | tick _ => exact ⟨_, _, rfl⟩
  obtain ⟨fsh, event, hphase⟩ := hphase
  rw [hphase] at hi'
  obtain ⟨_, _, _, _, hdue⟩ := hi'
  have hone : ∀ d < n + 1, ∀ work, threadRank (t.loc d) (t.dev d).done work ≤ 1 := by
    intro d hd work
    have hd' := hdue d (Nat.zero_le d) hd
    generalize hv : view t (nextSlots s.timer h .tick) d = v at hd'
    cases hd' with
    | waiting =>
        have hloc : t.loc d = .inside := congrArg View.loc hv
        have hid : t.dev d = ⟨true, false⟩ := congrArg View.id hv
        simp [hloc, hid, threadRank]
    | detached =>
        have hloc : t.loc d = .detached := congrArg View.loc hv
        simp [hloc, threadRank]
  have hld : ldRank { s with timer := t } ≤ 1 := hone 0 (Nat.succ_pos n) _
  have hcpus : ∑ c ∈ Finset.range n, cpuRank n { s with timer := t } m c ≤ n := by
    have hle := Finset.sum_le_card_nsmul (Finset.range n) (cpuRank n { s with timer := t } m) 1
      fun c _ => hone (deviceOf n c) (deviceOf_lt n c) _
    simpa using hle
  unfold simRank
  show t.phase.rank (n + 1) + (if t.timerStop then 0 else 1) + _ + _ ≤ _
  rw [hphase]
  simp only [Phase.rank]
  split_ifs <;> omega

theorem sim_tick (hs : (simLts n ps codeSize timeSlot).step ((s, h, a), m) (.timer .tick)
    ((s', h', a'), m')) : ∃ t, TimerStep (n + 1) s.timer .tick t ∧ s' = { s with timer := t } ∧
      h' = nextSlots s.timer h .tick ∧ m' = m := by
  obtain ⟨t, hstep, rfl, rfl, rfl⟩ :=
    ldLts_device (Lts.moves_some.mp hs.1) (by simp [TimerEvent.device])
  exact ⟨t, hstep, rfl, rfl, Lts.moves_none.mp hs.2.1⟩

theorem sim_ranked (n : ℕ) (ps : List LdProcess) (codeSize : Pcb → ℕ) (timeSlot : ℤ) :
    (visitLts n ps codeSize timeSlot).Ranked (fun x => SimInv n ps x.1 x.2)
      (fun x => simRank n x.1.1.1 x.1.2) SimEvent.isTick (10 * (n + 1) + 3) where
  keeps := by
    rintro ⟨x, j⟩ e ⟨y, j'⟩ hi ⟨hs, rfl⟩
    exact hi.step hs
  renewed := by
    rintro ⟨⟨⟨s, h, a⟩, m⟩, j⟩ e ⟨⟨⟨s', h', a'⟩, m'⟩, j'⟩ hi ⟨hs, rfl⟩ he
    obtain rfl : e = .timer .tick := by
      cases e with
      | timer te => cases te <;> simp_all [SimEvent.isTick]
      | _ => cases he
    obtain ⟨t, hstep, rfl, rfl, rfl⟩ := sim_tick hs
    exact simRank_tick hi.ld.timer hstep
  lowers := by
    rintro ⟨⟨⟨s, h, a⟩, m⟩, j⟩ e ⟨⟨⟨s', h', a'⟩, m'⟩, j'⟩ hi ⟨hs, rfl⟩ he
    refine simRank_lt hi hs ?_
    rintro rfl
    cases he

theorem ticks_eq {es : List SimEvent} {x y : SimState × Journal} (hi : SimInv n ps x.1 x.2)
    (hr : (visitLts n ps codeSize timeSlot).Run x es y) :
    y.1.1.2.1.ticks = x.1.1.2.1.ticks + es.countP SimEvent.isTick := by
  induction hr with
  | nil => rfl
  | @snoc y z es e hrun hs ih =>
      have hiy := (sim_ranked n ps codeSize timeSlot).run hrun hi
      obtain ⟨⟨⟨s, h, a⟩, m⟩, j⟩ := y
      obtain ⟨⟨⟨s', h', a'⟩, m'⟩, j'⟩ := z
      rw [List.countP_append, List.countP_singleton]
      cases sim_ticks hs.1 hiy.ld.timer with
      | inl hsame =>
          have hnot : e.isTick = false := by
            cases he : e with
            | timer te =>
                cases te with
                | tick =>
                    subst he
                    obtain ⟨t, _, _, rfl, _⟩ := sim_tick hs.1
                    simp [nextSlots] at hsame
                | _ => rfl
            | _ => rfl
          dsimp only at hsame ih ⊢
          rw [hsame, ih, hnot]
          simp
      | inr htick =>
          obtain ⟨rfl, hticks, _⟩ := htick
          dsimp only at hticks ih ⊢
          rw [hticks, ih]
          simp [SimEvent.isTick, Nat.add_assoc]

/-! ### No deadlock -/

/-- Some thread can make a step. -/
def Enabled (n : ℕ) (ps : List LdProcess) (codeSize : Pcb → ℕ) (timeSlot : ℤ) (x : SimState) :
    Prop :=
  ∃ e y, (simLts n ps codeSize timeSlot).step x e y

theorem Enabled.routine {re : RoutineEvent} (hs : RoutineStep n codeSize timeSlot m re m')
    (hown : re.Own) : Enabled n ps codeSize timeSlot ((s, h, a), m) :=
  ⟨.cpu re, ((s, h, a), m'), .stay, .step hs, hown⟩

theorem Enabled.device {te : TimerEvent} {t : Timer} (hs : TimerStep (n + 1) s.timer te t)
    (hdev : te.device ≠ some 0) (he : e.ld n = some (.timer te))
    (hm : (routineLts n codeSize timeSlot).Moves m e.routine m')
    (hg : SimGuard n ((s, h, a), m) e) : Enabled n ps codeSize timeSlot ((s, h, a), m) := by
  refine ⟨e, (({ s with timer := t }, nextSlots s.timer h te, a), m'), ?_, hm, hg⟩
  rw [he]
  exact .step ⟨.other hs hdev, rfl⟩

theorem CpuTime.enabled (ht : CpuTime n s h m j cpu) (hcpu : cpu < n)
    (hout : s.timer.loc (deviceOf n cpu) = .outside) :
    Enabled n ps codeSize timeSlot ((s, h, a), m) := by
  have hd := deviceOf_lt n cpu
  cases hloc : m.loc cpu with
  | top =>
      cases hheld : m.cpus.held cpu with
      | none => exact .routine (.get hcpu hloc hheld) trivial
      | some proc =>
          by_cases hpc : m.pc proc = codeSize proc
          · exact .routine (.finish hcpu hloc hheld hpc) trivial
          · by_cases hleft : m.timeLeft cpu = 0
            · exact .routine (.put hcpu hloc hheld hpc hleft) trivial
            · exact .routine (.keep hcpu hloc hheld hpc hleft) trivial
  | reload => exact .routine (.reload hcpu hloc (ht.reload hloc)) trivial
  | recheck =>
      cases hheld : m.cpus.held cpu with
      | none =>
          cases hdone : m.done with
          | true => exact .routine (.stop hcpu hloc hheld hdone) trivial
          | false => exact .routine (.wait hcpu hloc hheld hdone) trivial
      | some proc => exact .routine (.run hcpu hloc hheld) trivial
  | slot =>
      exact .device (e := .enter cpu) (.setDone hd hout) (deviceOf_ne hcpu) rfl .stay ⟨hcpu, hloc⟩
  | stopped =>
      exact .device (e := .detach cpu) (.detach hd hout) (deviceOf_ne hcpu) rfl .stay ⟨hcpu, hloc⟩

theorem CpuTime.enabled_ret (ht : CpuTime n s h m j cpu) (hcpu : cpu < n)
    (hin : s.timer.loc (deviceOf n cpu) = .inside)
    (hdone : (s.timer.dev (deviceOf n cpu)).done = false) :
    Enabled n ps codeSize timeSlot ((s, h, a), m) := by
  have hloc : m.loc cpu = .slot := by
    obtain ⟨k, hon, _⟩ := ht.onTime
    rw [hin] at hon
    generalize m.loc cpu = loc at hon
    cases hon with
    | inside => rfl
  exact .device (e := .ret cpu) (.ret (deviceOf_lt n cpu) hin hdone) (deviceOf_ne hcpu) rfl
    (.step (.ret hcpu hloc)) trivial

theorem Enabled.loader {le : LdEvent} (hs : LdStep (n + 1) 0 ps s le s') (hown : le.Own) :
    Enabled n ps codeSize timeSlot ((s, h, a), m) :=
  ⟨.loader le, ((s', nextAdmissions s (h, a) le), m), .step ⟨hs, rfl⟩, .stay, hown⟩

/-- The next process can be added: its priority is in range, and its pid is new. -/
theorem LoadInv.load (hl : LoadInv ps ((s, h, a), m)) {line : LdProcess}
    (hline : ps[s.i]? = some line) (hprio : line.prio < maxPrio) :
    ∃ m', RoutineStep n codeSize timeSlot m .load m' := by
  have hget := pcbs_get hline
  obtain ⟨hlt, hget⟩ := List.getElem?_eq_some_iff.mp hget
  have hload : m.toLoad = pcbOf s.i line :: (pcbs ps).drop (s.i + 1) := by
    rw [← hget, ← List.drop_eq_getElem_cons hlt]
    exact hl.toLoad
  refine ⟨_, .load hload hprio fun q hq => ?_⟩
  rw [hl.added, List.mem_reverse] at hq
  obtain ⟨i, hq⟩ := List.mem_iff_getElem?.mp hq
  rw [List.getElem?_take] at hq
  split_ifs at hq with hi
  obtain ⟨line', _, rfl⟩ : ∃ line', ps[i]? = some line' ∧ pcbOf i line' = q := by
    simpa [pcbs, List.getElem?_mapIdx] using hq
  have hi : i < s.i := hi
  show i + 1 ≠ s.i + 1
  omega

theorem LoadInv.enabled (hl : LoadInv ps ((s, h, a), m)) (hld : LdInv (n + 1) 0 ps s h a)
    (hprio : ∀ line ∈ ps, line.prio < maxPrio) (hout : s.timer.loc 0 = .outside) :
    Enabled n ps codeSize timeSlot ((s, h, a), m) := by
  have hd := Nat.succ_pos n
  have hloc := hld.loc
  have hline : s.loc.pending = true → ∃ line, ps[s.i]? = some line :=
    fun hp => ⟨_, List.getElem?_eq_getElem (hld.lt hp)⟩
  cases hl' : s.loc with
  | top =>
      by_cases hlt : s.i < ps.length
      · exact .loader (.load hl' hlt) trivial
      · have htoLoad : m.toLoad = [] := by
          rw [hl.toLoad]
          exact List.drop_eq_nil_of_le (by simpa [pcbs] using Nat.not_lt.mp hlt)
        exact ⟨.loaded, (({ s with loc := .last }, (h, a)), { m with done := true }),
          .step ⟨.finish hl' hlt, rfl⟩, .step (.loaded htoLoad), trivial⟩
  | test =>
      obtain ⟨line, hp⟩ := hline (congrArg LdLoc.pending hl')
      by_cases htime : s.timer.time < line.startTime
      · exact .loader (.early hl' hp htime) trivial
      · exact .loader (.due hl' hp htime) trivial
  | early => exact .loader (.enter (congrArg LdLoc.enter hl') (.setDone hd hout)) rfl
  | due =>
      obtain ⟨line, hp⟩ := hline (congrArg LdLoc.pending hl')
      obtain ⟨m', hm⟩ : ∃ m', RoutineStep n codeSize timeSlot m .load m' :=
        hl.load hp (hprio line (List.mem_of_getElem? hp))
      exact ⟨.add line, (({ s with loc := .added, i := s.i + 1 }, (h, _)), m'),
        .step ⟨.add hl' hp, rfl⟩, .step hm, trivial⟩
  | added => exact .loader (.enter (congrArg LdLoc.enter hl') (.setDone hd hout)) rfl
  | last => exact .loader (.detach hl' (.detach hd hout)) rfl
  | waiting => simp [hl', LdLoc.loc, hout] at hloc
  | resting => simp [hl', LdLoc.loc, hout] at hloc
  | ended => simp [hl', LdLoc.loc, hout] at hloc

theorem LdInv.enabled_ret (hld : LdInv (n + 1) 0 ps s h a) (hin : s.timer.loc 0 = .inside)
    (hdone : (s.timer.dev 0).done = false) : Enabled n ps codeSize timeSlot ((s, h, a), m) := by
  have hloc := hld.loc
  rw [hin] at hloc
  have hleave : ∃ loc, s.loc.leave = some loc := by
    cases hl : s.loc with
    | waiting => exact ⟨_, rfl⟩
    | resting => exact ⟨_, rfl⟩
    | _ => simp [hl, LdLoc.loc] at hloc
  obtain ⟨loc, hleave⟩ := hleave
  exact .loader (.leave hleave (.ret (Nat.succ_pos n) hin hdone)) rfl

theorem Enabled.timer {te : TimerEvent} {t : Timer} (hs : TimerStep (n + 1) s.timer te t)
    (hdev : te.device = none) (hstop : te ≠ .stop) :
    Enabled n ps codeSize timeSlot ((s, h, a), m) := by
  refine .device (e := .timer te) hs (by simp [hdev]) rfl .stay ?_
  cases te with
  | stop => exact absurd rfl hstop
  | _ => exact hdev

/-- A device that keeps the timer waiting can make a step. -/
theorem enabled_of_waiting (hi : SimInv n ps ((s, h, a), m) j) (hl : LoadInv ps ((s, h, a), m))
    (hprio : ∀ line ∈ ps, line.prio < maxPrio) {d : ℕ} (hd : d < n + 1)
    (hset : Settled (view s.timer h d))
    (hflags : ¬ ((s.timer.dev d).done = true ∨ (s.timer.dev d).fsh = true)) :
    Enabled n ps codeSize timeSlot ((s, h, a), m) := by
  have hcases : s.timer.loc d = .outside ∨
      s.timer.loc d = .inside ∧ (s.timer.dev d).done = false := by
    generalize hv : view s.timer h d = v at hset
    have hloc : s.timer.loc d = v.loc := congrArg View.loc hv
    have hid : s.timer.dev d = v.id := congrArg View.id hv
    rw [hloc, hid]
    rw [hid] at hflags
    cases hset with
    | outside => exact .inl rfl
    | entered => exact absurd (.inl rfl) hflags
    | released => exact .inr ⟨rfl, rfl⟩
    | detached => exact absurd (.inr rfl) hflags
  by_cases hzero : d = 0
  · subst hzero
    cases hcases with
    | inl hout => exact hl.enabled hi.ld hprio hout
    | inr hin => exact hi.ld.enabled_ret hin.1 hin.2
  · obtain ⟨c, hc, rfl⟩ : ∃ c, c < n ∧ deviceOf n c = d :=
      ⟨n - d, by omega, by unfold deviceOf; omega⟩
    cases hcases with
    | inl hout => exact (hi.cpus c hc).enabled hc hout
    | inr hin => exact (hi.cpus c hc).enabled_ret hc hin.1 hin.2

/-- Until the timer has ended, a step is possible. -/
theorem enabled_of_not_exited (hi : SimInv n ps ((s, h, a), m) j)
    (hl : LoadInv ps ((s, h, a), m)) (hprio : ∀ line ∈ ps, line.prio < maxPrio)
    (hphase : s.timer.phase ≠ .exited) : Enabled n ps codeSize timeSlot ((s, h, a), m) := by
  have hok := hi.ld.timer.phase
  dsimp only at hok
  cases hp : s.timer.phase with
  | head => exact .timer (.head hp) rfl (by simp)
  | exited => exact absurd hp hphase
  | release temp fsh event =>
      rw [hp] at hok
      by_cases hlt : temp < n + 1
      · exact .timer (.clear hp hlt) rfl (by simp)
      · obtain rfl : temp = n + 1 := Nat.le_antisymm hok.1 (Nat.not_lt.mp hlt)
        exact .timer (.leave hp) rfl (by simp)
  | wait temp fsh event =>
      rw [hp] at hok
      obtain ⟨hle, _, _, _, _, hset⟩ := hok
      by_cases hlt : temp < n + 1
      · by_cases hflags : (s.timer.dev temp).done = true ∨ (s.timer.dev temp).fsh = true
        · exact .timer (.pass hp hlt hflags) rfl (by simp)
        · exact enabled_of_waiting hi hl hprio hlt (hset temp hlt) hflags
      · obtain rfl : temp = n + 1 := Nat.le_antisymm hle (Nat.not_lt.mp hlt)
        exact .timer (.tick hp) rfl (by simp)

/-! ### The clock goes on -/

/-- The timer has ended. -/
def Exited (x : SimState) : Prop := x.1.1.timer.phase = .exited

/-- No run is longer than its ticks allow, every way to go on has a tick within a bounded number of
steps, and before the timer has ended there is one that gets to a tick, or to that end. -/
structure GoesOn (n : ℕ) (ps : List LdProcess) (codeSize : Pcb → ℕ) (timeSlot : ℤ)
    (es : List SimEvent) (x : SimState) (j : Journal) : Prop where
  length : es.length ≤ (x.1.2.1.ticks + 1) * (10 * (n + 1) + 4)
  step : ¬ Exited x → ∃ e y, (simLts n ps codeSize timeSlot).step x e y
  tick : ∀ es' y, (visitLts n ps codeSize timeSlot).Run (x, j) es' y →
    16 * (n + 1) + 4 ≤ es'.length → x.1.2.1.ticks < y.1.1.2.1.ticks
  reach : ∃ es' y, (visitLts n ps codeSize timeSlot).Run (x, j) es' y ∧
    es'.length ≤ 16 * (n + 1) + 4 ∧ (Exited y.1 ∨ x.1.2.1.ticks < y.1.1.2.1.ticks)

theorem simRank_start (n : ℕ) (ps : List LdProcess) :
    simRank n Loading.start (.start (pcbs ps)) ≤ 10 * (n + 1) + 3 := by
  have hcpus : ∑ c ∈ Finset.range n, cpuRank n Loading.start (.start (pcbs ps)) c = n * 5 := by
    have hone : ∀ c, cpuRank n Loading.start (.start (pcbs ps)) c = 5 := fun _ => rfl
    simp [hone]
  have hld : ldRank Loading.start = 6 := rfl
  have hphase : Phase.rank (n + 1) Loading.start.timer.phase = n + 2 := rfl
  unfold simRank
  rw [hcpus, hld, hphase]
  split_ifs <;> omega

/-- Steps without a tick use up the rank of the state they start from. -/
theorem length_le_of_ticks_eq {es : List SimEvent} {x y : SimState × Journal}
    (hi : SimInv n ps x.1 x.2) (hr : (visitLts n ps codeSize timeSlot).Run x es y)
    (hticks : y.1.1.2.1.ticks = x.1.1.2.1.ticks) : es.length ≤ 16 * (n + 1) + 3 := by
  have hlen := (sim_ranked n ps codeSize timeSlot).length_le hr hi
  have hcount : es.countP SimEvent.isTick = 0 := by
    have := ticks_eq hi hr
    omega
  have hbound := simRank_le n x.1.1.1 x.1.2
  rw [hcount] at hlen
  omega

/-- **The clock goes on**, where the calls of `run` return: for any number of CPUs and processes
with priorities below `MAX_PRIO`, whatever the interleaving. -/
theorem clock_goes_on {es : List SimEvent} (hprio : ∀ line ∈ ps, line.prio < maxPrio)
    (hr : (visitLts n ps codeSize timeSlot).Run (.start ps, .start) es (x, j)) :
    GoesOn n ps codeSize timeSlot es x j := by
  have hranked := sim_ranked n ps codeSize timeSlot
  have hi := SimInv.of_run hr
  have henabled : ∀ z : SimState × Journal, SimInv n ps z.1 z.2 ∧ LoadInv ps z.1 →
      ¬ Exited z.1 → ∃ e z', (visitLts n ps codeSize timeSlot).step z e z' := by
    rintro ⟨⟨⟨s, h, a⟩, m⟩, j⟩ ⟨hi, hl⟩ hphase
    obtain ⟨e, y, hs⟩ := enabled_of_not_exited hi hl hprio hphase
    exact ⟨e, (y, _), hs, rfl⟩
  refine ⟨?_, ?_, ?_, ?_⟩
  · have hlen : es.length + simRank n x.1.1 x.2 ≤
        simRank n (SimState.start ps).1.1 (SimState.start ps).2 +
          es.countP SimEvent.isTick * (10 * (n + 1) + 4) :=
      hranked.length_le hr SimInv.start
    have hticks : x.1.2.1.ticks = 0 + es.countP SimEvent.isTick := ticks_eq SimInv.start hr
    have hbound : simRank n (SimState.start ps).1.1 (SimState.start ps).2 ≤ 10 * (n + 1) + 3 :=
      simRank_start n ps
    rw [hticks, Nat.zero_add, Nat.add_mul, Nat.one_mul]
    omega
  · intro hphase
    obtain ⟨e, z, hs, _⟩ := henabled (x, j) (LoadInv.of_run hr) hphase
    exact ⟨e, z.1, hs⟩
  · intro es' y hrun hlong
    have hticks : y.1.1.2.1.ticks = x.1.2.1.ticks + es'.countP SimEvent.isTick := ticks_eq hi hrun
    by_contra hnot
    have := length_le_of_ticks_eq hi hrun (by dsimp only; omega)
    omega
  · have hload := hranked.and (J := fun z => LoadInv ps z.1)
      fun z e z' hi hl hs => hl.step hi.ld.timer hs.1
    obtain ⟨es', y, hrun, hlen, hend⟩ := hload.exists_run (s := (x, j)) (fun z => Exited z.1)
      henabled (LoadInv.of_run hr)
    have hbound : simRank n x.1.1 x.2 ≤ 16 * (n + 1) + 3 := simRank_le n x.1.1 x.2
    refine ⟨es', y, hrun, Nat.le_trans hlen (Nat.add_le_add_right hbound 1), hend.imp_right ?_⟩
    rintro ⟨e, hmem, htick⟩
    have hticks := ticks_eq hi hrun
    have hpos : 0 < es'.countP SimEvent.isTick := List.countP_pos_iff.mpr ⟨e, hmem, htick⟩
    dsimp only at hticks
    omega

/-! ### A CPU that does not return -/

/-- **One CPU stops the clock.**  While a CPU is between two calls of `next_slot` and makes no step,
because its call of `run` does not return, say, the time stands still, and the others make only a
bounded number of steps. -/
theorem clock_stands {es₀ es : List SimEvent} {y : SimState × Journal}
    (hr : (visitLts n ps codeSize timeSlot).Run (.start ps, .start) es₀ (x, j)) (hcpu : cpu < n)
    (hslot : x.2.loc cpu ≠ .slot) (hstop : x.2.loc cpu ≠ .stopped)
    (hrun : (visitLts n ps codeSize timeSlot).Run (x, j) es y)
    (hidle : ∀ e ∈ es, e.actor ≠ some cpu) :
    y.1.1.2.1.ticks = x.1.2.1.ticks ∧ es.length ≤ 16 * (n + 1) + 3 := by
  have hranked := sim_ranked n ps codeSize timeSlot
  have hi := SimInv.of_run hr
  obtain ⟨⟨s, h, a⟩, m⟩ := x
  obtain ⟨hout, _, _⟩ := (hi.cpus cpu hcpu).working hi.ld.timer hslot hstop
  -- the device stays outside of `next_slot`, so no step is a tick
  have hquiet : y.1.1.1.timer.loc (deviceOf n cpu) = .outside ∧
      es.countP SimEvent.isTick = 0 := by
    induction hrun with
    | nil => exact ⟨hout, rfl⟩
    | @snoc z w es e hrun hs ih =>
        obtain ⟨hz, hcount⟩ := ih fun e he => hidle e (List.mem_append_left _ he)
        have hne := hidle e (List.mem_append_right _ List.mem_cons_self)
        have hiz := hranked.run hrun hi
        refine ⟨(sim_device hs.1 hcpu hne).1.trans hz, ?_⟩
        rw [List.countP_append, hcount, List.countP_singleton]
        have hnot : e.isTick = false := by
          cases he : e with
          | timer te =>
              cases te with
              | tick =>
                  subst he
                  obtain ⟨⟨⟨s, h, a⟩, m⟩, j⟩ := z
                  obtain ⟨⟨⟨s', h', a'⟩, m'⟩, j'⟩ := w
                  obtain ⟨t, hstep, _⟩ := sim_tick hs.1
                  exact absurd hz (hiz.ld.timer.tick_loc hstep (deviceOf_lt n cpu))
              | _ => rfl
          | _ => rfl
        simp [hnot]
  have hticks := ticks_eq hi hrun
  rw [hquiet.2] at hticks
  exact ⟨hticks, length_le_of_ticks_eq hi hrun hticks⟩

/-! ### A run -/

omit [SchedHeader] in
theorem clock_goes_on_sample : ∃ x j, threeLts.Run threeStart (threeRun.take 50) (x, j) ∧
    @GoesOn sched22 2 threeLines threeSize 4 (threeRun.take 50) x j := by
  obtain ⟨x, j, hr, _⟩ := threeRun_reach 50 (P := fun _ => True) (by decide +kernel)
  have hprio : ∀ line ∈ threeLines, line.prio < @maxPrio sched22 := by decide
  exact ⟨x, j, hr, @clock_goes_on sched22 2 threeLines threeSize 4 x j _ hprio hr⟩

/-- The first CPU has a process, and does not return from `run`. -/
def othersRun : List SimEvent :=
  [.cpu (.get 1), .enter 1, .timer .head, .timer (.pass 0), .timer (.pass 1)]

omit [SchedHeader] in
theorem clock_stands_sample : ∃ x y : @SimState sched22 × Journal,
    threeLts.Run threeStart (threeRun.take 5) x ∧ threeLts.Run x othersRun y ∧
      y.1.1.2.1.ticks = x.1.1.2.1.ticks := by
  obtain ⟨x, j, hr, hx⟩ := threeRun_reach 5
    (P := fun z => @Machine.loc sched22 z.1.2 0 = .recheck ∧
      ((Lts.replay threeNext z othersRun).any fun _ => True) = true) (by decide +kernel)
  obtain ⟨hloc, hsome⟩ := hx
  obtain ⟨y, hs, _⟩ := (Option.any_eq_true _ _).mp hsome
  have hrun : threeLts.Run (x, j) othersRun y := threeLts_of_next hs
  have hloc : @Machine.loc sched22 x.2 0 = .recheck := hloc
  have hslot : @Machine.loc sched22 x.2 0 ≠ .slot := by simp [hloc]
  have hstop : @Machine.loc sched22 x.2 0 ≠ .stopped := by simp [hloc]
  have hidle : ∀ e ∈ othersRun, e.actor ≠ some 0 := by
    simp [othersRun, SimEvent.actor, RoutineEvent.actor]
  exact ⟨(x, j), y, hr, hrun, (@clock_stands sched22 2 0 threeLines threeSize 4 x j _ _ y hr
    (by decide) hslot hstop hrun hidle).1⟩

end BtlOs
