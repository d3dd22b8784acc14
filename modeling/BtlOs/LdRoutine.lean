import BtlOs.Timer
import Mathlib.Order.Monotone.Basic

/-! # Arrival times (`ld_routine`)

The loader is the device `d` of the slot barrier, and the timer and the other devices take their
steps in between in any order.  It reads `current_time` outside of `next_slot`, where the clock
stands still, and each of its calls of `next_slot` moves the clock by one.

So what the loader has reached is told by the number of calls it has completed, which no step of
another thread changes.  The invariant compares that number with the first slot in which the next
process may be added; `firstFrom` says which one it is, with the wrap of `_time`. -/

namespace BtlOs

/-! ### The model -/

/-- The line of the configuration about one process. -/
structure LdProcess where
  path : String
  startTime : ℕ
  prio : ℕ
  startTime_lt : startTime < 2 ^ 64

/-- Where the loader is: at the head of its loop, at the head of the inner loop, before and in the
`next_slot` of that loop, before `add_proc`, before and in the `next_slot` after it, before
`detach_event`, or at its end. -/
inductive LdLoc where
  | top
  | test
  | early
  | waiting
  | due
  | added
  | resting
  | last
  | ended
deriving DecidableEq

namespace LdLoc

/-- `next_slot` is called. -/
def enter : LdLoc → Option LdLoc
  | .early => some .waiting
  | .added => some .resting
  | _ => none

/-- `next_slot` returns. -/
def leave : LdLoc → Option LdLoc
  | .waiting => some .test
  | .resting => some .top
  | _ => none

/-- Between the load of a process and its `add_proc`. -/
def pending : LdLoc → Bool
  | .test => true
  | .early => true
  | .waiting => true
  | .due => true
  | _ => false

/-- Where the loader is for the timer. -/
def loc : LdLoc → Loc
  | .waiting => .inside
  | .resting => .inside
  | .ended => .detached
  | _ => .outside

end LdLoc

/-- The timer, and the loader with its local `i`. -/
structure Loading where
  timer : Timer
  loc : LdLoc
  i : ℕ

inductive LdEvent where
  | timer (e : TimerEvent)
  | load
  | test
  | add (proc : LdProcess)
  | finish

/-- The device that makes a step. -/
def TimerEvent.device : TimerEvent → Option ℕ
  | .setDone d => some d
  | .ret d => some d
  | .detach d => some d
  | _ => none

/-- The steps of the loader `d`, and of the timer and the devices around it. -/
inductive LdStep (n d : ℕ) (ps : List LdProcess) (s : Loading) : LdEvent → Loading → Prop
  | other {e : TimerEvent} {t : Timer} : TimerStep n s.timer e t → e.device ≠ some d →
      LdStep n d ps s (.timer e) { s with timer := t }
  | load : s.loc = .top → s.i < ps.length → LdStep n d ps s .load { s with loc := .test }
  | early {proc : LdProcess} : s.loc = .test → ps[s.i]? = some proc →
      s.timer.time < proc.startTime → LdStep n d ps s .test { s with loc := .early }
  | due {proc : LdProcess} : s.loc = .test → ps[s.i]? = some proc →
      ¬ s.timer.time < proc.startTime → LdStep n d ps s .test { s with loc := .due }
  | add {proc : LdProcess} : s.loc = .due → ps[s.i]? = some proc →
      LdStep n d ps s (.add proc) { s with loc := .added, i := s.i + 1 }
  | enter {loc : LdLoc} {t : Timer} : s.loc.enter = some loc →
      TimerStep n s.timer (.setDone d) t →
      LdStep n d ps s (.timer (.setDone d)) { s with timer := t, loc := loc }
  | leave {loc : LdLoc} {t : Timer} : s.loc.leave = some loc → TimerStep n s.timer (.ret d) t →
      LdStep n d ps s (.timer (.ret d)) { s with timer := t, loc := loc }
  | finish : s.loc = .top → ¬ s.i < ps.length → LdStep n d ps s .finish { s with loc := .last }
  | detach {t : Timer} : s.loc = .last → TimerStep n s.timer (.detach d) t →
      LdStep n d ps s (.timer (.detach d)) { s with timer := t, loc := .ended }

/-! ### Computed steps -/

deriving instance DecidableEq for LdProcess

/-- The step of the loader `d` or of the threads around it. -/
def Loading.next (n d : ℕ) (ps : List LdProcess) (s : Loading) : LdEvent → Option Loading
  | .timer e =>
      (s.timer.next n e).bind fun t =>
        if e.device ≠ some d then some { s with timer := t } else
          match e with
          | .setDone _ => s.loc.enter.map fun loc => { s with timer := t, loc := loc }
          | .ret _ => s.loc.leave.map fun loc => { s with timer := t, loc := loc }
          | .detach _ => if s.loc = .last then some { s with timer := t, loc := .ended } else none
          | _ => none
  | .load => if s.loc = .top ∧ s.i < ps.length then some { s with loc := .test } else none
  | .test => ps[s.i]?.bind fun proc => if s.loc = .test then some
      { s with loc := if s.timer.time < proc.startTime then .early else .due } else none
  | .add proc => if s.loc = .due ∧ ps[s.i]? = some proc then
      some { s with loc := .added, i := s.i + 1 } else none
  | .finish => if s.loc = .top ∧ ¬ s.i < ps.length then some { s with loc := .last } else none

theorem ldStep_of_next {n d : ℕ} {ps : List LdProcess} {s s' : Loading} {e : LdEvent}
    (h : s.next n d ps e = some s') : LdStep n d ps s e s' := by
  cases e with
  | timer te =>
      obtain ⟨t, ht, hrest⟩ := Option.bind_eq_some_iff.mp h
      have hstep := timerStep_of_next ht
      by_cases hdev : te.device = some d
      · rw [if_neg (not_not_intro hdev)] at hrest
        cases te with
        | setDone d' =>
            obtain rfl : d' = d := Option.some.inj hdev
            obtain ⟨loc, hloc, rfl⟩ := Option.map_eq_some_iff.mp hrest
            exact .enter hloc hstep
        | ret d' =>
            obtain rfl : d' = d := Option.some.inj hdev
            obtain ⟨loc, hloc, rfl⟩ := Option.map_eq_some_iff.mp hrest
            exact .leave hloc hstep
        | detach d' =>
            obtain rfl : d' = d := Option.some.inj hdev
            simp only [Option.ite_none_right_eq_some, Option.some.injEq] at hrest
            obtain ⟨hloc, rfl⟩ := hrest
            exact .detach hloc hstep
        | _ => cases hrest
      · rw [if_pos hdev] at hrest
        obtain rfl := Option.some.inj hrest
        exact .other hstep hdev
  | load =>
      simp only [Loading.next, Option.ite_none_right_eq_some, Option.some.injEq] at h
      obtain ⟨⟨hloc, hi⟩, rfl⟩ := h
      exact .load hloc hi
  | test =>
      obtain ⟨proc, hproc, hrest⟩ := Option.bind_eq_some_iff.mp h
      simp only [Option.ite_none_right_eq_some, Option.some.injEq] at hrest
      obtain ⟨hloc, rfl⟩ := hrest
      by_cases hlt : s.timer.time < proc.startTime
      · simpa [hlt] using LdStep.early hloc hproc hlt
      · simpa [hlt] using LdStep.due hloc hproc hlt
  | add proc =>
      simp only [Loading.next, Option.ite_none_right_eq_some, Option.some.injEq] at h
      obtain ⟨⟨hloc, hproc⟩, rfl⟩ := h
      exact .add hloc hproc
  | finish =>
      simp only [Loading.next, Option.ite_none_right_eq_some, Option.some.injEq] at h
      obtain ⟨⟨hloc, hi⟩, rfl⟩ := h
      exact .finish hloc hi

/-! ### The history -/

/-- A call of `add_proc`: the process, the value of `_time`, and the slot without the wrap. -/
structure Admission where
  proc : LdProcess
  time : ℕ
  slot : ℕ

/-- The slots and the calls of `add_proc` so far. -/
def nextAdmissions (s : Loading) (h : Slots × List Admission) :
    LdEvent → Slots × List Admission
  | .timer e => (nextSlots s.timer h.1 e, h.2)
  | .add proc => (h.1, h.2 ++ [⟨proc, s.timer.time, h.1.ticks⟩])
  | _ => h

def ldLts (n d : ℕ) (ps : List LdProcess) : Lts (Loading × Slots × List Admission) LdEvent :=
  Lts.withGhost ⟨LdStep n d ps⟩ nextAdmissions

/-- When the threads start. -/
def Loading.start : Loading := ⟨.start, .top, 0⟩

/-! ### The slots of the processes -/

/-- `start_time[i]`. -/
def startTime (ps : List LdProcess) (i : ℕ) : ℕ := (ps[i]?.map LdProcess.startTime).getD 0

/-- The slot in which process `i` is added, in the arithmetic of `uint64_t`. -/
def slotOf (start : ℕ → ℕ) : ℕ → ℕ
  | 0 => start 0
  | i + 1 => max (start (i + 1)) ((slotOf start i + 1) % 2 ^ 64)

/-- The same without the wrap. -/
def slotNat (start : ℕ → ℕ) : ℕ → ℕ
  | 0 => start 0
  | i + 1 => max (start (i + 1)) (slotNat start i + 1)

/-- The first slot from `slot` on whose number is not below `start`. -/
def firstFrom (start slot : ℕ) : ℕ :=
  if start ≤ slot % 2 ^ 64 then slot else slot - slot % 2 ^ 64 + start

/-- The first slot in which process `i` may be added. -/
def earliest (start : ℕ → ℕ) : ℕ → ℕ
  | 0 => 0
  | i + 1 => firstFrom (start i) (earliest start i) + 1

/-- The slot in which process `i` is added, counted without the wrap. -/
def arrival (start : ℕ → ℕ) (i : ℕ) : ℕ := firstFrom (start i) (earliest start i)

theorem startTime_eq {ps : List LdProcess} {i : ℕ} {proc : LdProcess} (h : ps[i]? = some proc) :
    startTime ps i = proc.startTime := by
  simp [startTime, h]

theorem startTime_lt (ps : List LdProcess) (i : ℕ) : startTime ps i < 2 ^ 64 := by
  unfold startTime
  cases ps[i]? with
  | none => exact Nat.two_pow_pos 64
  | some proc => exact proc.startTime_lt

theorem le_firstFrom (start slot : ℕ) : slot ≤ firstFrom start slot := by
  unfold firstFrom
  split_ifs <;> omega

theorem firstFrom_mod {start slot : ℕ} (h : start < 2 ^ 64) :
    firstFrom start slot % 2 ^ 64 = max start (slot % 2 ^ 64) := by
  unfold firstFrom
  split_ifs <;> omega

theorem firstFrom_le {start slot k : ℕ} (hle : slot ≤ k) (hk : start ≤ k % 2 ^ 64) :
    firstFrom start slot ≤ k := by
  unfold firstFrom
  split_ifs <;> omega

theorem firstFrom_of_lt {start slot : ℕ} (h : max start slot < 2 ^ 64) :
    firstFrom start slot = max start slot := by
  unfold firstFrom
  split_ifs <;> omega

section

variable (start : ℕ → ℕ)

theorem earliest_lt_succ (i : ℕ) : earliest start i < earliest start (i + 1) :=
  Nat.lt_succ_of_le (le_firstFrom _ _)

theorem arrival_mono {i j : ℕ} (h : i < j) : arrival start i < arrival start j := by
  have hmono := strictMono_nat_of_lt_succ (earliest_lt_succ start)
  calc arrival start i < earliest start (i + 1) := Nat.lt_succ_self _
    _ ≤ earliest start j := hmono.monotone h
    _ ≤ arrival start j := le_firstFrom _ _

variable {start}

theorem arrival_mod (h : ∀ i, start i < 2 ^ 64) (i : ℕ) :
    arrival start i % 2 ^ 64 = slotOf start i := by
  induction i with
  | zero =>
      show firstFrom (start 0) 0 % 2 ^ 64 = start 0
      rw [firstFrom_mod (h 0), Nat.zero_mod, Nat.max_zero]
  | succ i ih =>
      show firstFrom (start (i + 1)) (arrival start i + 1) % 2 ^ 64 = _
      rw [firstFrom_mod (h (i + 1)), slotOf, ← ih, Nat.mod_add_mod]

/-- Where no number wraps, the slots are counted from the start. -/
theorem arrival_of_lt {i : ℕ} (h : slotNat start i < 2 ^ 64) :
    arrival start i = slotNat start i := by
  induction i with
  | zero =>
      show firstFrom (start 0) 0 = start 0
      rw [firstFrom_of_lt (by rwa [Nat.max_zero]), Nat.max_zero]
  | succ i ih =>
      have hprev : slotNat start i + 1 ≤ slotNat start (i + 1) := Nat.le_max_right _ _
      show firstFrom (start (i + 1)) (arrival start i + 1) = _
      rw [ih (by omega)]
      exact firstFrom_of_lt h

end

/-! ### The invariant -/

/-- The calls of `next_slot` that the loader has completed, in each place. -/
def Reached (start : ℕ → ℕ) (i completed : ℕ) : LdLoc → Prop
  | .top => completed = earliest start i
  | .test => earliest start i ≤ completed ∧ completed ≤ arrival start i
  | .early => earliest start i ≤ completed ∧ completed < arrival start i
  | .waiting => earliest start i ≤ completed ∧ completed < arrival start i
  | .due => completed = arrival start i
  | .added => completed + 1 = earliest start i
  | .resting => completed + 1 = earliest start i
  | .last => True
  | .ended => True

/-- The first `i` processes were added, each in its slot. -/
structure Admitted (ps : List LdProcess) (i : ℕ) (a : List Admission) : Prop where
  length : a.length = i
  get : ∀ j x, a[j]? = some x →
    ps[j]? = some x.proc ∧ x.slot = arrival (startTime ps) j ∧ x.time = x.slot % 2 ^ 64

structure LdInv (n d : ℕ) (ps : List LdProcess) (s : Loading) (h : Slots) (a : List Admission) :
    Prop where
  timer : TimerInv n s.timer h
  loc : s.timer.loc d = s.loc.loc
  reached : Reached (startTime ps) s.i (h.completed d) s.loc
  admitted : Admitted ps s.i a
  le : s.i ≤ ps.length
  lt : s.loc.pending = true → s.i < ps.length
  last : s.loc = .last ∨ s.loc = .ended → s.i = ps.length

variable {n d : ℕ} {ps : List LdProcess} {s s' : Loading} {h : Slots} {a : List Admission}

/-- The clock stands still while a device is outside of `next_slot`. -/
theorem TimerInv.of_outside {t : Timer} (hi : TimerInv n t h) (hd : d < n)
    (hloc : t.loc d = .outside) : h.ticks = h.completed d ∧ t.time = h.completed d % 2 ^ 64 := by
  have hcomp : h.completed d = h.ticks := by
    cases hi.view_cases hd with
    | inl hset => exact (hset.of_outside hloc).2
    | inr hdue => exact absurd hloc hdue.loc_ne
  exact ⟨hcomp.symm, hcomp ▸ hi.time⟩

/-- The other devices and the timer do not touch the device. -/
theorem TimerStep.frame {t t' : Timer} {e : TimerEvent} (hs : TimerStep n t e t')
    (hne : e.device ≠ some d) :
    t'.loc d = t.loc d ∧ (nextSlots t h e).completed d = h.completed d := by
  have hother : ∀ {k : ℕ}, some k ≠ some d → d ≠ k := by
    rintro k hne rfl
    exact hne rfl
  cases hs with
  | setDone _ _ => exact ⟨Function.update_of_ne (hother hne) _ _, rfl⟩
  | ret _ _ _ =>
      exact ⟨Function.update_of_ne (hother hne) _ _, Function.update_of_ne (hother hne) _ _⟩
  | detach _ _ => exact ⟨Function.update_of_ne (hother hne) _ _, rfl⟩
  | head _ => exact ⟨rfl, rfl⟩
  | pass _ _ _ => exact ⟨rfl, rfl⟩
  | tick _ => exact ⟨rfl, rfl⟩
  | clear _ _ => exact ⟨rfl, rfl⟩
  | leave _ => exact ⟨rfl, rfl⟩
  | stop => exact ⟨rfl, rfl⟩

theorem Admitted.add {i : ℕ} {proc : LdProcess} (ha : Admitted ps i a)
    (hproc : ps[i]? = some proc) :
    Admitted ps (i + 1)
      (a ++ [⟨proc, arrival (startTime ps) i % 2 ^ 64, arrival (startTime ps) i⟩]) := by
  refine ⟨by rw [List.length_append, ha.length, List.length_singleton], ?_⟩
  intro j x hx
  by_cases hj : j < a.length
  · rw [List.getElem?_append_left hj] at hx
    exact ha.get j x hx
  · rw [List.getElem?_append_right (by omega), List.getElem?_singleton] at hx
    split_ifs at hx with hzero
    obtain rfl := Option.some.inj hx
    obtain rfl : j = i := by
      have hlen := ha.length
      omega
    exact ⟨hproc, rfl, rfl⟩

theorem LdInv.step {e : LdEvent} (hi : LdInv n d ps s h a) (hd : d < n)
    (hs : LdStep n d ps s e s') :
    LdInv n d ps s' (nextAdmissions s (h, a) e).1 (nextAdmissions s (h, a) e).2 := by
  have hclock := hi.timer.of_outside hd
  have hreached := hi.reached
  have hloc := hi.loc
  cases hs with
  | other hstep hne =>
      obtain ⟨hloc', hcomp⟩ := hstep.frame (h := h) hne
      refine ⟨hi.timer.step hstep, hloc'.trans hloc, ?_, hi.admitted, hi.le, hi.lt, hi.last⟩
      show Reached _ _ ((nextSlots s.timer h _).completed d) _
      rw [hcomp]
      exact hreached
  | load htop hlt =>
      rw [htop] at hloc hreached
      refine ⟨hi.timer, hloc, ?_, hi.admitted, hi.le, fun _ => hlt, fun hl => by simp at hl⟩
      show earliest _ _ ≤ h.completed d ∧ h.completed d ≤ arrival _ _
      rw [show h.completed d = _ from hreached]
      exact ⟨Nat.le_refl _, le_firstFrom _ _⟩
  | @early proc htest hproc htime =>
      rw [htest] at hloc hreached
      obtain ⟨hfrom, hto⟩ := hreached
      have hlt := hi.lt (congrArg LdLoc.pending htest)
      refine ⟨hi.timer, hloc, ⟨hfrom, ?_⟩, hi.admitted, hi.le, fun _ => hlt,
        fun hl => by simp at hl⟩
      -- the slot of the process is not below its start time, the present one is
      have hmod : startTime ps s.i ≤ arrival (startTime ps) s.i % 2 ^ 64 := by
        unfold arrival
        rw [firstFrom_mod (startTime_lt ps s.i)]
        exact Nat.le_max_left _ _
      rw [(hclock hloc).2, ← startTime_eq hproc] at htime
      apply Nat.lt_of_le_of_ne hto
      intro heq
      rw [heq] at htime
      omega
  | @due proc htest hproc htime =>
      rw [htest] at hloc hreached
      obtain ⟨hfrom, hto⟩ := hreached
      have hlt := hi.lt (congrArg LdLoc.pending htest)
      refine ⟨hi.timer, hloc, ?_, hi.admitted, hi.le, fun _ => hlt, fun hl => by simp at hl⟩
      rw [(hclock hloc).2, ← startTime_eq hproc] at htime
      exact Nat.le_antisymm hto (firstFrom_le hfrom (Nat.not_lt.mp htime))
  | @add proc hdue hproc =>
      rw [hdue] at hloc hreached
      obtain ⟨hticks, htime⟩ := hclock hloc
      rw [show h.completed d = _ from hreached] at hticks htime
      have hlt : s.i < ps.length := (List.getElem?_eq_some_iff.mp hproc).1
      refine ⟨hi.timer, hloc, congrArg (· + 1) hreached, ?_, hlt,
        fun hl => by simp [LdLoc.pending] at hl, fun hl => by simp at hl⟩
      show Admitted ps (s.i + 1) (a ++ [⟨proc, s.timer.time, h.ticks⟩])
      rw [hticks, htime]
      exact hi.admitted.add hproc
  | @enter loc t henter hstep =>
      have htimer := hi.timer.step hstep
      cases hstep with
      | setDone _ _ =>
          have hinside : ((s.timer.setDone d true).goto d .inside).loc d = .inside :=
            Function.update_self ..
          cases hl : s.loc with
          | early =>
              rw [hl] at henter hreached
              obtain rfl := Option.some.inj henter
              exact ⟨htimer, hinside, hreached, hi.admitted, hi.le,
                fun _ => hi.lt (congrArg LdLoc.pending hl), fun hl => by simp at hl⟩
          | added =>
              rw [hl] at henter hreached
              obtain rfl := Option.some.inj henter
              exact ⟨htimer, hinside, hreached, hi.admitted, hi.le,
                fun hl => by simp [LdLoc.pending] at hl, fun hl => by simp at hl⟩
          | _ => simp [hl, LdLoc.enter] at henter
  | @leave loc t hleave hstep =>
      have htimer := hi.timer.step hstep
      cases hstep with
      | ret _ _ _ =>
          have houtside : (s.timer.goto d .outside).loc d = .outside := Function.update_self ..
          have hcomp : (nextSlots s.timer h (.ret d)).completed d = h.completed d + 1 :=
            Function.update_self ..
          cases hl : s.loc with
          | waiting =>
              rw [hl] at hleave hreached
              obtain rfl := Option.some.inj hleave
              refine ⟨htimer, houtside, ?_, hi.admitted, hi.le,
                fun _ => hi.lt (congrArg LdLoc.pending hl), fun hl => by simp at hl⟩
              show earliest _ _ ≤ (nextSlots s.timer h (.ret d)).completed d ∧
                (nextSlots s.timer h (.ret d)).completed d ≤ arrival _ _
              rw [hcomp]
              exact ⟨Nat.le_succ_of_le hreached.1, hreached.2⟩
          | resting =>
              rw [hl] at hleave hreached
              obtain rfl := Option.some.inj hleave
              refine ⟨htimer, houtside, ?_, hi.admitted, hi.le,
                fun hl => by simp [LdLoc.pending] at hl, fun hl => by simp at hl⟩
              exact hcomp.trans hreached
          | _ => simp [hl, LdLoc.leave] at hleave
  | finish htop hge =>
      rw [htop] at hloc
      exact ⟨hi.timer, hloc, trivial, hi.admitted, hi.le, fun hl => by simp [LdLoc.pending] at hl,
        fun _ => Nat.le_antisymm hi.le (Nat.not_lt.mp hge)⟩
  | detach hlast hstep =>
      have htimer := hi.timer.step hstep
      cases hstep with
      | detach _ _ =>
          exact ⟨htimer, Function.update_self .., trivial, hi.admitted, hi.le,
            fun hl => by simp [LdLoc.pending] at hl, fun _ => hi.last (.inl hlast)⟩

theorem LdInv.of_run {es : List LdEvent} (hd : d < n)
    (hr : (ldLts n d ps).Run (Loading.start, Slots.start, []) es (s, h, a)) :
    LdInv n d ps s h a := by
  have hinit : LdInv n d ps Loading.start Slots.start [] :=
    ⟨⟨fun _ _ => .outside, rfl⟩, rfl, rfl, ⟨rfl, by simp⟩, Nat.zero_le _,
      by simp [Loading.start, LdLoc.pending], by simp [Loading.start]⟩
  refine hr.invariant (I := fun x => LdInv n d ps x.1 x.2.1 x.2.2) ?_ hinit
  rintro ⟨s, h, a⟩ e ⟨s', h', a'⟩ hi ⟨hs, hx⟩
  obtain ⟨rfl, rfl⟩ := Prod.mk.inj hx
  exact hi.step hd hs

/-! ### Arrival times -/

/-- What the calls of `add_proc` so far say about the slots, and that the loader goes on. -/
structure LoadTimes (n d : ℕ) (ps : List LdProcess) (s : Loading) (h : Slots)
    (a : List Admission) : Prop where
  order : a.map Admission.proc = ps.take a.length
  slot : ∀ i x, a[i]? = some x → x.time = slotOf (startTime ps) i
  notBefore : ∀ x ∈ a, x.proc.startTime ≤ x.time
  single : a.Pairwise fun x y => x.slot < y.slot
  time : ∀ x ∈ a, x.time = x.slot % 2 ^ 64
  count : ∀ i x, a[i]? = some x → slotNat (startTime ps) i < 2 ^ 64 →
    x.slot = slotNat (startTime ps) i
  inTime : ∀ i < ps.length, arrival (startTime ps) i < h.ticks → i < a.length
  goesOn : s.timer.loc d = .outside → ∃ e s', LdStep n d ps s e s' ∧ s'.loc ≠ s.loc
  ended : s.timer.loc d = .detached → a.map Admission.proc = ps

theorem Admitted.order {i : ℕ} (ha : Admitted ps i a) :
    a.map Admission.proc = ps.take a.length := by
  apply List.ext_getElem?
  intro j
  rw [List.getElem?_map, List.getElem?_take]
  by_cases hj : j < a.length
  · have hx : a[j]? = some a[j] := List.getElem?_eq_getElem hj
    rw [hx, if_pos hj, (ha.get j _ hx).1]
    rfl
  · rw [if_neg hj, List.getElem?_eq_none (by omega)]
    rfl

theorem Admitted.single {i : ℕ} (ha : Admitted ps i a) :
    a.Pairwise fun x y => x.slot < y.slot := by
  rw [List.pairwise_iff_getElem]
  intro j k hj hk hlt
  rw [(ha.get j _ (List.getElem?_eq_getElem hj)).2.1,
    (ha.get k _ (List.getElem?_eq_getElem hk)).2.1]
  exact arrival_mono _ hlt

/-- The clock has not passed the slot of the next process. -/
theorem LdInv.ticks_le (hi : LdInv n d ps s h a) (hd : d < n) (hlt : s.i < ps.length) :
    h.ticks ≤ arrival (startTime ps) s.i := by
  have hreached := hi.reached
  have hloc := hi.loc
  have hlast : ¬ (s.loc = .last ∨ s.loc = .ended) := by
    intro hl
    have := hi.last hl
    omega
  have hclock := hi.timer.of_outside hd
  have hinside : s.timer.loc d ≠ .detached → h.ticks ≤ h.completed d + 1 := by
    intro hne
    cases hi.timer.view_cases hd with
    | inl hset =>
        have hc : h.completed d = h.ticks ∨ h.completed d + 1 = h.ticks := hset.completed hne
        omega
    | inr hdue =>
        have hc : h.completed d + 1 = h.ticks := hdue.completed hne
        omega
  have hfrom : earliest (startTime ps) s.i ≤ arrival (startTime ps) s.i := le_firstFrom _ _
  cases hl : s.loc with
  | top =>
      rw [hl] at hloc hreached
      rw [(hclock hloc).1, show h.completed d = _ from hreached]
      exact hfrom
  | test =>
      rw [hl] at hloc hreached
      rw [(hclock hloc).1]
      exact hreached.2
  | early =>
      rw [hl] at hloc hreached
      rw [(hclock hloc).1]
      exact Nat.le_of_lt hreached.2
  | waiting =>
      rw [hl] at hloc hreached
      exact (hinside (by rw [hloc]; simp [LdLoc.loc])).trans hreached.2
  | due =>
      rw [hl] at hloc hreached
      rw [(hclock hloc).1]
      exact Nat.le_of_eq hreached
  | added =>
      rw [hl] at hloc hreached
      rw [(hclock hloc).1]
      have heq : h.completed d + 1 = _ := hreached
      omega
  | resting =>
      rw [hl] at hloc hreached
      have heq : h.completed d + 1 = _ := hreached
      have hle := hinside (by rw [hloc]; simp [LdLoc.loc])
      omega
  | last => exact absurd (.inl hl) hlast
  | ended => exact absurd (.inr hl) hlast

/-- Outside of `next_slot` the loader can always make its next step. -/
theorem LdInv.goesOn (hi : LdInv n d ps s h a) (hd : d < n) (hout : s.timer.loc d = .outside) :
    ∃ e s', LdStep n d ps s e s' ∧ s'.loc ≠ s.loc := by
  have hloc := hi.loc
  have hproc : s.loc.pending = true → ∃ proc, ps[s.i]? = some proc :=
    fun hp => ⟨_, List.getElem?_eq_getElem (hi.lt hp)⟩
  cases hl : s.loc with
  | top =>
      by_cases hlt : s.i < ps.length
      · exact ⟨_, _, .load hl hlt, by simp⟩
      · exact ⟨_, _, .finish hl hlt, by simp⟩
  | test =>
      obtain ⟨proc, hp⟩ := hproc (congrArg LdLoc.pending hl)
      by_cases htime : s.timer.time < proc.startTime
      · exact ⟨_, _, .early hl hp htime, by simp⟩
      · exact ⟨_, _, .due hl hp htime, by simp⟩
  | early => exact ⟨_, _, .enter (congrArg LdLoc.enter hl) (.setDone hd hout), by simp⟩
  | due =>
      obtain ⟨proc, hp⟩ := hproc (congrArg LdLoc.pending hl)
      exact ⟨_, _, .add hl hp, by simp⟩
  | added => exact ⟨_, _, .enter (congrArg LdLoc.enter hl) (.setDone hd hout), by simp⟩
  | last => exact ⟨_, _, .detach hl (.detach hd hout), by simp⟩
  | waiting => simp [hl, LdLoc.loc, hout] at hloc
  | resting => simp [hl, LdLoc.loc, hout] at hloc
  | ended => simp [hl, LdLoc.loc, hout] at hloc

/-- **Arrival times.**  The processes are added in the order of the file, process `i` in slot
`slotOf i`, and by then at the latest, whatever the timer and the other devices do. -/
theorem arrivals {es : List LdEvent} (hd : d < n)
    (hr : (ldLts n d ps).Run (Loading.start, Slots.start, []) es (s, h, a)) :
    LoadTimes n d ps s h a := by
  have hi := LdInv.of_run hd hr
  have hlen := hi.admitted.length
  have hslot : ∀ i x, a[i]? = some x → x.time = slotOf (startTime ps) i := by
    intro i x hx
    obtain ⟨_, hslot, htime⟩ := hi.admitted.get i x hx
    rw [htime, hslot, arrival_mod (startTime_lt ps)]
  refine ⟨hi.admitted.order, hslot, ?_, hi.admitted.single, ?_, ?_, ?_, hi.goesOn hd, ?_⟩
  · intro x hx
    obtain ⟨i, hx⟩ := List.mem_iff_getElem?.mp hx
    obtain ⟨hproc, _, _⟩ := hi.admitted.get i x hx
    rw [hslot i x hx, ← startTime_eq hproc]
    cases i with
    | zero => exact Nat.le_refl _
    | succ i => exact Nat.le_max_left _ _
  · intro x hx
    obtain ⟨i, hx⟩ := List.mem_iff_getElem?.mp hx
    exact (hi.admitted.get i x hx).2.2
  · intro i x hx hlt
    rw [(hi.admitted.get i x hx).2.1, arrival_of_lt hlt]
  · intro i hi' hpast
    by_contra hnot
    have hle := hi.ticks_le hd (by omega)
    cases Nat.lt_or_eq_of_le (show s.i ≤ i by omega) with
    | inl hlt =>
        have hmono := arrival_mono (startTime ps) hlt
        omega
    | inr heq =>
        rw [heq] at hle
        omega
  · intro hdet
    have hloc := hi.loc
    rw [hdet] at hloc
    have hend : s.loc = .ended := by
      cases hl : s.loc with
      | ended => rfl
      | _ => simp [hl, LdLoc.loc] at hloc
    rw [hi.admitted.order, hlen, hi.last (.inr hend), List.take_length]

/-! ### A run -/

theorem zero_lt_two_pow : 0 < 2 ^ 64 := by decide

theorem one_lt_two_pow : 1 < 2 ^ 64 := by decide

/-- The first process has a later start time than the second one. -/
def lateFirst : List LdProcess := [⟨"p0", 1, 0, one_lt_two_pow⟩, ⟨"p1", 0, 1, zero_lt_two_pow⟩]

/-- The loader and a CPU are in `next_slot`. -/
def bothEntered : List LdEvent :=
  [.timer (.setDone 0), .timer (.setDone 1), .timer .head, .timer (.pass 0), .timer (.pass 1),
    .timer .tick, .timer (.clear 0), .timer (.clear 1), .timer .leave, .timer (.ret 1),
    .timer (.ret 0)]

/-- The loader waits for slot 1 with the first process, and adds the second one in slot 2. -/
def arrivalSample : List LdEvent :=
  [.load, .test] ++ bothEntered ++ [.test] ++ (lateFirst.take 1).map .add ++ bothEntered ++
    [.load, .test] ++ (lateFirst.drop 1).map .add

theorem arrivals_sample : ∃ s h a, (ldLts 2 0 lateFirst).Run (Loading.start, Slots.start, [])
    arrivalSample (s, h, a) ∧ LoadTimes 2 0 lateFirst s h a ∧
      a.map (fun x => (x.proc.path, x.slot)) = [("p0", 1), ("p1", 2)] := by
  have hsome : (Lts.replay (Lts.nextGhost (Loading.next 2 0 lateFirst) nextAdmissions)
      (Loading.start, Slots.start, []) arrivalSample).any (fun x =>
        x.2.2.map (fun x => (x.proc.path, x.slot)) = [("p0", 1), ("p1", 2)]) = true := by
    decide +kernel
  obtain ⟨⟨s, h, a⟩, hs, hslots⟩ := (Option.any_eq_true _ _).mp hsome
  have hr : (ldLts 2 0 lateFirst).Run (Loading.start, Slots.start, []) arrivalSample (s, h, a) :=
    Lts.Run.of_replay (Lts.withGhost_of_nextGhost fun _ _ _ => ldStep_of_next) hs
  exact ⟨s, h, a, hr, arrivals (by decide) hr, of_decide_eq_true hslots⟩

end BtlOs
