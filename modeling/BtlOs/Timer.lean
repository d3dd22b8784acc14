import BtlOs.Lib.Lts
import Mathlib.Algebra.Group.Nat.Defs
import Mathlib.Logic.Function.Basic

/-! # The time-slot barrier (`timer.c`)

The timer and `n` devices, which were attached before `start_timer`.  A step is one critical
section or one statement outside of them; `temp` of `timer_routine` is an index into `dev_list`,
which no longer changes.  A device is a thread that calls `next_slot` any number of times and
`detach_event` at its end.

A ghost component counts the increments of `_time` without the wrap of `uint64_t`, the calls of
`next_slot` that each device has completed, and the slot in which it last set `done`.

From an increment to the clearing of its flag a device is `Due`; at all other times it is
`Settled`.  The invariant says which of the two each device is in each phase of the timer. -/

namespace BtlOs

/-! ### The model -/

/-- `struct timer_id_t` without its locks. -/
structure TimerId where
  done : Bool
  fsh : Bool

/-- Where a device is: in its own code, in `next_slot`, or at its end. -/
inductive Loc where
  | outside
  | inside
  | detached
deriving DecidableEq

/-- Where the timer is: at `while (!timer_stop)`, in the first loop, after it, or in the second
loop, with its local counters. -/
inductive Phase where
  | head
  | wait (temp fsh event : ℕ)
  | release (temp fsh event : ℕ)
  | exited

structure Timer where
  dev : ℕ → TimerId
  loc : ℕ → Loc
  time : ℕ
  phase : Phase
  timerStop : Bool

inductive TimerEvent where
  | setDone (d : ℕ)
  | ret (d : ℕ)
  | detach (d : ℕ)
  | head
  | pass (d : ℕ)
  | tick
  | clear (d : ℕ)
  | leave
  | stop

namespace Timer

variable (s : Timer)

def setDone (d : ℕ) (done : Bool) : Timer :=
  { s with dev := Function.update s.dev d ⟨done, (s.dev d).fsh⟩ }

def setFsh (d : ℕ) : Timer :=
  { s with dev := Function.update s.dev d ⟨(s.dev d).done, true⟩ }

def goto (d : ℕ) (loc : Loc) : Timer := { s with loc := Function.update s.loc d loc }

/-- When the threads start. -/
def start : Timer := ⟨fun _ => ⟨false, false⟩, fun _ => .outside, 0, .head, false⟩

end Timer

inductive TimerStep (n : ℕ) (s : Timer) : TimerEvent → Timer → Prop
  | setDone {d : ℕ} : d < n → s.loc d = .outside →
      TimerStep n s (.setDone d) ((s.setDone d true).goto d .inside)
  | ret {d : ℕ} : d < n → s.loc d = .inside → (s.dev d).done = false →
      TimerStep n s (.ret d) (s.goto d .outside)
  | detach {d : ℕ} : d < n → s.loc d = .outside →
      TimerStep n s (.detach d) ((s.setFsh d).goto d .detached)
  | head : s.phase = .head →
      TimerStep n s .head { s with phase := if s.timerStop then .exited else .wait 0 0 0 }
  | pass {d fsh event : ℕ} : s.phase = .wait d fsh event → d < n →
      (s.dev d).done = true ∨ (s.dev d).fsh = true → TimerStep n s (.pass d)
        { s with phase := .wait (d + 1) (if (s.dev d).fsh then fsh + 1 else fsh) (event + 1) }
  | tick {fsh event : ℕ} : s.phase = .wait n fsh event → TimerStep n s .tick
      { s with time := (s.time + 1) % 2 ^ 64, phase := .release 0 fsh event }
  | clear {d fsh event : ℕ} : s.phase = .release d fsh event → d < n →
      TimerStep n s (.clear d) { s.setDone d false with phase := .release (d + 1) fsh event }
  | leave {fsh event : ℕ} : s.phase = .release n fsh event →
      TimerStep n s .leave { s with phase := if fsh = event then .exited else .head }
  | stop : TimerStep n s .stop { s with timerStop := true }

/-! ### Computed steps -/

/-- The step of the timer or of a device, where it is possible. -/
def Timer.next (n : ℕ) (s : Timer) : TimerEvent → Option Timer
  | .setDone d =>
      if d < n ∧ s.loc d = .outside then some ((s.setDone d true).goto d .inside) else none
  | .ret d =>
      if d < n ∧ s.loc d = .inside ∧ (s.dev d).done = false then some (s.goto d .outside) else none
  | .detach d =>
      if d < n ∧ s.loc d = .outside then some ((s.setFsh d).goto d .detached) else none
  | .head =>
      match s.phase with
      | .head => some { s with phase := if s.timerStop then .exited else .wait 0 0 0 }
      | _ => none
  | .pass d =>
      match s.phase with
      | .wait temp fsh event =>
          if temp = d ∧ d < n ∧ ((s.dev d).done = true ∨ (s.dev d).fsh = true) then some { s with
            phase := .wait (d + 1) (if (s.dev d).fsh then fsh + 1 else fsh) (event + 1) } else none
      | _ => none
  | .tick =>
      match s.phase with
      | .wait temp fsh event => if temp = n then some { s with
            time := (s.time + 1) % 2 ^ 64, phase := .release 0 fsh event } else none
      | _ => none
  | .clear d =>
      match s.phase with
      | .release temp fsh event => if temp = d ∧ d < n then some
            { s.setDone d false with phase := .release (d + 1) fsh event } else none
      | _ => none
  | .leave =>
      match s.phase with
      | .release temp fsh event => if temp = n then some
            { s with phase := if fsh = event then .exited else .head } else none
      | _ => none
  | .stop => some { s with timerStop := true }

theorem timerStep_of_next {n : ℕ} {s s' : Timer} {e : TimerEvent} (h : s.next n e = some s') :
    TimerStep n s e s' := by
  cases e with
  | setDone d =>
      simp only [Timer.next, Option.ite_none_right_eq_some, Option.some.injEq] at h
      obtain ⟨⟨hd, hloc⟩, rfl⟩ := h
      exact .setDone hd hloc
  | ret d =>
      simp only [Timer.next, Option.ite_none_right_eq_some, Option.some.injEq] at h
      obtain ⟨⟨hd, hloc, hdone⟩, rfl⟩ := h
      exact .ret hd hloc hdone
  | detach d =>
      simp only [Timer.next, Option.ite_none_right_eq_some, Option.some.injEq] at h
      obtain ⟨⟨hd, hloc⟩, rfl⟩ := h
      exact .detach hd hloc
  | head =>
      unfold Timer.next at h
      cases hp : s.phase with
      | head =>
          simp only [hp, Option.some.injEq] at h
          exact h ▸ .head hp
      | _ => simp [hp] at h
  | pass d =>
      unfold Timer.next at h
      cases hp : s.phase with
      | wait temp fsh event =>
          simp only [hp, Option.ite_none_right_eq_some, Option.some.injEq] at h
          obtain ⟨⟨rfl, hd, hflags⟩, rfl⟩ := h
          exact .pass hp hd hflags
      | _ => simp [hp] at h
  | tick =>
      unfold Timer.next at h
      cases hp : s.phase with
      | wait temp fsh event =>
          simp only [hp, Option.ite_none_right_eq_some, Option.some.injEq] at h
          obtain ⟨rfl, rfl⟩ := h
          exact .tick hp
      | _ => simp [hp] at h
  | clear d =>
      unfold Timer.next at h
      cases hp : s.phase with
      | release temp fsh event =>
          simp only [hp, Option.ite_none_right_eq_some, Option.some.injEq] at h
          obtain ⟨⟨rfl, hd⟩, rfl⟩ := h
          exact .clear hp hd
      | _ => simp [hp] at h
  | leave =>
      unfold Timer.next at h
      cases hp : s.phase with
      | release temp fsh event =>
          simp only [hp, Option.ite_none_right_eq_some, Option.some.injEq] at h
          obtain ⟨rfl, rfl⟩ := h
          exact .leave hp
      | _ => simp [hp] at h
  | stop =>
      obtain rfl := Option.some.inj h
      exact .stop

/-! ### The history -/

/-- What happened so far. -/
structure Slots where
  ticks : ℕ
  entered : ℕ → Bool
  setAt : ℕ → ℕ
  completed : ℕ → ℕ

/-- The history after an event. -/
def nextSlots (_ : Timer) (h : Slots) : TimerEvent → Slots
  | .setDone d => { h with
      entered := Function.update h.entered d true
      setAt := Function.update h.setAt d h.ticks }
  | .ret d => { h with completed := Function.update h.completed d (h.completed d + 1) }
  | .tick => { h with ticks := h.ticks + 1, entered := fun _ => false }
  | _ => h

def Slots.start : Slots := ⟨0, fun _ => false, fun _ => 0, fun _ => 0⟩

def timerLts (n : ℕ) : Lts (Timer × Slots) TimerEvent := Lts.withGhost ⟨TimerStep n⟩ nextSlots

/-! ### The invariant -/

/-- What the history and the flags say about one device. -/
structure View where
  loc : Loc
  id : TimerId
  ticks : ℕ
  entered : Bool
  setAt : ℕ
  completed : ℕ

def view (s : Timer) (h : Slots) (d : ℕ) : View :=
  ⟨s.loc d, s.dev d, h.ticks, h.entered d, h.setAt d, h.completed d⟩

/-- The device is not between an increment and the clearing of its flag. -/
inductive Settled : View → Prop
  | outside {ticks setAt : ℕ} {entered : Bool} :
      Settled ⟨.outside, ⟨false, false⟩, ticks, entered, setAt, ticks⟩
  | entered {ticks : ℕ} : Settled ⟨.inside, ⟨true, false⟩, ticks, true, ticks, ticks⟩
  | released {completed setAt : ℕ} {entered : Bool} :
      Settled ⟨.inside, ⟨false, false⟩, completed + 1, entered, setAt, completed⟩
  | detached {ticks setAt completed : ℕ} {entered : Bool} :
      Settled ⟨.detached, ⟨false, true⟩, ticks, entered, setAt, completed⟩

/-- The time was incremented, and the flag of the device is not yet cleared. -/
inductive Due : View → Prop
  | waiting {completed : ℕ} {entered : Bool} :
      Due ⟨.inside, ⟨true, false⟩, completed + 1, entered, completed, completed⟩
  | detached {ticks setAt completed : ℕ} {entered : Bool} :
      Due ⟨.detached, ⟨false, true⟩, ticks, entered, setAt, completed⟩

/-- What the timer knows in each of its phases. -/
def PhaseOk (n : ℕ) (s : Timer) (h : Slots) : Phase → Prop
  | .head => ∀ d < n, Settled (view s h d)
  | .wait temp fsh event => temp ≤ n ∧ event = temp ∧ fsh ≤ temp ∧
      (fsh = temp → ∀ d < temp, (s.dev d).fsh = true) ∧
      (∀ d < temp, (s.dev d).done = true ∨ (s.dev d).fsh = true) ∧
      ∀ d < n, Settled (view s h d)
  | .release temp fsh event => temp ≤ n ∧ event = n ∧ (fsh = n → ∀ d < n, (s.dev d).fsh = true) ∧
      (∀ d < temp, Settled (view s h d)) ∧ ∀ d, temp ≤ d → d < n → Due (view s h d)
  | .exited => (s.timerStop = true ∨ ∀ d < n, (s.dev d).fsh = true) ∧
      ∀ d < n, Settled (view s h d)

structure TimerInv (n : ℕ) (s : Timer) (h : Slots) : Prop where
  phase : PhaseOk n s h s.phase
  time : s.time = h.ticks % 2 ^ 64

/-! ### One device -/

section views

variable {v : View}

theorem Settled.of_outside (h : Settled v) (hloc : v.loc = .outside) :
    v.id = ⟨false, false⟩ ∧ v.completed = v.ticks := by
  cases h with
  | outside => exact ⟨rfl, rfl⟩
  | entered => cases hloc
  | released => cases hloc
  | detached => cases hloc

theorem Settled.of_inside (h : Settled v) (hloc : v.loc = .inside) (hdone : v.id.done = false) :
    v.id = ⟨false, false⟩ ∧ v.ticks = v.completed + 1 := by
  cases h with
  | outside => cases hloc
  | entered => cases hdone
  | released => exact ⟨rfl, rfl⟩
  | detached => cases hloc

/-- A device that the timer may pass: it entered `next_slot` in this slot, or has detached. -/
theorem Settled.of_flags (h : Settled v) (hflags : v.id.done = true ∨ v.id.fsh = true) :
    v = ⟨.inside, ⟨true, false⟩, v.ticks, true, v.ticks, v.ticks⟩ ∨
      v = ⟨.detached, ⟨false, true⟩, v.ticks, v.entered, v.setAt, v.completed⟩ := by
  cases h with
  | outside => simp at hflags
  | entered => exact .inl rfl
  | released => simp at hflags
  | detached => exact .inr rfl

theorem Settled.completed (h : Settled v) (hloc : v.loc ≠ .detached) :
    v.completed = v.ticks ∨ v.completed + 1 = v.ticks := by
  cases h with
  | outside => exact .inl rfl
  | entered => exact .inl rfl
  | released => exact .inr rfl
  | detached => exact absurd rfl hloc

theorem Settled.loc_of_fsh (h : Settled v) (hfsh : v.id.fsh = true) : v.loc = .detached := by
  cases h with
  | outside => cases hfsh
  | entered => cases hfsh
  | released => cases hfsh
  | detached => rfl

theorem Due.loc_ne (h : Due v) : v.loc ≠ .outside := by
  cases h with
  | waiting => simp
  | detached => simp

theorem Due.done_of_inside (h : Due v) (hloc : v.loc = .inside) : v.id.done = true := by
  cases h with
  | waiting => rfl
  | detached => cases hloc

theorem Due.setAt_lt (h : Due v) (hdone : v.id.done = true) : v.setAt < v.ticks := by
  cases h with
  | waiting => exact Nat.lt_succ_self _
  | detached => cases hdone

theorem Due.completed (h : Due v) (hloc : v.loc ≠ .detached) : v.completed + 1 = v.ticks := by
  cases h with
  | waiting => rfl
  | detached => exact absurd rfl hloc

/-- The flag is cleared after the increment of its slot. -/
theorem Due.clear (h : Due v) : Settled { v with id := ⟨false, v.id.fsh⟩ } := by
  cases h with
  | waiting => exact .released
  | detached => exact .detached

end views

/-! ### The steps of a device -/

variable {n d : ℕ} {s s' : Timer} {h h' : Slots}

theorem PhaseOk.device {φ : Phase} (hok : PhaseOk n s h φ) (hd : d < n)
    (hother : ∀ k, k ≠ d → view s' h' k = view s h k) (hstop : s'.timerStop = s.timerStop)
    (hsettled : Settled (view s h d) → Settled (view s' h' d))
    (hdue : Due (view s h d) → Due (view s' h' d))
    (hflags : (s.dev d).done = true ∨ (s.dev d).fsh = true →
      (s'.dev d).done = true ∨ (s'.dev d).fsh = true)
    (hfsh : (s.dev d).fsh = true → (s'.dev d).fsh = true) : PhaseOk n s' h' φ := by
  have hset : ∀ k, Settled (view s h k) → Settled (view s' h' k) := by
    intro k hk
    by_cases he : k = d
    · subst he
      exact hsettled hk
    · rwa [hother k he]
  have hdues : ∀ k, Due (view s h k) → Due (view s' h' k) := by
    intro k hk
    by_cases he : k = d
    · subst he
      exact hdue hk
    · rwa [hother k he]
  have hid : ∀ k, k ≠ d → s'.dev k = s.dev k := fun k he => congrArg View.id (hother k he)
  have hfshs : ∀ k, (s.dev k).fsh = true → (s'.dev k).fsh = true := by
    intro k hk
    by_cases he : k = d
    · subst he
      exact hfsh hk
    · rwa [hid k he]
  have hflagss : ∀ k, (s.dev k).done = true ∨ (s.dev k).fsh = true →
      (s'.dev k).done = true ∨ (s'.dev k).fsh = true := by
    intro k hk
    by_cases he : k = d
    · subst he
      exact hflags hk
    · rwa [hid k he]
  cases φ with
  | head => exact fun k hk => hset k (hok k hk)
  | wait temp fsh event =>
      obtain ⟨hle, hev, hf, hall, hpass, hs⟩ := hok
      exact ⟨hle, hev, hf, fun e k hk => hfshs k (hall e k hk), fun k hk => hflagss k (hpass k hk),
        fun k hk => hset k (hs k hk)⟩
  | release temp fsh event =>
      obtain ⟨hle, hev, hall, hs, hd'⟩ := hok
      exact ⟨hle, hev, fun e k hk => hfshs k (hall e k hk), fun k hk => hset k (hs k hk),
        fun k hk hk' => hdues k (hd' k hk hk')⟩
  | exited =>
      obtain ⟨hall, hs⟩ := hok
      rw [← hstop] at hall
      exact ⟨hall.imp_right fun hall k hk => hfshs k (hall k hk), fun k hk => hset k (hs k hk)⟩

theorem TimerInv.setDone (hi : TimerInv n s h) (hd : d < n) (hloc : s.loc d = .outside) :
    TimerInv n ((s.setDone d true).goto d .inside) (nextSlots s h (.setDone d)) := by
  refine ⟨hi.phase.device hd ?_ rfl ?_ ?_ ?_ ?_, hi.time⟩
  · intro k hk
    simp [view, Timer.setDone, Timer.goto, nextSlots, hk]
  · intro hs
    obtain ⟨hid, hcomp⟩ := hs.of_outside hloc
    have hv : view ((s.setDone d true).goto d .inside) (nextSlots s h (.setDone d)) d =
        ⟨.inside, ⟨true, false⟩, h.ticks, true, h.ticks, h.ticks⟩ := by
      simp only [view] at hid hcomp
      simp [view, Timer.setDone, Timer.goto, nextSlots, hid, hcomp]
    rw [hv]
    exact .entered
  · exact fun hdue => absurd hloc hdue.loc_ne
  · intro _
    simp [Timer.setDone, Timer.goto]
  · intro hf
    simpa [Timer.setDone, Timer.goto] using hf

theorem TimerInv.ret (hi : TimerInv n s h) (hd : d < n) (hloc : s.loc d = .inside)
    (hdone : (s.dev d).done = false) :
    TimerInv n (s.goto d .outside) (nextSlots s h (.ret d)) := by
  refine ⟨hi.phase.device hd ?_ rfl ?_ ?_ id id, hi.time⟩
  · intro k hk
    simp [view, Timer.goto, nextSlots, hk]
  · intro hs
    obtain ⟨hid, hcomp⟩ := hs.of_inside hloc hdone
    have hv : view (s.goto d .outside) (nextSlots s h (.ret d)) d =
        ⟨.outside, ⟨false, false⟩, h.ticks, h.entered d, h.setAt d, h.ticks⟩ := by
      simp only [view] at hid hcomp
      simp [view, Timer.goto, nextSlots, hid, hcomp]
    rw [hv]
    exact .outside
  · intro hdue
    rw [show (s.dev d).done = true from hdue.done_of_inside hloc] at hdone
    cases hdone

theorem TimerInv.detach (hi : TimerInv n s h) (hd : d < n) (hloc : s.loc d = .outside) :
    TimerInv n ((s.setFsh d).goto d .detached) (nextSlots s h (.detach d)) := by
  refine ⟨hi.phase.device hd ?_ rfl ?_ ?_ ?_ ?_, hi.time⟩
  · intro k hk
    simp [view, Timer.setFsh, Timer.goto, nextSlots, hk]
  · intro hs
    obtain ⟨hid, _⟩ := hs.of_outside hloc
    have hv : view ((s.setFsh d).goto d .detached) (nextSlots s h (.detach d)) d =
        ⟨.detached, ⟨false, true⟩, h.ticks, h.entered d, h.setAt d, h.completed d⟩ := by
      simp only [view] at hid
      simp [view, Timer.setFsh, Timer.goto, nextSlots, hid]
    rw [hv]
    exact .detached
  · exact fun hdue => absurd hloc hdue.loc_ne
  · intro _
    simp [Timer.setFsh, Timer.goto]
  · intro _
    simp [Timer.setFsh, Timer.goto]

/-! ### The steps of the timer -/

theorem TimerInv.pass {fsh event : ℕ} (hi : TimerInv n s h) (hphase : s.phase = .wait d fsh event)
    (hd : d < n) (hflags : (s.dev d).done = true ∨ (s.dev d).fsh = true) :
    TimerInv n { s with
      phase := .wait (d + 1) (if (s.dev d).fsh then fsh + 1 else fsh) (event + 1) } h := by
  have hok := hi.phase
  rw [hphase] at hok
  obtain ⟨hle, rfl, hf, hall, hpass, hs⟩ := hok
  have hpass' : ∀ k < event + 1, (s.dev k).done = true ∨ (s.dev k).fsh = true := by
    intro k hk
    by_cases he : k = event
    · exact he ▸ hflags
    · exact hpass k (by omega)
  refine ⟨⟨hd, rfl, ?_, fun he k hk => ?_, hpass', hs⟩, hi.time⟩
  · split_ifs <;> omega
  · split_ifs at he with hfsh
    · by_cases hke : k = event
      · exact hke ▸ hfsh
      · exact hall (by omega) k (by omega)
    · omega

theorem TimerInv.tick {fsh event : ℕ} (hi : TimerInv n s h)
    (hphase : s.phase = .wait n fsh event) :
    TimerInv n { s with time := (s.time + 1) % 2 ^ 64, phase := .release 0 fsh event }
      (nextSlots s h .tick) := by
  have hok := hi.phase
  rw [hphase] at hok
  obtain ⟨_, rfl, _, hall, hpass, hs⟩ := hok
  refine ⟨⟨Nat.zero_le _, rfl, hall, fun k hk => absurd hk (Nat.not_lt_zero k), ?_⟩, ?_⟩
  · intro k _ hk
    cases (hs k hk).of_flags (hpass k hk) with
    | inl hv =>
        simp only [view, View.mk.injEq] at hv
        obtain ⟨hloc, hid, _, _, hset, hcomp⟩ := hv
        simp only [view, nextSlots, hloc, hid, hset, hcomp]
        exact .waiting
    | inr hv =>
        simp only [view, View.mk.injEq] at hv
        obtain ⟨hloc, hid, _⟩ := hv
        simp only [view, nextSlots, hloc, hid]
        exact .detached
  · show (s.time + 1) % 2 ^ 64 = (h.ticks + 1) % 2 ^ 64
    rw [hi.time]
    omega

theorem TimerInv.clear {fsh event : ℕ} (hi : TimerInv n s h)
    (hphase : s.phase = .release d fsh event) (hd : d < n) :
    TimerInv n { s.setDone d false with phase := .release (d + 1) fsh event } h := by
  have hok := hi.phase
  rw [hphase] at hok
  obtain ⟨_, rfl, hall, hs, hdue⟩ := hok
  have hother : ∀ k, k ≠ d →
      view { s.setDone d false with phase := .release (d + 1) fsh event } h k = view s h k := by
    intro k hk
    simp [view, Timer.setDone, hk]
  have hfsh : ∀ k, ((s.setDone d false).dev k).fsh = (s.dev k).fsh := by
    intro k
    by_cases hk : k = d
    · subst hk
      simp [Timer.setDone]
    · simp [Timer.setDone, hk]
  refine ⟨⟨hd, rfl, fun he k hk => ?_, fun k hk => ?_, fun k hk hk' => ?_⟩, hi.time⟩
  · rw [hfsh k]
    exact hall he k hk
  · by_cases he : k = d
    · subst he
      have hv : view { s.setDone k false with phase := .release (k + 1) fsh event } h k =
          { view s h k with id := ⟨false, (s.dev k).fsh⟩ } := by
        simp [view, Timer.setDone]
      rw [hv]
      exact (hdue k (Nat.le_refl k) hd).clear
    · rw [hother k he]
      exact hs k (by omega)
  · rw [hother k (by omega)]
    exact hdue k (by omega) hk'

theorem TimerInv.head (hi : TimerInv n s h) (hphase : s.phase = .head) :
    TimerInv n { s with phase := if s.timerStop then .exited else .wait 0 0 0 } h := by
  have hok := hi.phase
  rw [hphase] at hok
  refine ⟨?_, hi.time⟩
  by_cases hstop : s.timerStop = true
  · simp only [hstop, if_true]
    exact ⟨.inl rfl, hok⟩
  · simp only [hstop, if_false, Bool.false_eq_true]
    exact ⟨Nat.zero_le n, rfl, Nat.le_refl 0, fun _ k hk => absurd hk (Nat.not_lt_zero k),
      fun k hk => absurd hk (Nat.not_lt_zero k), hok⟩

theorem TimerInv.leave {fsh event : ℕ} (hi : TimerInv n s h)
    (hphase : s.phase = .release n fsh event) :
    TimerInv n { s with phase := if fsh = event then .exited else .head } h := by
  have hok := hi.phase
  rw [hphase] at hok
  obtain ⟨_, rfl, hall, hs, _⟩ := hok
  refine ⟨?_, hi.time⟩
  by_cases he : fsh = event
  · simp only [he, if_true]
    exact ⟨.inr (hall he), hs⟩
  · simp only [he, if_false]
    exact hs

theorem TimerInv.stop (hi : TimerInv n s h) : TimerInv n { s with timerStop := true } h := by
  refine ⟨?_, hi.time⟩
  have hok := hi.phase
  show PhaseOk n { s with timerStop := true } h s.phase
  cases hp : s.phase with
  | head =>
      rw [hp] at hok
      exact hok
  | wait temp fsh event =>
      rw [hp] at hok
      exact hok
  | release temp fsh event =>
      rw [hp] at hok
      exact hok
  | exited =>
      rw [hp] at hok
      exact ⟨.inl rfl, hok.2⟩

theorem TimerInv.step {e : TimerEvent} (hi : TimerInv n s h) (hs : TimerStep n s e s') :
    TimerInv n s' (nextSlots s h e) := by
  cases hs with
  | setDone hd hloc => exact hi.setDone hd hloc
  | ret hd hloc hdone => exact hi.ret hd hloc hdone
  | detach hd hloc => exact hi.detach hd hloc
  | head hphase => exact hi.head hphase
  | pass hphase hd hflags => exact hi.pass hphase hd hflags
  | tick hphase => exact hi.tick hphase
  | clear hphase hd => exact hi.clear hphase hd
  | leave hphase => exact hi.leave hphase
  | stop => exact hi.stop

theorem TimerInv.of_run {es : List TimerEvent}
    (hr : (timerLts n).Run (Timer.start, Slots.start) es (s, h)) : TimerInv n s h := by
  have hinit : TimerInv n Timer.start Slots.start := ⟨fun _ _ => .outside, rfl⟩
  refine hr.invariant (I := fun x => TimerInv n x.1 x.2) ?_ hinit
  rintro ⟨s, h⟩ e ⟨s', h'⟩ hi ⟨hs, rfl⟩
  exact hi.step hs

/-! ### The barrier -/

/-- The slots are in step: `_time` counts them, no slot is lost and none is counted twice. -/
structure Barrier (n : ℕ) (s : Timer) (h : Slots) : Prop where
  time : s.time = h.ticks % 2 ^ 64
  tick : ∀ s', TimerStep n s .tick s' → ∀ d < n, h.entered d = true ∨ s.loc d = .detached
  completed : ∀ d < n, s.loc d ≠ .detached →
    h.completed d = h.ticks ∨ h.completed d + 1 = h.ticks
  outside : ∀ d < n, s.loc d = .outside → h.completed d = h.ticks
  clear : ∀ s' d, TimerStep n s (.clear d) s' → (s.dev d).done = true → h.setAt d < h.ticks
  exited : s.phase = .exited → s.timerStop = false → ∀ d < n, s.loc d = .detached

/-- At every moment each device is due or settled. -/
theorem TimerInv.view_cases (hi : TimerInv n s h) (hd : d < n) :
    Settled (view s h d) ∨ Due (view s h d) := by
  have hok := hi.phase
  cases hp : s.phase with
  | head =>
      rw [hp] at hok
      exact .inl (hok d hd)
  | wait temp fsh event =>
      rw [hp] at hok
      obtain ⟨_, _, _, _, _, hs⟩ := hok
      exact .inl (hs d hd)
  | release temp fsh event =>
      rw [hp] at hok
      obtain ⟨_, _, _, hs, hdue⟩ := hok
      by_cases hlt : d < temp
      · exact .inl (hs d hlt)
      · exact .inr (hdue d (by omega) hd)
  | exited =>
      rw [hp] at hok
      exact .inl (hok.2 d hd)

/-- **The time-slot barrier**, for any number of devices. -/
theorem barrier {es : List TimerEvent}
    (hr : (timerLts n).Run (Timer.start, Slots.start) es (s, h)) : Barrier n s h := by
  have hi := TimerInv.of_run hr
  have hok := hi.phase
  refine ⟨hi.time, ?_, ?_, ?_, ?_, ?_⟩
  · intro s' hs d hd
    cases hs with
    | tick hphase =>
        rw [hphase] at hok
        obtain ⟨_, _, _, _, hpass, hset⟩ := hok
        cases (hset d hd).of_flags (hpass d hd) with
        | inl hv => exact .inl (congrArg View.entered hv)
        | inr hv => exact .inr (congrArg View.loc hv)
  · intro d hd hloc
    cases hi.view_cases hd with
    | inl hset => exact hset.completed hloc
    | inr hdue => exact .inr (hdue.completed hloc)
  · intro d hd hloc
    cases hi.view_cases hd with
    | inl hset => exact (hset.of_outside hloc).2
    | inr hdue => exact absurd hloc hdue.loc_ne
  · intro s' d hs hdone
    cases hs with
    | clear hphase hd =>
        rw [hphase] at hok
        obtain ⟨_, _, _, _, hdue⟩ := hok
        exact (hdue d (Nat.le_refl d) hd).setAt_lt hdone
  · intro hphase hstop d hd
    rw [hphase] at hok
    obtain ⟨hall, hset⟩ := hok
    rw [hstop] at hall
    exact (hset d hd).loc_of_fsh (hall.resolve_left (by simp) d hd)

/-- One device enters `next_slot`, and the timer lets it pass. -/
def slotSample : List TimerEvent := [.setDone 0, .head, .pass 0, .tick, .clear 0]

theorem barrier_sample : ∃ s h, (timerLts 1).Run (Timer.start, Slots.start) slotSample (s, h) ∧
    Barrier 1 s h := by
  have h₁ : (timerLts 1).Run (Timer.start, Slots.start) [.setDone 0] (_, _) :=
    .snoc .nil ⟨.setDone (by decide) rfl, rfl⟩
  have h₂ : (timerLts 1).Run (Timer.start, Slots.start) [.setDone 0, .head] (_, _) :=
    h₁.snoc ⟨.head rfl, rfl⟩
  have h₃ : (timerLts 1).Run (Timer.start, Slots.start) [.setDone 0, .head, .pass 0] (_, _) :=
    h₂.snoc ⟨.pass rfl (by decide) (.inl rfl), rfl⟩
  have h₄ : (timerLts 1).Run (Timer.start, Slots.start) [.setDone 0, .head, .pass 0, .tick]
      (_, _) := h₃.snoc ⟨.tick rfl, rfl⟩
  have h₅ : (timerLts 1).Run (Timer.start, Slots.start) slotSample (_, _) :=
    h₄.snoc ⟨.clear rfl (by decide), rfl⟩
  exact ⟨_, _, h₅, barrier h₅⟩

end BtlOs
