import BtlOs.Routine
import BtlOs.Cpu

/-! # Time slices and program order (`cpu_routine`)

The loops of `n` CPUs over programs without `killall`, where `get_proc` returns any process that
was added, is not on a CPU and was not released.  A ghost component counts the calls of `run` since
a CPU got its process and records the index of each instruction that was executed.

A CPU with a process has used `ran` calls of its slice and has `time_left` of them left (`Slice`);
no step of another CPU touches either.  The loops with the scheduler's own `get_proc` are a special
case (`routine_run_loops`). -/

namespace BtlOs

/-! ### The model -/

/-- What the loops of the CPUs read and write. -/
structure Loops where
  loc : ℕ → CpuLoc
  held : ℕ → Option Pcb
  timeLeft : ℕ → ℤ
  pc : Pcb → ℕ
  added : List Pcb
  finished : List Pcb
  done : Bool

inductive LoopEvent where
  | add (proc : Pcb)
  | loaded
  | get (cpu : ℕ) (r : Option Pcb)
  | finish (cpu : ℕ) (proc : Pcb)
  | put (cpu : ℕ) (proc : Pcb)
  | keep (cpu : ℕ)
  | reload (cpu : ℕ) (r : Option Pcb)
  | stop (cpu : ℕ)
  | wait (cpu : ℕ)
  | run (cpu : ℕ) (proc : Pcb)
  | ret (cpu : ℕ)

namespace Loops

variable (s : Loops)

def goto (cpu : ℕ) (loc : CpuLoc) : Loops := { s with loc := Function.update s.loc cpu loc }

/-- `proc = r`. -/
def hold (cpu : ℕ) (r : Option Pcb) : Loops := { s with held := Function.update s.held cpu r }

/-- What `get_proc` may return. -/
def Available (r : Option Pcb) : Prop :=
  ∀ proc, r = some proc → proc ∈ s.added ∧ proc ∉ s.finished ∧ ∀ cpu, s.held cpu ≠ some proc

/-- `run(proc)`: the `pc` of a process at the end of its code stays. -/
def advance (text : Pcb → List Inst) (proc : Pcb) : Loops :=
  { s with
    pc := Function.update s.pc proc
      (if (text proc).length ≤ s.pc proc then s.pc proc else s.pc proc + 1) }

/-- `time_left--`, where a process that was just dispatched gets a new slice. -/
def useSlot (timeSlot : ℤ) (cpu : ℕ) : Loops :=
  { s with
    timeLeft := Function.update s.timeLeft cpu
      ((if s.timeLeft cpu = 0 then timeSlot else s.timeLeft cpu) - 1) }

/-- When the threads start. -/
def start : Loops := ⟨fun _ => .top, fun _ => none, fun _ => 0, fun _ => 0, [], [], false⟩

end Loops

inductive LoopStep (n : ℕ) (text : Pcb → List Inst) (timeSlot : ℤ) (s : Loops) :
    LoopEvent → Loops → Prop
  | add {proc : Pcb} : proc ∉ s.added → LoopStep n text timeSlot s (.add proc)
      { s with added := proc :: s.added, pc := Function.update s.pc proc 0 }
  | loaded : LoopStep n text timeSlot s .loaded { s with done := true }
  | get {cpu : ℕ} {r : Option Pcb} : cpu < n → s.loc cpu = .top → s.held cpu = none →
      s.Available r → LoopStep n text timeSlot s (.get cpu r)
        ((s.hold cpu r).goto cpu (if r = none then .slot else .recheck))
  | finish {cpu : ℕ} {proc : Pcb} : cpu < n → s.loc cpu = .top → s.held cpu = some proc →
      s.pc proc = (text proc).length → LoopStep n text timeSlot s (.finish cpu proc)
        ({ s.hold cpu none with
          finished := proc :: s.finished
          timeLeft := Function.update s.timeLeft cpu 0 }.goto cpu .reload)
  | put {cpu : ℕ} {proc : Pcb} : cpu < n → s.loc cpu = .top → s.held cpu = some proc →
      s.pc proc ≠ (text proc).length → s.timeLeft cpu = 0 →
      LoopStep n text timeSlot s (.put cpu proc) ((s.hold cpu none).goto cpu .reload)
  | keep {cpu : ℕ} {proc : Pcb} : cpu < n → s.loc cpu = .top → s.held cpu = some proc →
      s.pc proc ≠ (text proc).length → s.timeLeft cpu ≠ 0 →
      LoopStep n text timeSlot s (.keep cpu) (s.goto cpu .recheck)
  | reload {cpu : ℕ} {r : Option Pcb} : cpu < n → s.loc cpu = .reload → s.held cpu = none →
      s.Available r → LoopStep n text timeSlot s (.reload cpu r)
        ((s.hold cpu r).goto cpu .recheck)
  | stop {cpu : ℕ} : cpu < n → s.loc cpu = .recheck → s.held cpu = none → s.done = true →
      LoopStep n text timeSlot s (.stop cpu) (s.goto cpu .stopped)
  | wait {cpu : ℕ} : cpu < n → s.loc cpu = .recheck → s.held cpu = none → s.done = false →
      LoopStep n text timeSlot s (.wait cpu) (s.goto cpu .slot)
  | run {cpu : ℕ} {proc : Pcb} : cpu < n → s.loc cpu = .recheck → s.held cpu = some proc →
      LoopStep n text timeSlot s (.run cpu proc)
        (((s.advance text proc).useSlot timeSlot cpu).goto cpu .slot)
  | ret {cpu : ℕ} : cpu < n → s.loc cpu = .slot →
      LoopStep n text timeSlot s (.ret cpu) (s.goto cpu .top)

/-- The calls of `run` since a CPU got its process, and the indices of the instructions that were
executed for a process. -/
structure Slices where
  ran : ℕ → ℕ
  executed : Pcb → List ℕ

/-- The history after an event. -/
def nextSlices (text : Pcb → List Inst) (s : Loops) (h : Slices) : LoopEvent → Slices
  | .get cpu _ => { h with ran := Function.update h.ran cpu 0 }
  | .reload cpu _ => { h with ran := Function.update h.ran cpu 0 }
  | .run cpu proc =>
      { ran := Function.update h.ran cpu (h.ran cpu + 1)
        executed := Function.update h.executed proc
          (if (text proc).length ≤ s.pc proc then h.executed proc
            else h.executed proc ++ [s.pc proc]) }
  | _ => h

def Slices.start : Slices := ⟨fun _ => 0, fun _ => []⟩

/-- The instructions that were executed for a process. -/
def Slices.trace (text : Pcb → List Inst) (h : Slices) (proc : Pcb) : List Inst :=
  (h.executed proc).filterMap fun i => (text proc)[i]?

def sliceLts (n : ℕ) (text : Pcb → List Inst) (timeSlot : ℤ) : Lts (Loops × Slices) LoopEvent :=
  Lts.withGhost ⟨LoopStep n text timeSlot⟩ (nextSlices text)

/-! ### The invariant -/

/-- A CPU without a process, with one it has just got, between two calls of `run`, and after one:
its `time_left` and the calls so far. -/
inductive Slice (timeSlot : ℤ) : CpuLoc → Option Pcb → ℤ → ℕ → Prop
  | idle {loc : CpuLoc} {ran : ℕ} : Slice timeSlot loc none 0 ran
  | fresh {proc : Pcb} : Slice timeSlot .recheck (some proc) 0 0
  | going {proc : Pcb} {timeLeft : ℤ} {ran : ℕ} : 0 < timeLeft → ran + timeLeft = timeSlot →
      Slice timeSlot .recheck (some proc) timeLeft ran
  | ran {loc : CpuLoc} {proc : Pcb} {timeLeft : ℤ} {ran : ℕ} : loc = .slot ∨ loc = .top →
      0 ≤ timeLeft → ran + timeLeft = timeSlot → Slice timeSlot loc (some proc) timeLeft ran

structure SliceInv (text : Pcb → List Inst) (timeSlot : ℤ) (s : Loops) (h : Slices) : Prop where
  slice : ∀ cpu, Slice timeSlot (s.loc cpu) (s.held cpu) (s.timeLeft cpu) (h.ran cpu)
  executed : ∀ proc, h.executed proc = List.range (s.pc proc)
  pc_le : ∀ proc, s.pc proc ≤ (text proc).length
  fresh : ∀ proc, proc ∉ s.added → s.pc proc = 0
  live : ∀ cpu proc, s.held cpu = some proc → proc ∈ s.added ∧ proc ∉ s.finished
  inj : ∀ cpu cpu' proc, s.held cpu = some proc → s.held cpu' = some proc → cpu = cpu'
  finished : ∀ proc ∈ s.finished, proc ∈ s.added ∧ s.pc proc = (text proc).length

section slices

variable {timeSlot timeLeft : ℤ} {loc : CpuLoc} {held : Option Pcb} {proc : Pcb} {ran : ℕ}

theorem Slice.of_none (h : Slice timeSlot loc none timeLeft ran) : timeLeft = 0 := by
  cases h with
  | idle => rfl

theorem Slice.of_top (h : Slice timeSlot .top (some proc) timeLeft ran) :
    0 ≤ timeLeft ∧ ran + timeLeft = timeSlot := by
  cases h with
  | ran _ hleft hsum => exact ⟨hleft, hsum⟩

theorem Slice.ran_le (h : Slice timeSlot loc (some proc) timeLeft ran) (hslot : 1 ≤ timeSlot) :
    (ran : ℤ) ≤ timeSlot := by
  cases h with
  | fresh =>
      show (0 : ℤ) ≤ timeSlot
      omega
  | going hleft hsum => omega
  | ran _ hleft hsum => omega

theorem Slice.run (h : Slice timeSlot .recheck (some proc) timeLeft ran) (hslot : 1 ≤ timeSlot) :
    Slice timeSlot .slot (some proc) ((if timeLeft = 0 then timeSlot else timeLeft) - 1)
      (ran + 1) := by
  cases h with
  | fresh =>
      rw [if_pos rfl]
      refine .ran (.inl rfl) (by omega) ?_
      push_cast
      omega
  | going hleft hsum =>
      rw [if_neg (by omega)]
      refine .ran (.inl rfl) (by omega) ?_
      push_cast
      omega
  | ran hloc _ _ => simp at hloc

theorem Slice.keep (h : Slice timeSlot .top (some proc) timeLeft ran) (hleft : timeLeft ≠ 0) :
    Slice timeSlot .recheck (some proc) timeLeft ran := by
  obtain ⟨hle, hsum⟩ := h.of_top
  exact .going (by omega) hsum

theorem Slice.ret (h : Slice timeSlot .slot held timeLeft ran) :
    Slice timeSlot .top held timeLeft ran := by
  cases h with
  | idle => exact .idle
  | ran _ hleft hsum => exact .ran (.inr rfl) hleft hsum

theorem Slice.get (timeSlot : ℤ) {r : Option Pcb} (hr : r ≠ none → loc = .recheck) :
    Slice timeSlot loc r 0 0 := by
  cases r with
  | none => exact .idle
  | some proc =>
      rw [hr (by simp)]
      exact .fresh

end slices

variable {n cpu : ℕ} {text : Pcb → List Inst} {timeSlot : ℤ} {s s' : Loops} {h : Slices}
  {proc : Pcb}

theorem SliceInv.update (hi : SliceInv text timeSlot s h) (cpu : ℕ) {loc : CpuLoc}
    {r : Option Pcb} {timeLeft : ℤ} {ran : ℕ} (hcpu : Slice timeSlot loc r timeLeft ran) (c : ℕ) :
    Slice timeSlot (Function.update s.loc cpu loc c) (Function.update s.held cpu r c)
      (Function.update s.timeLeft cpu timeLeft c) (Function.update h.ran cpu ran c) := by
  by_cases hc : c = cpu
  · subst hc
    simpa only [Function.update_self] using hcpu
  · simpa only [Function.update_of_ne hc] using hi.slice c

theorem SliceInv.goto (hi : SliceInv text timeSlot s h) {loc : CpuLoc}
    (hcpu : Slice timeSlot loc (s.held cpu) (s.timeLeft cpu) (h.ran cpu)) :
    SliceInv text timeSlot (s.goto cpu loc) h := by
  refine ⟨fun c => ?_, hi.executed, hi.pc_le, hi.fresh, hi.live, hi.inj, hi.finished⟩
  have hc := hi.update cpu hcpu c
  simp only [Function.update_eq_self] at hc
  exact hc

theorem SliceInv.timeLeft_of_none (hi : SliceInv text timeSlot s h) (hnone : s.held cpu = none) :
    s.timeLeft cpu = 0 := by
  have hslice := hi.slice cpu
  rw [hnone] at hslice
  exact hslice.of_none

theorem SliceInv.goto_idle (hi : SliceInv text timeSlot s h) (hnone : s.held cpu = none)
    (loc : CpuLoc) : SliceInv text timeSlot (s.goto cpu loc) h := by
  refine hi.goto ?_
  rw [hnone, hi.timeLeft_of_none hnone]
  exact .idle

theorem SliceInv.hold (hi : SliceInv text timeSlot s h) {r : Option Pcb} {loc : CpuLoc}
    (hnone : s.held cpu = none) (hr : s.Available r) (hloc : r ≠ none → loc = .recheck) :
    SliceInv text timeSlot ((s.hold cpu r).goto cpu loc)
      { h with ran := Function.update h.ran cpu 0 } := by
  have hzero := hi.timeLeft_of_none hnone
  refine ⟨fun c => ?_, hi.executed, hi.pc_le, hi.fresh, fun c q hc => ?_, fun c c' q hc hc' => ?_,
    hi.finished⟩
  · have hc := hi.update cpu (Slice.get timeSlot hloc) c
    rwa [← hzero, Function.update_eq_self] at hc
  · cases Table.update_eq_some.mp hc with
    | inl he =>
        obtain ⟨hadded, hfin, _⟩ := hr q he.2
        exact ⟨hadded, hfin⟩
    | inr hc => exact hi.live c q hc.2
  · cases Table.update_eq_some.mp hc with
    | inl he =>
        cases Table.update_eq_some.mp hc' with
        | inl he' => rw [he.1, he'.1]
        | inr hold' => exact absurd hold'.2 ((hr q he.2).2.2 c')
    | inr hold =>
        cases Table.update_eq_some.mp hc' with
        | inl he' => exact absurd hold.2 ((hr q he'.2).2.2 c)
        | inr hold' => exact hi.inj c c' q hold.2 hold'.2

/-- A process that is given up is on no CPU. -/
theorem SliceInv.held_ne (hi : SliceInv text timeSlot s h) (hcpu : s.held cpu = some proc)
    {c : ℕ} {q : Pcb} (hc : Function.update s.held cpu none c = some q) :
    s.held c = some q ∧ q ≠ proc := by
  obtain ⟨_, hq⟩ | ⟨hne, hq⟩ := Table.update_eq_some.mp hc
  · cases hq
  · refine ⟨hq, ?_⟩
    rintro rfl
    exact hne (hi.inj c cpu _ hq hcpu)

theorem SliceInv.put (hi : SliceInv text timeSlot s h) (hcpu : s.held cpu = some proc)
    (hleft : s.timeLeft cpu = 0) :
    SliceInv text timeSlot ((s.hold cpu none).goto cpu .reload) h := by
  refine ⟨fun c => ?_, hi.executed, hi.pc_le, hi.fresh, fun c q hc => ?_, fun c c' q hc hc' => ?_,
    hi.finished⟩
  · have hc := hi.update cpu (@Slice.idle timeSlot .reload (h.ran cpu)) c
    rwa [← hleft, Function.update_eq_self, Function.update_eq_self] at hc
  · exact hi.live c q (hi.held_ne hcpu hc).1
  · exact hi.inj c c' q (hi.held_ne hcpu hc).1 (hi.held_ne hcpu hc').1

theorem SliceInv.finish (hi : SliceInv text timeSlot s h) (hcpu : s.held cpu = some proc)
    (hpc : s.pc proc = (text proc).length) :
    SliceInv text timeSlot ({ s.hold cpu none with
      finished := proc :: s.finished
      timeLeft := Function.update s.timeLeft cpu 0 }.goto cpu .reload) h := by
  refine ⟨fun c => ?_, hi.executed, hi.pc_le, hi.fresh, fun c q hc => ?_, fun c c' q hc hc' => ?_,
    fun q hq => ?_⟩
  · have hc := hi.update cpu (@Slice.idle timeSlot .reload (h.ran cpu)) c
    rwa [Function.update_eq_self] at hc
  · obtain ⟨hc, hne⟩ := hi.held_ne hcpu hc
    obtain ⟨hadded, hfin⟩ := hi.live c q hc
    exact ⟨hadded, List.not_mem_cons_of_ne_of_not_mem hne hfin⟩
  · exact hi.inj c c' q (hi.held_ne hcpu hc).1 (hi.held_ne hcpu hc').1
  · cases List.mem_cons.mp hq with
    | inl he =>
        subst he
        exact ⟨(hi.live cpu q hcpu).1, hpc⟩
    | inr hq => exact hi.finished q hq

theorem SliceInv.run (hi : SliceInv text timeSlot s h) (hslot : 1 ≤ timeSlot)
    (hloc : s.loc cpu = .recheck) (hcpu : s.held cpu = some proc) :
    SliceInv text timeSlot (((s.advance text proc).useSlot timeSlot cpu).goto cpu .slot)
      (nextSlices text s h (.run cpu proc)) := by
  obtain ⟨hadded, hfin⟩ := hi.live cpu proc hcpu
  refine ⟨fun c => ?_, fun q => ?_, fun q => ?_, fun q hq => ?_, hi.live, hi.inj, fun q hq => ?_⟩
  · have hslice := hi.slice cpu
    rw [hloc, hcpu] at hslice
    have hc := hi.update cpu (hslice.run hslot) c
    rwa [← hcpu, Function.update_eq_self] at hc
  · show Function.update h.executed proc _ q = List.range (Function.update s.pc proc _ q)
    by_cases hq : q = proc
    · subst hq
      rw [Function.update_self, Function.update_self, hi.executed q]
      split_ifs with hend
      · rfl
      · exact List.range_succ.symm
    · rw [Function.update_of_ne hq, Function.update_of_ne hq]
      exact hi.executed q
  · show Function.update s.pc proc _ q ≤ _
    by_cases hq : q = proc
    · subst hq
      rw [Function.update_self]
      split_ifs with hend
      · exact hi.pc_le q
      · omega
    · rw [Function.update_of_ne hq]
      exact hi.pc_le q
  · have hne : q ≠ proc := fun he => hq (he ▸ hadded)
    show Function.update s.pc proc _ q = 0
    rw [Function.update_of_ne hne]
    exact hi.fresh q hq
  · have hne : q ≠ proc := fun he => hfin (he ▸ hq)
    show q ∈ s.added ∧ Function.update s.pc proc _ q = _
    rw [Function.update_of_ne hne]
    exact hi.finished q hq

theorem SliceInv.add (hi : SliceInv text timeSlot s h) (hproc : proc ∉ s.added) :
    SliceInv text timeSlot
      { s with added := proc :: s.added, pc := Function.update s.pc proc 0 } h := by
  have hpc : Function.update s.pc proc 0 = s.pc := by
    rw [← hi.fresh proc hproc, Function.update_eq_self]
  rw [hpc]
  refine ⟨hi.slice, hi.executed, hi.pc_le, fun q hq => ?_, fun c q hc => ?_, hi.inj, fun q hq => ?_⟩
  · exact hi.fresh q fun hmem => hq (List.mem_cons_of_mem proc hmem)
  · obtain ⟨hadded, hfin⟩ := hi.live c q hc
    exact ⟨List.mem_cons_of_mem proc hadded, hfin⟩
  · obtain ⟨hadded, hpc⟩ := hi.finished q hq
    exact ⟨List.mem_cons_of_mem proc hadded, hpc⟩

theorem SliceInv.step {e : LoopEvent} (hi : SliceInv text timeSlot s h) (hslot : 1 ≤ timeSlot)
    (hs : LoopStep n text timeSlot s e s') :
    SliceInv text timeSlot s' (nextSlices text s h e) := by
  cases hs with
  | add hproc => exact hi.add hproc
  | loaded =>
      exact ⟨hi.slice, hi.executed, hi.pc_le, hi.fresh, hi.live, hi.inj, hi.finished⟩
  | @get cpu r _ hloc hnone hr =>
      refine hi.hold hnone hr fun hne => ?_
      rw [if_neg hne]
  | finish _ _ hcpu hpc => exact hi.finish hcpu hpc
  | put _ _ hcpu _ hleft => exact hi.put hcpu hleft
  | @keep cpu proc _ hloc hcpu _ hleft =>
      have hslice := hi.slice cpu
      rw [hloc, hcpu] at hslice
      exact hi.goto (hcpu ▸ hslice.keep hleft)
  | reload _ _ hnone hr => exact hi.hold hnone hr fun _ => rfl
  | stop _ _ hnone _ => exact hi.goto_idle hnone _
  | wait _ _ hnone _ => exact hi.goto_idle hnone _
  | run _ hloc hcpu => exact hi.run hslot hloc hcpu
  | @ret cpu _ hloc =>
      have hslice := hi.slice cpu
      rw [hloc] at hslice
      exact hi.goto hslice.ret

theorem SliceInv.of_run {es : List LoopEvent} (hslot : 1 ≤ timeSlot)
    (hr : (sliceLts n text timeSlot).Run (Loops.start, Slices.start) es (s, h)) :
    SliceInv text timeSlot s h := by
  have hinit : SliceInv text timeSlot Loops.start Slices.start :=
    ⟨fun _ => .idle, fun _ => rfl, fun _ => Nat.zero_le _, fun _ _ => rfl,
      by simp [Loops.start], by simp [Loops.start], by simp [Loops.start]⟩
  refine hr.invariant (I := fun x => SliceInv text timeSlot x.1 x.2) ?_ hinit
  rintro ⟨s, h⟩ e ⟨s', h'⟩ hi ⟨hs, rfl⟩
  exact hi.step hslot hs

/-! ### Time slices and program order -/

/-- What the slices and the programs look like in a state, and at the next step. -/
structure TimeSlices (n : ℕ) (text : Pcb → List Inst) (timeSlot : ℤ) (s : Loops) (h : Slices) :
    Prop where
  idle : ∀ cpu, s.held cpu = none → s.timeLeft cpu = 0
  atMost : ∀ cpu proc, s.held cpu = some proc → (h.ran cpu : ℤ) ≤ timeSlot
  put : ∀ cpu proc s', LoopStep n text timeSlot s (.put cpu proc) s' →
    (h.ran cpu : ℤ) = timeSlot ∧ s.pc proc ≠ (text proc).length
  finish : ∀ cpu proc s', LoopStep n text timeSlot s (.finish cpu proc) s' →
    (h.ran cpu : ℤ) ≤ timeSlot ∧ h.trace text proc = text proc
  order : ∀ proc, ∃ k ≤ (text proc).length, h.executed proc = List.range k
  program : ∀ proc, h.trace text proc <+: text proc
  released : ∀ proc ∈ s.finished, h.executed proc = List.range (text proc).length ∧
    h.trace text proc = text proc ∧ ∀ cpu, s.held cpu ≠ some proc

theorem filterMap_range {α : Type} (l : List α) {k : ℕ} (hk : k ≤ l.length) :
    (List.range k).filterMap (fun i => l[i]?) = l.take k := by
  induction k with
  | zero => rfl
  | succ k ih =>
      rw [List.range_succ, List.filterMap_append, ih (by omega), List.take_add_one]
      simp only [List.filterMap_cons, List.filterMap_nil]
      cases l[k]? with
      | none => rfl
      | some x => rfl

theorem SliceInv.trace (hi : SliceInv text timeSlot s h) (proc : Pcb) :
    h.trace text proc = (text proc).take (s.pc proc) := by
  unfold Slices.trace
  rw [hi.executed, filterMap_range _ (hi.pc_le proc)]

theorem SliceInv.trace_of_end (hi : SliceInv text timeSlot s h)
    (hpc : s.pc proc = (text proc).length) : h.trace text proc = text proc := by
  rw [hi.trace, hpc, List.take_length]

/-- **Time slices and program order**, for any programs without `killall` and every interleaving of
the loops. -/
theorem time_slices {es : List LoopEvent} (hslot : 1 ≤ timeSlot)
    (hr : (sliceLts n text timeSlot).Run (Loops.start, Slices.start) es (s, h)) :
    TimeSlices n text timeSlot s h := by
  have hi := SliceInv.of_run hslot hr
  refine ⟨fun cpu hnone => ?_, fun cpu proc hcpu => ?_, fun cpu proc s' hs => ?_,
    fun cpu proc s' hs => ?_, fun proc => ⟨s.pc proc, hi.pc_le proc, hi.executed proc⟩,
    fun proc => ?_, fun proc hfin => ?_⟩
  · have hslice := hi.slice cpu
    rw [hnone] at hslice
    exact hslice.of_none
  · have hslice := hi.slice cpu
    rw [hcpu] at hslice
    exact hslice.ran_le hslot
  · cases hs with
    | put _ hloc hcpu hpc hleft =>
        have hslice := hi.slice cpu
        rw [hloc, hcpu] at hslice
        obtain ⟨_, hsum⟩ := hslice.of_top
        exact ⟨by omega, hpc⟩
  · cases hs with
    | finish _ _ hcpu hpc =>
        have hslice := hi.slice cpu
        rw [hcpu] at hslice
        exact ⟨hslice.ran_le hslot, hi.trace_of_end hpc⟩
  · rw [hi.trace]
    exact List.take_prefix _ _
  · obtain ⟨_, hpc⟩ := hi.finished proc hfin
    refine ⟨hpc ▸ hi.executed proc, hi.trace_of_end hpc, fun cpu hcpu => ?_⟩
    exact (hi.live cpu proc hcpu).2 hfin

/-- A process of two instructions in slots of one: it runs once and is put back. -/
def sliceSample : List LoopEvent :=
  [.add ⟨1, 0, "p1"⟩, .get 0 (some ⟨1, 0, "p1"⟩), .run 0 ⟨1, 0, "p1"⟩, .ret 0,
    .put 0 ⟨1, 0, "p1"⟩]

theorem time_slices_sample : ∃ s h,
    (sliceLts 1 (fun _ => [⟨.calculate, 0, 0, 0, 0⟩, ⟨.calculate, 0, 0, 0, 0⟩]) 1).Run
      (Loops.start, Slices.start) sliceSample (s, h) ∧
    TimeSlices 1 (fun _ => [⟨.calculate, 0, 0, 0, 0⟩, ⟨.calculate, 0, 0, 0, 0⟩]) 1 s h := by
  let Reach (k : ℕ) :=
    (sliceLts 1 (fun _ => [⟨.calculate, 0, 0, 0, 0⟩, ⟨.calculate, 0, 0, 0, 0⟩]) 1).Run
      (Loops.start, Slices.start) (sliceSample.take k)
  have h₁ : Reach 1 (_, _) := Lts.Run.nil.snoc ⟨.add (by simp [Loops.start]), rfl⟩
  have hav : ∀ proc : Pcb, some (⟨1, 0, "p1"⟩ : Pcb) = some proc →
      proc ∈ [(⟨1, 0, "p1"⟩ : Pcb)] ∧ proc ∉ ([] : List Pcb) ∧ ∀ _ : ℕ, none ≠ some proc := by
    rintro _ ⟨⟩
    simp
  have h₂ : Reach 2 (_, _) := h₁.snoc ⟨.get (by decide) rfl rfl hav, rfl⟩
  have h₃ : Reach 3 (_, _) := h₂.snoc ⟨.run (by decide) rfl rfl, rfl⟩
  have h₄ : Reach 4 (_, _) := h₃.snoc ⟨.ret (by decide) rfl, rfl⟩
  have h₅ : Reach 5 (_, _) := h₄.snoc ⟨.put (by decide) rfl rfl (by decide) rfl, rfl⟩
  exact ⟨_, _, h₅, time_slices (by decide) h₅⟩

/-! ### The loops with the scheduler -/

section routine

variable [SchedHeader] {m m' : Machine}

/-- What the loops see of the machine. -/
def Machine.loops (m : Machine) : Loops :=
  ⟨m.loc, m.cpus.held, m.timeLeft, m.pc, m.cpus.added, m.cpus.finished, m.done⟩

/-- The scheduler returns what it may return. -/
theorem Exclusive.available (hx : Exclusive m.cpus) :
    m.loops.Available m.cpus.sched.getProc.1 := by
  intro proc hr
  cases Sched.getProc_cases (s := m.cpus.sched) with
  | inl hidle =>
      rw [hidle] at hr
      cases hr
  | inr hget =>
      obtain ⟨i, q, rest, hq, hcons, _⟩ := hget
      obtain rfl := Option.some.inj (hq.symm.trans hr)
      have hmem : q ∈ m.cpus.sched.ready i := by simp [hcons]
      obtain ⟨hadded, hfin⟩ := hx.ready_live i q hmem
      obtain rfl := hx.prio i q hmem
      exact ⟨hadded, hfin, fun cpu hcpu => hx.notMem hcpu hmem⟩

/-- A step of the machine other than `killall` is a step of the loops. -/
theorem RoutineStep.loops {e : RoutineEvent}
    (hs : RoutineStep n (fun proc => (text proc).length) timeSlot m e m')
    (hx : Exclusive m.cpus) (hkill : ∀ cpu procName, e ≠ .killall cpu procName) :
    ∃ e', LoopStep n text timeSlot m.loops e' m'.loops := by
  cases hs with
  | @load proc rest _ _ hpid =>
      have hfresh : proc ∉ m.loops.added := fun hmem => hpid proc hmem rfl
      exact ⟨_, .add hfresh⟩
  | loaded _ => exact ⟨_, .loaded⟩
  | get hcpu hloc hnone => exact ⟨_, .get (s := m.loops) hcpu hloc hnone hx.available⟩
  | finish hcpu hloc hheld hpc => exact ⟨_, .finish (s := m.loops) hcpu hloc hheld hpc⟩
  | put hcpu hloc hheld hpc hleft => exact ⟨_, .put (s := m.loops) hcpu hloc hheld hpc hleft⟩
  | keep hcpu hloc hheld hpc hleft => exact ⟨_, .keep (s := m.loops) hcpu hloc hheld hpc hleft⟩
  | reload hcpu hloc hnone => exact ⟨_, .reload (s := m.loops) hcpu hloc hnone hx.available⟩
  | stop hcpu hloc hnone hdone => exact ⟨_, .stop (s := m.loops) hcpu hloc hnone hdone⟩
  | wait hcpu hloc hnone hdone => exact ⟨_, .wait (s := m.loops) hcpu hloc hnone hdone⟩
  | run hcpu hloc hheld => exact ⟨_, .run (s := m.loops) hcpu hloc hheld⟩
  | killall _ _ _ _ => exact absurd rfl (hkill _ _)
  | ret hcpu hloc => exact ⟨_, .ret (s := m.loops) hcpu hloc⟩

/-- **Simulation.**  With the scheduler's own `get_proc` the CPUs run as these loops. -/
theorem routine_run_loops {es : List RoutineEvent} {toLoad : List Pcb}
    (hr : (routineLts n (fun proc => (text proc).length) timeSlot).Run (.start toLoad) es m)
    (hkill : ∀ cpu procName, .killall cpu procName ∉ es) :
    ∃ es' h, (sliceLts n text timeSlot).Run (Loops.start, Slices.start) es' (m.loops, h) := by
  induction hr with
  | nil => exact ⟨[], _, .nil⟩
  | snoc hrun hs ih =>
      obtain ⟨es', h, hrun'⟩ := ih fun cpu name hmem => hkill cpu name (List.mem_append_left _ hmem)
      obtain ⟨cs, hcpus⟩ := routine_run_cpus hrun
      obtain ⟨e', hs'⟩ := hs.loops (exclusive_of_run hcpus) fun cpu name he =>
        hkill cpu name (List.mem_append_right _ (by simp [he]))
      exact ⟨_, _, hrun'.snoc ⟨hs', rfl⟩⟩

end routine

end BtlOs
