import BtlOs.Simulator
import BtlOs.Lib.LinkedList

/-! # The device list (`timer.c`)

`attach_event` links a new container in front of `dev_list`; the timer follows the links twice in
each slot, each device holds a pointer to the `id` of its own container, and `stop_timer` frees the
list from its head.  The timer with indices instead of pointers has the same runs: the containers
stay linked as they were attached, and each is there as long as a pointer to it is used. -/

namespace BtlOs

open LinkedList

/-! ### The model -/

/-- Where the timer is; `temp` is the local pointer of its loops. -/
inductive ListPhase where
  | head
  | wait (temp : Option ℕ) (fsh event : ℕ)
  | release (temp : Option ℕ) (fsh event : ℕ)
  | exited

/-- The containers, the static variables of `timer.c`, the pointers that `attach_event` has
returned, and the threads that hold them. -/
structure ListTimer where
  mem : Memory TimerId
  devList : Option ℕ
  handles : List ℕ
  loc : ℕ → Loc
  time : ℕ
  phase : ListPhase
  timerStarted : Bool
  timerStop : Bool

namespace ListTimer

variable (s : ListTimer)

/-- `attach_event`, where `malloc` returns the address. -/
def attachEvent (container : ℕ) : Option ℕ × ListTimer :=
  if s.timerStarted then (none, s)
  else
    let mem := setVal s.mem container ⟨false, false⟩
    if s.devList = none then
      (some container, { s with mem := setNext mem container none, devList := some container })
    else
      (some container, { s with mem := setNext mem container s.devList, devList := some container })

/-- The calls of `attach_event` in `main`; `addr i` is what the call `i` of `malloc` returns. -/
def attachAll (addr : ℕ → ℕ) : ℕ → ListTimer → ListTimer
  | 0, s => s
  | n + 1, s =>
      let s := attachAll addr n s
      { (s.attachEvent (addr n)).2 with
        handles := (s.attachEvent (addr n)).1.toList ++ s.handles }

/-- `start_timer`. -/
def startTimer : ListTimer := { s with timerStarted := true }

/-- The static variables before `main`, over a memory of nodes. -/
def zero (h : Memory TimerId) : ListTimer where
  mem := h
  devList := none
  handles := []
  loc := fun _ => .outside
  time := 0
  phase := .head
  timerStarted := false
  timerStop := false

def goto (p : ℕ) (loc : Loc) : ListTimer := { s with loc := Function.update s.loc p loc }

/-- `p->id = id`. -/
def setId (p : ℕ) (id : TimerId) : ListTimer := { s with mem := setVal s.mem p id }

/-- The loop of `stop_timer` after the timer was joined, on a list of at most `n` containers; `none`
where a freed container is read. -/
def freeDevices : ℕ → Memory TimerId → Option ℕ → Option (Memory TimerId)
  | _, h, none => some h
  | 0, _, some _ => none
  | n + 1, h, some p => (h p).bind fun x => freeDevices n (LinkedList.free h p) x.next

end ListTimer

inductive ListTimerEvent where
  | setDone (p : ℕ)
  | ret (p : ℕ)
  | detach (p : ℕ)
  | head
  | pass (p : ℕ)
  | tick
  | clear (p : ℕ)
  | leave
  | stop

/-- A step reads and writes containers that are there. -/
inductive ListTimerStep (s : ListTimer) : ListTimerEvent → ListTimer → Prop
  | setDone {p : ℕ} {x : Node TimerId} : p ∈ s.handles → s.loc p = .outside → s.mem p = some x →
      ListTimerStep s (.setDone p) ((s.setId p ⟨true, x.val.fsh⟩).goto p .inside)
  | ret {p : ℕ} {x : Node TimerId} : p ∈ s.handles → s.loc p = .inside → s.mem p = some x →
      x.val.done = false → ListTimerStep s (.ret p) (s.goto p .outside)
  | detach {p : ℕ} {x : Node TimerId} : p ∈ s.handles → s.loc p = .outside → s.mem p = some x →
      ListTimerStep s (.detach p) ((s.setId p ⟨x.val.done, true⟩).goto p .detached)
  | head : s.phase = .head → ListTimerStep s .head
      { s with phase := if s.timerStop then .exited else .wait s.devList 0 0 }
  | pass {p fsh event : ℕ} {x : Node TimerId} : s.phase = .wait (some p) fsh event →
      s.mem p = some x → x.val.done = true ∨ x.val.fsh = true → ListTimerStep s (.pass p)
        { s with phase := .wait x.next (if x.val.fsh then fsh + 1 else fsh) (event + 1) }
  | tick {fsh event : ℕ} : s.phase = .wait none fsh event → ListTimerStep s .tick
      { s with time := (s.time + 1) % 2 ^ 64, phase := .release s.devList fsh event }
  | clear {p fsh event : ℕ} {x : Node TimerId} : s.phase = .release (some p) fsh event →
      s.mem p = some x → ListTimerStep s (.clear p)
        { s.setId p ⟨false, x.val.fsh⟩ with phase := .release x.next fsh event }
  | leave {fsh event : ℕ} : s.phase = .release none fsh event → ListTimerStep s .leave
      { s with phase := if fsh = event then .exited else .head }
  | stop : ListTimerStep s .stop { s with timerStop := true }

def listTimerLts : Lts ListTimer ListTimerEvent := ⟨ListTimerStep⟩

/-! ### The list and the indices -/

/-- The pointer of a loop, and the index that it is at. -/
inductive PhaseShows (ps : List ℕ) : ListPhase → Phase → Prop
  | head : PhaseShows ps .head .head
  | wait {d fsh event : ℕ} : d ≤ ps.length → PhaseShows ps (.wait ps[d]? fsh event)
      (.wait d fsh event)
  | release {d fsh event : ℕ} : d ≤ ps.length → PhaseShows ps (.release ps[d]? fsh event)
      (.release d fsh event)
  | exited : PhaseShows ps .exited .exited

/-- The containers at the addresses `ps` are the devices of the timer, in order; `g` is the memory
before them. -/
structure ListTimer.Shows (g : Memory TimerId) (ps : List ℕ) (s : ListTimer) (t : Timer) :
    Prop where
  laid : Laid s.mem ps
  other : ∀ r, r ∉ ps → s.mem r = g r
  devList : s.devList = ps[0]?
  handles : ∀ p, p ∈ s.handles ↔ p ∈ ps
  dev : ∀ d p, ps[d]? = some p → ∃ x, s.mem p = some x ∧ x.val = t.dev d
  loc : ∀ d p, ps[d]? = some p → s.loc p = t.loc d
  time : s.time = t.time
  timerStop : s.timerStop = t.timerStop
  phase : PhaseShows ps s.phase t.phase

/-- The device of a container. -/
def ListTimerEvent.index (ps : List ℕ) : ListTimerEvent → TimerEvent
  | .setDone p => .setDone (ps.idxOf p)
  | .ret p => .ret (ps.idxOf p)
  | .detach p => .detach (ps.idxOf p)
  | .head => .head
  | .pass p => .pass (ps.idxOf p)
  | .tick => .tick
  | .clear p => .clear (ps.idxOf p)
  | .leave => .leave
  | .stop => .stop

/-- The container of a device. -/
def TimerEvent.container (ps : List ℕ) : TimerEvent → ListTimerEvent
  | .setDone d => .setDone (ps.getD d 0)
  | .ret d => .ret (ps.getD d 0)
  | .detach d => .detach (ps.getD d 0)
  | .head => .head
  | .pass d => .pass (ps.getD d 0)
  | .tick => .tick
  | .clear d => .clear (ps.getD d 0)
  | .leave => .leave
  | .stop => .stop

namespace ListTimer.Shows

variable {g : Memory TimerId} {ps : List ℕ} {s s' : ListTimer} {t t' : Timer} {d p : ℕ}

theorem node (h : s.Shows g ps t) (hp : ps[d]? = some p) :
    s.mem p = some ⟨t.dev d, ps[d + 1]?⟩ := by
  obtain ⟨x, hx, hval⟩ := h.dev d p hp
  obtain ⟨y, hy, hnext⟩ := h.laid.node d p hp
  obtain rfl := Option.some.inj (hx.symm.trans hy)
  rw [hx, ← hval, ← hnext]

theorem index_inj (h : s.Shows g ps t) {k r : ℕ} (hp : ps[d]? = some p) (hr : ps[k]? = some r) :
    r = p ↔ k = d := by
  constructor
  · rintro rfl
    rw [← h.laid.idxOf hp, ← h.laid.idxOf hr]
  · rintro rfl
    exact Option.some.inj (hr.symm.trans hp)

theorem setId (h : s.Shows g ps t) (hp : ps[d]? = some p) (id : TimerId) :
    (s.setId p id).Shows g ps { t with dev := Function.update t.dev d id } := by
  refine ⟨h.laid.setVal id, fun r hr => ?_, h.devList, h.handles, fun k r hr => ?_, h.loc, h.time,
    h.timerStop, h.phase⟩
  · have hne : r ≠ p := by
      rintro rfl
      exact hr (List.mem_of_getElem? hp)
    exact (setVal_of_ne hne id).trans (h.other r hr)
  by_cases hk : k = d
  · subst hk
    obtain rfl := (h.index_inj hp hr).mpr rfl
    refine ⟨_, setVal_self (h.node hp) id, ?_⟩
    exact (Function.update_self k id t.dev).symm
  · have hne : r ≠ p := fun he => hk ((h.index_inj hp hr).mp he)
    obtain ⟨y, hy, hval⟩ := h.dev k r hr
    exact ⟨y, (setVal_of_ne hne id).trans hy, hval.trans (Function.update_of_ne hk id t.dev).symm⟩

theorem goto (h : s.Shows g ps t) (hp : ps[d]? = some p) (loc : Loc) :
    (s.goto p loc).Shows g ps (t.goto d loc) := by
  refine ⟨h.laid, h.other, h.devList, h.handles, h.dev, fun k r hr => ?_, h.time, h.timerStop,
    h.phase⟩
  show Function.update s.loc p loc r = Function.update t.loc d loc k
  rw [Function.update_apply, Function.update_apply, if_congr (h.index_inj hp hr) rfl rfl]
  split_ifs
  · rfl
  · exact h.loc k r hr

theorem setPhase (h : s.Shows g ps t) {phase : ListPhase} {phase' : Phase}
    (hphase : PhaseShows ps phase phase') :
    { s with phase := phase }.Shows g ps { t with phase := phase' } :=
  ⟨h.laid, h.other, h.devList, h.handles, h.dev, h.loc, h.time, h.timerStop, hphase⟩

theorem step {e : ListTimerEvent} (h : s.Shows g ps t) (hs : ListTimerStep s e s') :
    ∃ t', TimerStep ps.length t (e.index ps) t' ∧ s'.Shows g ps t' := by
  have hget : ∀ {p : ℕ}, p ∈ s.handles → ∃ d : ℕ, ps[d]? = some p := by
    intro p hp
    exact List.mem_iff_getElem?.mp ((h.handles p).mp hp)
  have hphase := h.phase
  cases hs with
  | @setDone p x hp hloc hx =>
      obtain ⟨d, hd⟩ := hget hp
      obtain rfl := Option.some.inj (hx.symm.trans (h.node hd))
      obtain ⟨hlt, _⟩ := List.getElem?_eq_some_iff.mp hd
      refine ⟨_, ?_, (h.setId hd _).goto hd .inside⟩
      show TimerStep _ _ (.setDone (ps.idxOf p)) _
      rw [h.laid.idxOf hd]
      exact .setDone hlt ((h.loc d p hd).symm.trans hloc)
  | @ret p x hp hloc hx hdone =>
      obtain ⟨d, hd⟩ := hget hp
      obtain rfl := Option.some.inj (hx.symm.trans (h.node hd))
      obtain ⟨hlt, _⟩ := List.getElem?_eq_some_iff.mp hd
      refine ⟨_, ?_, h.goto hd .outside⟩
      show TimerStep _ _ (.ret (ps.idxOf p)) _
      rw [h.laid.idxOf hd]
      exact .ret hlt ((h.loc d p hd).symm.trans hloc) hdone
  | @detach p x hp hloc hx =>
      obtain ⟨d, hd⟩ := hget hp
      obtain rfl := Option.some.inj (hx.symm.trans (h.node hd))
      obtain ⟨hlt, _⟩ := List.getElem?_eq_some_iff.mp hd
      refine ⟨_, ?_, (h.setId hd _).goto hd .detached⟩
      show TimerStep _ _ (.detach (ps.idxOf p)) _
      rw [h.laid.idxOf hd]
      exact .detach hlt ((h.loc d p hd).symm.trans hloc)
  | head hat =>
      rw [hat] at hphase
      generalize ht : t.phase = phase at hphase
      cases hphase with
      | head =>
          refine ⟨_, .head ht, h.setPhase ?_⟩
          rw [h.timerStop, h.devList]
          split_ifs
          · exact .exited
          · exact .wait (Nat.zero_le _)
  | @pass p fsh event x hat hx hflags =>
      rw [hat] at hphase
      generalize ht : t.phase = phase at hphase
      generalize htemp : some p = temp at hphase
      cases hphase with
      | @wait d _ _ _ =>
          obtain ⟨hlt, _⟩ := List.getElem?_eq_some_iff.mp htemp.symm
          obtain rfl := Option.some.inj (hx.symm.trans (h.node htemp.symm))
          refine ⟨_, ?_, h.setPhase (.wait hlt)⟩
          show TimerStep _ _ (.pass (ps.idxOf p)) _
          rw [h.laid.idxOf htemp.symm]
          exact .pass ht hlt hflags
  | @tick fsh event hat =>
      rw [hat] at hphase
      generalize ht : t.phase = phase at hphase
      generalize htemp : none = temp at hphase
      cases hphase with
      | @wait d _ _ hle =>
          obtain rfl : d = ps.length :=
            Nat.le_antisymm hle (List.getElem?_eq_none_iff.mp htemp.symm)
          have hrelease : PhaseShows ps (.release s.devList fsh event) (.release 0 fsh event) := by
            rw [h.devList]
            exact .release (Nat.zero_le _)
          refine ⟨_, .tick ht, h.laid, h.other, h.devList, h.handles, h.dev, h.loc, ?_,
            h.timerStop, hrelease⟩
          rw [h.time]
  | @clear p fsh event x hat hx =>
      rw [hat] at hphase
      generalize ht : t.phase = phase at hphase
      generalize htemp : some p = temp at hphase
      cases hphase with
      | @release d _ _ _ =>
          obtain ⟨hlt, _⟩ := List.getElem?_eq_some_iff.mp htemp.symm
          obtain rfl := Option.some.inj (hx.symm.trans (h.node htemp.symm))
          refine ⟨_, ?_, (h.setId htemp.symm _).setPhase (.release hlt)⟩
          show TimerStep _ _ (.clear (ps.idxOf p)) _
          rw [h.laid.idxOf htemp.symm]
          exact .clear ht hlt
  | leave hat =>
      rw [hat] at hphase
      generalize ht : t.phase = phase at hphase
      generalize htemp : none = temp at hphase
      cases hphase with
      | @release d _ _ hle =>
          obtain rfl : d = ps.length :=
            Nat.le_antisymm hle (List.getElem?_eq_none_iff.mp htemp.symm)
          refine ⟨_, .leave ht, h.setPhase ?_⟩
          split_ifs
          · exact .exited
          · exact .head
  | stop =>
      exact ⟨_, .stop, h.laid, h.other, h.devList, h.handles, h.dev, h.loc, h.time, rfl, h.phase⟩

/-- Each step with indices is a step with pointers: no container that is used is missing. -/
theorem step_back {e : TimerEvent} (h : s.Shows g ps t) (hs : TimerStep ps.length t e t') :
    ∃ s', ListTimerStep s (e.container ps) s' ∧ s'.Shows g ps t' := by
  have hget : ∀ {d : ℕ}, d < ps.length → ps[d]? = some (ps.getD d 0) := by
    intro d hd
    simp [hd]
  have hphase := h.phase
  cases hs with
  | @setDone d hlt hloc =>
      have hd := hget hlt
      exact ⟨_, .setDone ((h.handles _).mpr (List.mem_of_getElem? hd)) ((h.loc d _ hd).trans hloc)
        (h.node hd), (h.setId hd _).goto hd .inside⟩
  | @ret d hlt hloc hdone =>
      have hd := hget hlt
      exact ⟨_, .ret ((h.handles _).mpr (List.mem_of_getElem? hd)) ((h.loc d _ hd).trans hloc)
        (h.node hd) hdone, h.goto hd .outside⟩
  | @detach d hlt hloc =>
      have hd := hget hlt
      exact ⟨_, .detach ((h.handles _).mpr (List.mem_of_getElem? hd)) ((h.loc d _ hd).trans hloc)
        (h.node hd), (h.setId hd _).goto hd .detached⟩
  | head hat =>
      rw [hat] at hphase
      generalize hphase' : s.phase = phase at hphase
      cases hphase with
      | head =>
          refine ⟨_, .head hphase', h.setPhase ?_⟩
          rw [h.timerStop, h.devList]
          split_ifs
          · exact .exited
          · exact .wait (Nat.zero_le _)
  | @pass d fsh event hat hlt hflags =>
      rw [hat] at hphase
      generalize hphase' : s.phase = phase at hphase
      cases hphase with
      | wait _ =>
          have hd := hget hlt
          rw [hd] at hphase'
          exact ⟨_, .pass hphase' (h.node hd) hflags, h.setPhase (.wait hlt)⟩
  | @tick fsh event hat =>
      rw [hat] at hphase
      generalize hphase' : s.phase = phase at hphase
      cases hphase with
      | wait _ =>
          rw [List.getElem?_eq_none (Nat.le_refl _)] at hphase'
          have hrelease : PhaseShows ps (.release s.devList fsh event) (.release 0 fsh event) := by
            rw [h.devList]
            exact .release (Nat.zero_le _)
          refine ⟨_, .tick hphase', h.laid, h.other, h.devList, h.handles, h.dev, h.loc, ?_,
            h.timerStop, hrelease⟩
          rw [h.time]
  | @clear d fsh event hat hlt =>
      rw [hat] at hphase
      generalize hphase' : s.phase = phase at hphase
      cases hphase with
      | release _ =>
          have hd := hget hlt
          rw [hd] at hphase'
          exact ⟨_, .clear hphase' (h.node hd), (h.setId hd _).setPhase (.release hlt)⟩
  | leave hat =>
      rw [hat] at hphase
      generalize hphase' : s.phase = phase at hphase
      cases hphase with
      | release _ =>
          rw [List.getElem?_eq_none (Nat.le_refl _)] at hphase'
          refine ⟨_, .leave hphase', h.setPhase ?_⟩
          split_ifs
          · exact .exited
          · exact .head
  | stop =>
      exact ⟨_, .stop, h.laid, h.other, h.devList, h.handles, h.dev, h.loc, h.time, rfl, h.phase⟩

end ListTimer.Shows

/-! ### Attaching and freeing -/

namespace ListTimer

variable {h : Memory TimerId} {ps : List ℕ} {s : ListTimer}

/-- The containers when `main` starts the timer, from `dev_list` on: the last one is the first. -/
def containers (f : Fresh h) (n : ℕ) : List ℕ := ((List.range n).map f.addr).reverse

/-- After the calls of `attach_event`: the containers are linked, with cleared flags, and each call
has returned its own. -/
structure Attached (h : Memory TimerId) (ps : List ℕ) (s : ListTimer) : Prop where
  laid : Laid s.mem ps
  devList : s.devList = ps[0]?
  handles : s.handles = ps
  cleared : ∀ p ∈ ps, ∃ x, s.mem p = some x ∧ x.val = ⟨false, false⟩
  other : ∀ p, p ∉ ps → s.mem p = h p
  unstarted : s.timerStarted = false

theorem Attached.attachEvent (ha : Attached h ps s) {p : ℕ} {x : Node TimerId} (hp : p ∉ ps)
    (hx : h p = some x) : (s.attachEvent p).1 = some p ∧
      Attached h (p :: ps) { (s.attachEvent p).2 with handles := p :: s.handles } := by
  have hkept : ∀ (next : Option ℕ) (r : ℕ), r ≠ p →
      setNext (setVal s.mem p ⟨false, false⟩) p next r = s.mem r := by
    intro next r hr
    rw [setNext_of_ne hr, setVal_of_ne hr]
  have hself : ∀ next : Option ℕ, setNext (setVal s.mem p ⟨false, false⟩) p next p =
      some ⟨⟨false, false⟩, next⟩ := by
    intro next
    exact setNext_self (setVal_self ((ha.other p hp).trans hx) ⟨false, false⟩) next
  have hevent : s.attachEvent p = (some p, { s with
      mem := setNext (setVal s.mem p ⟨false, false⟩) p s.devList, devList := some p }) := by
    unfold ListTimer.attachEvent
    rw [ha.unstarted]
    by_cases hnil : s.devList = none
    · simp [hnil]
    · simp [hnil]
  rw [hevent]
  refine ⟨rfl, ha.laid.cons hp (hself _) ha.devList fun r hr => hkept _ r ?_, rfl, ?_,
    fun r hr => ?_, fun r hr => ?_, ha.unstarted⟩
  · rintro rfl
    exact hp hr
  · exact congrArg (List.cons p) ha.handles
  · by_cases he : r = p
    · rw [he]
      exact ⟨_, hself s.devList, rfl⟩
    · obtain ⟨y, hy, hval⟩ := ha.cleared r ((List.mem_cons.mp hr).resolve_left he)
      exact ⟨y, (hkept _ r he).trans hy, hval⟩
  · obtain ⟨hne, hr⟩ := not_or.mp (List.mem_cons.not.mp hr)
    exact (hkept _ r hne).trans (ha.other r hr)

theorem attached (f : Fresh h) (n : ℕ) :
    Attached h (containers f n) (attachAll f.addr n (.zero h)) := by
  induction n with
  | zero => exact ⟨.nil, rfl, rfl, by simp [containers], fun _ _ => rfl, rfl⟩
  | succ n ih =>
      have hcons : containers f (n + 1) = f.addr n :: containers f n := by
        simp [containers, List.range_succ]
      have hnew : f.addr n ∉ containers f n := by
        intro hmem
        simp only [containers, List.mem_reverse, List.mem_map, List.mem_range] at hmem
        obtain ⟨i, hi, he⟩ := hmem
        exact Nat.ne_of_lt hi (f.inj he)
      obtain ⟨x, hx⟩ := f.node n
      obtain ⟨hret, hattached⟩ := ih.attachEvent hnew hx
      rw [hcons, attachAll, hret]
      exact hattached

theorem Attached.shows (ha : Attached h ps s) (hloc : ∀ p, s.loc p = .outside) (htime : s.time = 0)
    (hphase : s.phase = .head) (hstop : s.timerStop = false) : s.startTimer.Shows h ps .start := by
  refine ⟨ha.laid, ha.other, ha.devList, fun p => by rw [← ha.handles]; rfl, fun d p hp => ?_,
    fun d p _ => hloc p, htime, hstop, ?_⟩
  · exact ha.cleared p (List.mem_of_getElem? hp)
  · show PhaseShows ps s.phase .head
    rw [hphase]
    exact .head

/-- The loop of `stop_timer` frees each container of the list, once, and nothing else. -/
theorem freeDevices_of_laid (ps : List ℕ) : ∀ (h : Memory TimerId), Laid h ps →
    ∃ h', freeDevices ps.length h ps[0]? = some h' ∧ ∀ r, h' r = if r ∈ ps then none else h r := by
  induction ps with
  | nil => exact fun h _ => ⟨h, rfl, by simp⟩
  | cons p ps ih =>
      intro h hl
      obtain ⟨x, hx, hnext⟩ := hl.node 0 p rfl
      obtain ⟨h', hfree, hres⟩ := ih _ hl.free
      refine ⟨h', ?_, fun r => ?_⟩
      · show (h p).bind (fun x => freeDevices ps.length (LinkedList.free h p) x.next) = some h'
        rw [hx, Option.bind_some, hnext]
        simpa using hfree
      · rw [hres r]
        by_cases hr : r = p
        · subst hr
          simp [LinkedList.free]
        · simp [hr, LinkedList.free]

/-- The timer after `n` calls of `attach_event`. -/
def started (f : Fresh h) (n : ℕ) : ListTimer := (attachAll f.addr n (.zero h)).startTimer

theorem length_containers (f : Fresh h) (n : ℕ) : (containers f n).length = n := by
  simp [containers]

theorem containers_get (f : Fresh h) {n i : ℕ} (hi : i < n) :
    (containers f n)[deviceOf (n - 1) i]? = some (f.addr i) := by
  unfold deviceOf
  have hidx : n - 1 - (n - 1 - i) = i := by omega
  have hlt : n - 1 - i < ((List.range n).map f.addr).length := by
    rw [List.length_map, List.length_range]
    omega
  rw [containers, List.getElem?_reverse hlt]
  simp [hidx, hi]

theorem attachAll_zero (addr : ℕ → ℕ) (n : ℕ) :
    (∀ p, (attachAll addr n (.zero h)).loc p = .outside) ∧ (attachAll addr n (.zero h)).time = 0 ∧
      (attachAll addr n (.zero h)).phase = .head ∧
      (attachAll addr n (.zero h)).timerStop = false := by
  induction n with
  | zero => exact ⟨fun _ => rfl, rfl, rfl, rfl⟩
  | succ n ih =>
      have hkept : ∀ (s : ListTimer) (p : ℕ), (s.attachEvent p).2.loc = s.loc ∧
          (s.attachEvent p).2.time = s.time ∧ (s.attachEvent p).2.phase = s.phase ∧
          (s.attachEvent p).2.timerStop = s.timerStop := by
        intro s p
        unfold ListTimer.attachEvent
        split_ifs <;> exact ⟨rfl, rfl, rfl, rfl⟩
      obtain ⟨hloc, htime, hphase, hstop⟩ := hkept (attachAll addr n (.zero h)) (addr n)
      obtain ⟨hloc₀, htime₀, hphase₀, hstop₀⟩ := ih
      exact ⟨fun p => (congrFun hloc p).trans (hloc₀ p), htime.trans htime₀, hphase.trans hphase₀,
        hstop.trans hstop₀⟩

theorem started_shows (f : Fresh h) (n : ℕ) : (started f n).Shows h (containers f n) .start := by
  obtain ⟨hloc, htime, hphase, hstop⟩ := attachAll_zero (h := h) f.addr n
  exact (attached f n).shows hloc htime hphase hstop

/-- The timer on the list, whose nodes were at the addresses of `f` in the memory `h`. -/
structure OnList (f : Fresh h) (n : ℕ) : Prop where
  /-- The call `i` of `attach_event` has made the device that the simulator takes it for. -/
  place : ∀ i < n, (containers f n)[deviceOf (n - 1) i]? = some (f.addr i)
  /-- A run with pointers is a run with indices. -/
  indices : ∀ es s, listTimerLts.Run (started f n) es s →
    ∃ t, Lts.Run ⟨TimerStep n⟩ .start (es.map (ListTimerEvent.index (containers f n))) t ∧
      s.Shows h (containers f n) t
  /-- A run with indices is a run with pointers. -/
  pointers : ∀ es t, Lts.Run ⟨TimerStep n⟩ .start es t →
    ∃ s, listTimerLts.Run (started f n) (es.map (TimerEvent.container (containers f n))) s ∧
      s.Shows h (containers f n) t
  /-- `stop_timer` frees what `attach_event` has allocated. -/
  freed : ∀ es s, listTimerLts.Run (started f n) es s →
    ∃ h', freeDevices n s.mem s.devList = some h' ∧
      ∀ r, h' r = if r ∈ containers f n then none else h r

end ListTimer

open ListTimer

/-- **The device list.**  With any number of devices and wherever `malloc` puts the containers, the
timer with pointers has the runs of the timer with indices, no pointer leads to a container that is
not there, and the list that `stop_timer` finds has each container once. -/
theorem timer_on_list {h : Memory TimerId} (f : Fresh h) (n : ℕ) : OnList f n := by
  have hstart := started_shows f n
  have hforward : ∀ es s, listTimerLts.Run (started f n) es s →
      ∃ t, Lts.Run ⟨TimerStep n⟩ .start (es.map (ListTimerEvent.index (containers f n))) t ∧
        s.Shows h (containers f n) t := by
    intro es s hrun
    refine hrun.simulate_map _ (fun s t e s' hshows hs => ?_) hstart
    obtain ⟨t', ht, hshows'⟩ := hshows.step hs
    rw [length_containers] at ht
    exact ⟨t', ht, hshows'⟩
  refine ⟨fun i hi => containers_get f hi, hforward, fun es t hrun => ?_, fun es s hrun => ?_⟩
  · refine hrun.simulate_map (R := fun t (s : ListTimer) => s.Shows h (containers f n) t) _
      (fun t s e t' hshows ht => ?_) hstart
    rw [← length_containers f n] at ht
    exact hshows.step_back ht
  · obtain ⟨t, -, hshows⟩ := hforward es s hrun
    obtain ⟨h', hfree, hres⟩ := freeDevices_of_laid _ s.mem hshows.laid
    rw [length_containers, ← hshows.devList] at hfree
    refine ⟨h', hfree, fun r => (hres r).trans ?_⟩
    split_ifs with hr
    · rfl
    · exact hshows.other r hr

/-! ### Two CPUs and the loader -/

/-- What `malloc` returns, before the three containers are linked. -/
def garbage : Memory TimerId := fun _ => some ⟨⟨true, true⟩, some 7⟩

def scattered : Fresh garbage where
  addr := fun i => 3 * i + 5
  inj := fun i k h => by
    dsimp only at h
    omega
  node := fun i => ⟨_, rfl⟩

theorem timer_on_list_sample : containers scattered 3 = [11, 8, 5] ∧ ∃ s,
    listTimerLts.Run (started scattered 3) [.head, .setDone 11, .pass 11] s ∧
      s.phase = .wait (some 8) 0 1 ∧ ∃ h', freeDevices 3 s.mem s.devList = some h' ∧
        h' 5 = none ∧ h' 8 = none ∧ h' 11 = none ∧ h' 7 = garbage 7 := by
  have hps : containers scattered 3 = [11, 8, 5] := rfl
  have honList := timer_on_list scattered 3
  obtain ⟨t, hrun, hphase⟩ : ∃ t, Lts.Run ⟨TimerStep 3⟩ .start [.head, .setDone 0, .pass 0] t ∧
      t.phase = .wait 1 0 1 := by
    refine ⟨_, (((Lts.Run.nil.snoc (TimerStep.head rfl)).snoc
      (TimerStep.setDone (d := 0) (by decide) rfl)).snoc
        (TimerStep.pass (d := 0) rfl (by decide) (.inl rfl))), rfl⟩
  obtain ⟨s, hrun', hshows⟩ := honList.pointers _ t hrun
  have hat := hshows.phase
  rw [hphase] at hat
  have hwait : s.phase = .wait (some 8) 0 1 := by
    generalize s.phase = phase at hat
    cases hat with
    | wait _ => rfl
  obtain ⟨h', hfree, hres⟩ := honList.freed _ s hrun'
  rw [hps] at hres
  exact ⟨hps, s, hrun', hwait, h', hfree, (hres 5).trans rfl, (hres 8).trans rfl,
    (hres 11).trans rfl, (hres 7).trans rfl⟩

end BtlOs
