import BtlOs.Bypass

/-! # The order of the queues (`queue.c`, `sched.c`)

`listQueueLts` is what a queue is for: a list that is appended to, whose head is taken, and from
which a process is deleted by its pid.  The array with its two loops that close gaps is simulated
by it, call by call, with the same results.  Over all levels, what was accepted on a level is what
was dispatched from it, in this order, followed by what waits. -/

namespace BtlOs

open SchedHeader

variable [SchedHeader]

/-! ### One queue -/

/-- The calls on a queue; `enqueue` may get `NULL`. -/
inductive QueueCall where
  | enqueue (proc : Option Pcb)
  | dequeue
  | dequeueRunning (proc : Pcb)

/-- What the calls return. -/
inductive QueueRet where
  | void
  | proc (proc : Option Pcb)
  | status (st : ℤ)

/-- A call on the array. -/
def QueueT.call (q : QueueT) : QueueCall → QueueRet × QueueT
  | .enqueue none => (.void, q)
  | .enqueue (some proc) => (.void, q.enqueue proc)
  | .dequeue => (.proc q.dequeue.1, q.dequeue.2)
  | .dequeueRunning proc => (.status (q.dequeueRunning proc).1, (q.dequeueRunning proc).2)

/-- A call on a list: append, remove the head, delete by pid. -/
def listCall (l : List Pcb) : QueueCall → QueueRet × List Pcb
  | .enqueue none => (.void, l)
  | .enqueue (some proc) => (.void, if l.length < maxQueueSize then l ++ [proc] else l)
  | .dequeue => (.proc l.head?, l.tail)
  | .dequeueRunning proc => (.status (if proc.pid ∈ l.map Pcb.pid then 0 else -1),
      l.filter fun r => r.pid ≠ proc.pid)

def queueLts : Lts QueueT (QueueCall × QueueRet) := ⟨fun q c q' => q.call c.1 = (c.2, q')⟩

def listQueueLts : Lts (List Pcb) (QueueCall × QueueRet) :=
  ⟨fun l c l' => listCall l c.1 = (c.2, l')⟩

/-- No two entries have the same pid. -/
def DistinctPids (l : List Pcb) : Prop := (l.map Pcb.pid).Nodup

omit [SchedHeader] in
instance (l : List Pcb) : Decidable (DistinctPids l) := inferInstanceAs (Decidable (List.Nodup _))

/-- The array `proc[0 .. size - 1]` is the list, and its entries are not `NULL`. -/
structure QueueT.Lists (q : QueueT) (l : List Pcb) : Prop where
  size : q.size = l.length
  size_le : q.size ≤ maxQueueSize
  proc : ∀ i, (hi : i < l.length) → q.proc i = some l[i]

namespace QueueT

variable {q q' : QueueT} {l : List Pcb}

theorem lists_toList (q : QueueT) : q.Lists q.toList where
  size := q.length_toList.symm
  size_le := q.size_le
  proc i hi := by
    rw [q.holds i hi, List.getElem?_eq_getElem hi]

theorem Lists.eq (h : q.Lists l) : l = q.toList := by
  refine (toList_of_holds (fun i hi => ?_) h.size.symm).symm
  rw [h.proc i hi, List.getElem?_eq_getElem hi]

omit [SchedHeader] in
theorem eraseP_pid (hl : DistinctPids l) (pid : ℕ) :
    l.eraseP (fun r => r.pid = pid) = l.filter fun r => r.pid ≠ pid := by
  unfold DistinctPids at hl
  induction l with
  | nil => rfl
  | cons r l ih =>
      obtain ⟨hr, hl⟩ := List.nodup_cons.mp hl
      by_cases he : r.pid = pid
      · subst he
        rw [List.eraseP_cons_of_pos (by simp), List.filter_cons_of_neg (by simp)]
        refine (List.filter_eq_self.mpr fun r' hr' => ?_).symm
        simp only [ne_eq, decide_not, Bool.not_eq_true', decide_eq_false_iff_not]
        exact fun he => hr (he ▸ List.mem_map_of_mem hr')
      · rw [List.eraseP_cons_of_neg (by simpa using he),
          List.filter_cons_of_pos (by simpa using he), ih hl]

theorem status_dequeueRunning (proc : Pcb) :
    (q.dequeueRunning proc).1 = if proc.pid ∈ q.toList.map Pcb.pid then 0 else -1 := by
  have hfind := q.holds.find fun r => decide (r.pid = proc.pid)
  rw [length_toList] at hfind
  unfold dequeueRunning
  split
  · rename_i h
    rw [h, eq_comm, List.findIdx?_eq_none_iff] at hfind
    rw [if_neg]
    rintro hmem
    obtain ⟨r, hr, he⟩ := List.mem_map.mp hmem
    exact absurd he (of_decide_eq_false (hfind r hr))
  · rename_i i h
    rw [h, eq_comm, List.findIdx?_eq_some_iff_getElem] at hfind
    obtain ⟨hi, hpid, _⟩ := hfind
    rw [if_pos]
    exact List.mem_map.mpr ⟨q.toList[i], List.getElem_mem hi, of_decide_eq_true hpid⟩

/-- **One call**: the list gives the same result and the same entries. -/
theorem call_toList (hq : DistinctPids q.toList) (c : QueueCall) :
    listCall q.toList c = ((q.call c).1, (q.call c).2.toList) := by
  cases c with
  | enqueue proc =>
      cases proc with
      | none => rfl
      | some proc =>
          simp only [call, listCall, toList_enqueue, length_toList]
          by_cases hfull : maxQueueSize ≤ q.size
          · rw [if_pos hfull, if_neg (by omega)]
          · rw [if_neg hfull, if_pos (by omega)]
  | dequeue =>
      simp only [call, listCall]
      cases hl : q.toList with
      | nil =>
          have hsize : q.size = 0 := by rw [← length_toList, hl, List.length_nil]
          have hcall : q.dequeue = (none, q) := by rw [dequeue, dif_pos hsize]
          rw [hcall, hl]
          rfl
      | cons proc rest =>
          obtain ⟨q', hcall, hrest⟩ := dequeue_of_cons hl
          rw [hcall, hrest]
          rfl
  | dequeueRunning proc =>
      simp only [call, listCall]
      rw [status_dequeueRunning, toList_dequeueRunning, eraseP_pid hq]

/-- The list follows a call on the array. -/
theorem Lists.step (h : q.Lists l) {c : QueueCall × QueueRet}
    (hs : (queueLts.restrict fun q _ => DistinctPids q.toList).step q c q') :
    ∃ l', listQueueLts.step l c l' ∧ q'.Lists l' := by
  obtain ⟨hcall, hdistinct⟩ := hs
  have hlist := call_toList hdistinct c.1
  rw [show q.call c.1 = (c.2, q') from hcall] at hlist
  refine ⟨q'.toList, ?_, q'.lists_toList⟩
  rw [h.eq]
  exact hlist

end QueueT

/-! ### All levels -/

/-- The processes that the ready queues accepted and those that `get_proc` returned, in order. -/
structure Orders where
  accepted : List Pcb
  dispatched : List Pcb

/-- The history after a call. -/
def nextOrders (s : Sched) (o : Orders) : SchedCall → Orders
  | .add proc => { o with accepted := if s.Full proc then o.accepted else o.accepted ++ [proc] }
  | .put proc => { o with accepted := if s.Full proc then o.accepted else o.accepted ++ [proc] }
  | .get => { o with dispatched := o.dispatched ++ s.getProc.1.toList }

/-- The processes of one priority. -/
def ofPrio (i : ℕ) (l : List Pcb) : List Pcb := l.filter fun proc => proc.prio = i

omit [SchedHeader] in
theorem ofPrio_append (i : ℕ) (l₁ l₂ : List Pcb) :
    ofPrio i (l₁ ++ l₂) = ofPrio i l₁ ++ ofPrio i l₂ :=
  List.filter_append ..

omit [SchedHeader] in
theorem ofPrio_singleton_self (proc : Pcb) : ofPrio proc.prio [proc] = [proc] :=
  List.filter_cons_of_pos (by simp)

omit [SchedHeader] in
theorem ofPrio_singleton_of_ne {proc : Pcb} {i : ℕ} (hi : proc.prio ≠ i) : ofPrio i [proc] = [] :=
  List.filter_cons_of_neg (by simpa using hi)

/-- Level `i` holds processes of priority `i`: those that it accepted and did not dispatch. -/
structure InOrder (s : Sched) (o : Orders) (i : ℕ) : Prop where
  prio : ∀ proc ∈ s.ready i, proc.prio = i
  order : ofPrio i o.accepted = ofPrio i o.dispatched ++ s.ready i

namespace InOrder

variable {s s' : Sched} {o o' : Orders} {i : ℕ}

theorem requeue (h : ∀ i, InOrder s o i) (proc : Pcb) (i : ℕ) : InOrder (s.requeue proc)
    { o with accepted := if s.Full proc then o.accepted else o.accepted ++ [proc] } i := by
  have hready := congrFun (Sched.ready_requeue (s := s) proc) i
  by_cases hi : i = proc.prio
  · subst hi
    rw [Function.update_self] at hready
    by_cases hfull : s.Full proc
    · rw [if_pos hfull] at hready ⊢
      exact ⟨hready ▸ (h _).prio, hready ▸ (h _).order⟩
    · rw [if_neg hfull] at hready ⊢
      constructor
      · intro r hr
        rw [hready, List.mem_append, List.mem_singleton] at hr
        exact hr.elim ((h _).prio r) fun he => he ▸ rfl
      · rw [hready, ofPrio_append, (h _).order, ofPrio_singleton_self, List.append_assoc]
  · rw [Function.update_of_ne hi] at hready
    refine ⟨hready ▸ (h i).prio, ?_⟩
    rw [hready]
    by_cases hfull : s.Full proc
    · rw [if_pos hfull]
      exact (h i).order
    · rw [if_neg hfull, ofPrio_append, ofPrio_singleton_of_ne (Ne.symm hi), List.append_nil]
      exact (h i).order

theorem get (h : ∀ i, InOrder s o i) (i : ℕ) : InOrder s.getProc.2
    { o with dispatched := o.dispatched ++ s.getProc.1.toList } i := by
  cases s.getProc_cases with
  | inl hidle =>
      rw [hidle]
      refine ⟨(h i).prio, ?_⟩
      show _ = ofPrio i (o.dispatched ++ []) ++ _
      rw [List.append_nil]
      exact (h i).order
  | inr hserved =>
      obtain ⟨j, proc, rest, hproc, hcons, hready, _⟩ := hserved
      have hprio : proc.prio = j := (h j).prio proc (hcons ▸ List.mem_cons_self)
      have hi := congrFun hready i
      rw [hproc]
      by_cases he : i = j
      · subst he
        rw [Function.update_self] at hi
        constructor
        · intro r hr
          rw [hi] at hr
          exact (h i).prio r (hcons ▸ List.mem_cons_of_mem proc hr)
        · have hsingle : ofPrio i [proc] = [proc] := hprio ▸ ofPrio_singleton_self proc
          show _ = ofPrio i (o.dispatched ++ [proc]) ++ _
          rw [hi, ofPrio_append, hsingle, (h i).order, hcons, List.append_assoc]
          rfl
      · rw [Function.update_of_ne he] at hi
        refine ⟨hi ▸ (h i).prio, ?_⟩
        show _ = ofPrio i (o.dispatched ++ [proc]) ++ _
        rw [hi, ofPrio_append, ofPrio_singleton_of_ne (hprio ▸ Ne.symm he), List.append_nil]
        exact (h i).order

theorem step {e : SchedCall} (h : ∀ i, InOrder s o i)
    (hs : (mlqLts.withGhost nextOrders).step (s, o) e (s', o')) : ∀ i, InOrder s' o' i := by
  obtain ⟨hstep, rfl⟩ := hs
  cases hstep with
  | add _ => exact requeue h _
  | put _ => exact requeue h _
  | get => exact get h

theorem run {es : List SchedCall} (h : ∀ i, InOrder s o i)
    (hr : (mlqLts.withGhost nextOrders).Run (s, o) es (s', o')) : ∀ i, InOrder s' o' i :=
  hr.invariant (I := fun x => ∀ i, InOrder x.1 x.2 i) (fun _ _ _ h hs => step h hs) h

theorem initScheduler (s : Sched) (i : ℕ) : InOrder s.initScheduler ⟨[], []⟩ i :=
  ⟨fun _ hproc => absurd hproc List.not_mem_nil, rfl⟩

end InOrder

/-- **The queues keep the order.**  Every run of calls on one array is a run of the list, with the
same results; and on every level the processes are dispatched in the order in which they were
accepted. -/
theorem queues_keep_order :
    (∀ (q q' : QueueT) (l : List Pcb) (cs : List (QueueCall × QueueRet)), q.Lists l →
      (queueLts.restrict fun q _ => DistinctPids q.toList).Run q cs q' →
      ∃ l', listQueueLts.Run l cs l' ∧ q'.Lists l') ∧
    (∀ (s s' : Sched) (o : Orders) (es : List SchedCall),
      (mlqLts.withGhost nextOrders).Run (s.initScheduler, ⟨[], []⟩) es (s', o) →
      ∀ i, ofPrio i o.accepted = ofPrio i o.dispatched ++ s'.ready i) := by
  constructor
  · intro q q' l cs hl hr
    exact hr.simulate (fun _ _ _ _ h hs => h.step hs) hl
  · intro s s' o es hr i
    exact (InOrder.run (InOrder.initScheduler s) hr i).order

omit [SchedHeader] in
/-- A queue of two cells refuses a third process, and the first of the two is deleted; a level
accepts a process and dispatches it. -/
theorem queues_keep_order_sample :
    (∃ q' l', (@queueLts sched22).Run (@QueueT.zero sched22)
      [(.enqueue (some ⟨1, 0, "p0"⟩), .void), (.enqueue (some ⟨2, 0, "p1"⟩), .void),
        (.enqueue (some ⟨3, 0, "p2"⟩), .void), (.dequeueRunning ⟨1, 0, "p0"⟩, .status 0)] q' ∧
      @QueueT.Lists sched22 q' l') ∧
    (∃ s' o, ((@mlqLts sched22).withGhost (@nextOrders sched22)).Run
      (@Sched.initScheduler sched22 (@Sched.zero sched22), ⟨[], []⟩)
        [.add ⟨1, 0, "p0"⟩, .get] (s', o) ∧
      ofPrio 0 o.accepted = ofPrio 0 o.dispatched ++ @Sched.ready sched22 s' 0) := by
  let := sched22
  constructor
  · let A : Lts QueueT (QueueCall × QueueRet) :=
      queueLts.restrict fun q _ => DistinctPids q.toList
    let q₁ : QueueT := QueueT.zero.enqueue ⟨1, 0, "p0"⟩
    let q₂ : QueueT := q₁.enqueue ⟨2, 0, "p1"⟩
    have hdistinct : DistinctPids q₁.toList ∧ DistinctPids q₂.toList := by decide
    have h₁ : A.step QueueT.zero (.enqueue (some ⟨1, 0, "p0"⟩), .void) q₁ :=
      ⟨rfl, List.nodup_nil⟩
    have h₂ : A.step q₁ (.enqueue (some ⟨2, 0, "p1"⟩), .void) q₂ := ⟨rfl, hdistinct.1⟩
    have h₃ : A.step q₂ (.enqueue (some ⟨3, 0, "p2"⟩), .void) q₂ := ⟨rfl, hdistinct.2⟩
    have h₄ : A.step q₂ (.dequeueRunning ⟨1, 0, "p0"⟩, .status 0)
        (q₂.dequeueRunning ⟨1, 0, "p0"⟩).2 := ⟨rfl, hdistinct.2⟩
    have hrun := (((Lts.Run.nil.snoc h₁).snoc h₂).snoc h₃).snoc h₄
    obtain ⟨l', _, hl'⟩ := queues_keep_order.1 _ _ [] _ (QueueT.lists_toList _) hrun
    exact ⟨_, l', hrun.of_restrict, hl'⟩
  · let s₁ : Sched := Sched.zero.initScheduler.addProc ⟨1, 0, "p0"⟩
    let o₁ : Orders := ⟨[⟨1, 0, "p0"⟩], []⟩
    have hadd : (mlqLts.withGhost nextOrders).step (Sched.zero.initScheduler, ⟨[], []⟩)
        (.add ⟨1, 0, "p0"⟩) (s₁, o₁) := ⟨.add (by decide), rfl⟩
    have hget : (mlqLts.withGhost nextOrders).step (s₁, o₁) .get
        (s₁.getProc.2, nextOrders s₁ o₁ .get) := ⟨.get, rfl⟩
    have hrun := (Lts.Run.nil.snoc hadd).snoc hget
    exact ⟨_, _, hrun, queues_keep_order.2 _ _ _ _ hrun 0⟩

end BtlOs
