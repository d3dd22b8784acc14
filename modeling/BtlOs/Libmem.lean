import BtlOs.Mm

/-! # The memory library (`libmem.c`)

The four calls of a process, `liballoc`, `libfree`, `libread` and `libwrite`, over the page access
`pg_getpage` with its replacement of a victim page.  The calls are mutually exclusive under
`mmvm_lock`: an acquire of a held lock never returns.

`syscall(caller, 17, &regs)` dispatches to `__sys_memmap`, which is called directly here. -/

namespace BtlOs

open CLang Header

variable [Header]

/-! ### The lock -/

/-- `pthread_mutex_lock(&mmvm_lock)`. -/
def Ctx.lock (c : Ctx) : Exec Ctx :=
  if c.mmvmLock then .error .deadlock else .ok { c with mmvmLock := true }

/-- `pthread_mutex_unlock(&mmvm_lock)`. -/
def Ctx.unlock (c : Ctx) : Ctx := { c with mmvmLock := false }

/-! ### Allocation and release -/

/-- `__alloc` for the region `rgid`: `*alloc_addr`, or `none` for the result `-1`. -/
def alloc (c : Ctx) (vmaid rgid size : ℤ) : Exec (Option ℤ × Ctx) := do
  let c ← c.lock
  let (rgnode, mm) ← getFreeVmrgArea c.mm vmaid size
  match rgnode with
  | some rgnode => do
      let mm ← mm.symSet rgid rgnode
      .ok (some (int32 rgnode.rgStart), { c with mm }.unlock)
  | none => do
      let c := { c with mm }
      let curVma ← getVmaByNum c.mm vmaid
      if curVma = none then .ok (none, c.unlock)
      else do
        let vma ← c.mm.area curVma
        let oldSbrk := int32 vma.sbrk
        let oldEnd := int32 vma.vmEnd
        let (st, _, c) ← sysMemmap c ⟨uint32 sysmemIncOp, uint32 vmaid, uint32 size⟩
        let vma ← c.mm.area curVma
        if st < 0 then
          let vma := { vma with vmEnd := ulong oldEnd, sbrk := ulong oldSbrk }
          .ok (none, { c with mm := c.mm.setArea curVma vma }.unlock)
        else do
          let rgEnd := ulong (int32 (oldSbrk + size))
          let mm ← c.mm.symSet rgid ⟨ulong oldSbrk, rgEnd⟩
          -- the rest of the new pages
          let (_, mm) ← enlistVmFreergList mm ⟨rgEnd, vma.sbrk⟩
          .ok (some oldSbrk, { c with mm }.unlock)

/-- `__free`. -/
def free (c : Ctx) (rgid : ℤ) : Exec (ℤ × Ctx) := do
  let c ← c.lock
  if rgid < 0 ∨ rgid > pagingMaxSymtblSz then .ok (-1, c.unlock)
  else do
    let rg ← c.mm.symGet rgid
    match c.mm.mmap with
    | [] => .error .undefined
    | vma :: rest => do
        let (newFrrg, freerg) := mergeWalk rg vma.vmFreergList
        let mm := { c.mm with mmap := { vma with vmFreergList := freerg } :: rest }
        let (st, mm) ← enlistVmFreergList mm newFrrg
        if st = -1 then .ok (-1, { c with mm }.unlock)
        else do
          let mm ← mm.symSet rgid ⟨0, 0⟩
          .ok (0, { c with mm }.unlock)

/-- `liballoc`: on area 0. -/
def liballoc (c : Ctx) (size regIndex : ℕ) : Exec (ℤ × Ctx) := do
  let (addr, c) ← alloc c 0 (int32 regIndex) (int32 size)
  .ok (if addr = none then -1 else 0, c)

/-- `libfree`. -/
def libfree (c : Ctx) (regIndex : ℕ) : Exec (ℤ × Ctx) := free c (int32 regIndex)

/-! ### Page access -/

/-- The walk of `find_victim_page` over a non-empty list: the last page and the rest. -/
def popLast : ℕ → List ℕ → ℕ × List ℕ
  | pg, [] => (pg, [])
  | pg, next :: rest => ((popLast next rest).1, pg :: (popLast next rest).2)

/-- `find_victim_page`: `*retpgn`, which an empty list leaves unassigned. -/
def findVictimPage (mm : Mm) : Option ℕ × Mm :=
  match mm.fifoPgn with
  | [] => (none, mm)
  | pg :: rest => (some (popLast pg rest).1, { mm with fifoPgn := (popLast pg rest).2 })

/-- The end of `pg_getpage`: enlist the page and read its frame. -/
def pgReturn (c : Ctx) (pgn : ℕ) : Exec (Option ℕ × Ctx) := do
  let c := { c with mm := enlistPgnNode c.mm pgn }
  let pte ← c.mm.pgdGet pgn
  .ok (some (pagingFpn pte), c)

/-- `pg_getpage`: `*fpn`, or `none` for the result `-1`. -/
def pgGetpage (c : Ctx) (pgn : ℕ) : Exec (Option ℕ × Ctx) := do
  let pte ← c.mm.pgdGet pgn
  if pagingPagePresent pte then pgReturn c pgn
  else do
    let (vicpgn, mm) := findVictimPage c.mm
    let c := { c with mm }
    let vicpgn ← assigned vicpgn
    let vicpte ← c.mm.pgdGet vicpgn
    let vicfpn := pagingPteFpn vicpte
    match c.dev.mswp.getFreefp with
    | none => .ok (none, c)
    | some (swpfpn, mswp) => do
        let c := { c with dev := { c.dev with mswp } }
        let (st, _, c) ← sysMemmap c ⟨uint32 sysmemSwpOp, uint32 vicfpn, uint32 swpfpn⟩
        if st = -1 then .ok (none, c)
        else do
          let vicpte ← c.mm.pgdGet vicpgn
          let mm ← c.mm.pgdSet vicpgn (pteSetSwap vicpte c.activeMswpId swpfpn)
          let tgtfpn := pagingPteSwp pte
          let dev ← swapCpPage c.dev .mswp tgtfpn .mram vicfpn
          let pte ← mm.pgdGet pgn
          let mm ← mm.pgdSet pgn (pteSetFpn pte vicfpn)
          pgReturn { c with mm, dev } pgn

/-- The physical address of `pg_getval` and `pg_setval`, in `int`. -/
def phyAddr (fpn offs : ℕ) : ℤ := int32 (int32 (fpn * pagingPagesz) + offs)

theorem int32_phyAddr (fpn offs : ℕ) : int32 (phyAddr fpn offs) = phyAddr fpn offs :=
  int32_int32 _

/-- `pg_getval`: `*data`, which stays unassigned where the result is `-1`. -/
def pgGetval (c : Ctx) (addr : ℤ) : Exec (Option Byte × Ctx) := do
  let pgn := pagingPgn addr
  let offs := pagingOffst addr
  let (fpn, c) ← pgGetpage c pgn
  match fpn with
  | none => .ok (none, c)
  | some fpn => do
      let (st, regs, c) ← sysMemmap c ⟨uint32 sysmemIoRead, uint32 (phyAddr fpn offs), 0⟩
      if st = -1 then .ok (none, c) else .ok (some (uint32ToByte regs.a3), c)

/-- `pg_setval`. -/
def pgSetval (c : Ctx) (addr : ℤ) (value : Byte) : Exec (ℤ × Ctx) := do
  let pgn := pagingPgn addr
  let offs := pagingOffst addr
  let (fpn, c) ← pgGetpage c pgn
  match fpn with
  | none => .ok (-1, c)
  | some fpn => do
      let (st, _, c) ←
        sysMemmap c ⟨uint32 sysmemIoWrite, uint32 (phyAddr fpn offs), byteToUint32 value⟩
      if st = -1 then .ok (-1, c) else .ok (0, c)

/-! ### Reads and writes of a region -/

/-- The address that `__read` and `__write` pass on, converted to `int`. -/
def rgAddr (currg : VmRg) (offset : ℤ) : ℤ := int32 (ulong (currg.rgStart + offset))

/-- `__read`: the result and `*data` where it is assigned. -/
def read (c : Ctx) (vmaid rgid offset : ℤ) : Exec (ℤ × Option Byte × Ctx) := do
  let c ← c.lock
  let curVma ← getVmaByNum c.mm vmaid
  match getSymrgByid rgid, curVma with
  | some currg, some _ => do
      let currg ← c.mm.symGet currg
      -- the result of `pg_getval` is not looked at
      let (data, c) ← pgGetval c (rgAddr currg offset)
      .ok (0, data, c.unlock)
  | _, _ => .ok (-1, none, c)  -- returns with the lock held

/-- `__write`. -/
def write (c : Ctx) (vmaid rgid offset : ℤ) (value : Byte) : Exec (ℤ × Ctx) := do
  let c ← c.lock
  let curVma ← getVmaByNum c.mm vmaid
  match getSymrgByid rgid, curVma with
  | some currg, some _ => do
      let currg ← c.mm.symGet currg
      -- the result of `pg_setval` is not looked at
      let (_, c) ← pgSetval c (rgAddr currg offset) value
      .ok (0, c.unlock)
  | _, _ => .ok (-1, c)  -- returns with the lock held

/-- `libread`: the result and `*destination`; `data₀` is what the local `data` held before. -/
def libread (c : Ctx) (source offset : ℕ) (data₀ : Byte) : Exec (ℤ × ℕ × Ctx) := do
  let (val, data, c) ← read c 0 (int32 source) (int32 offset)
  .ok (val, byteToUint32 (data.getD data₀), c)

/-- `libwrite`. -/
def libwrite (c : Ctx) (data : Byte) (destination offset : ℕ) : Exec (ℤ × Ctx) :=
  write c 0 (int32 destination) (int32 offset) data

/-! ### What the calls change

Each inversion lemma says everything that a call that returned may have done, for arbitrary
operands.  Heap calls touch frames only through `Ctx.grown`. -/

/-- The same memory with other areas and another symbol table. -/
def Ctx.withHeap (c : Ctx) (mmap : List VmArea) (symrgtbl : ℕ → VmRg) : Ctx :=
  { c with mm := { c.mm with mmap, symrgtbl } }

omit [Header] in
theorem Ctx.unlock_withHeap {c : Ctx} (hlock : c.mmvmLock = false) (mmap : List VmArea)
    (symrgtbl : ℕ → VmRg) : ({ c with mm := { c.mm with mmap, symrgtbl }, mmvmLock := true } :
      Ctx).unlock = c.withHeap mmap symrgtbl := by
  simp [Ctx.unlock, Ctx.withHeap, hlock]

omit [Header] in
theorem Ctx.lock_ok {c c' : Ctx} (h : c.lock = .ok c') :
    c.mmvmLock = false ∧ c' = { c with mmvmLock := true } := by
  unfold Ctx.lock at h
  split_ifs at h with hl
  exact ⟨by simpa using hl, (Except.ok.inj h).symm⟩

omit [Header] in
theorem Ctx.lock_eq {c : Ctx} (hlock : c.mmvmLock = false) :
    c.lock = .ok { c with mmvmLock := true } := by
  unfold Ctx.lock
  rw [if_neg (by simp [hlock])]

/-- An allocation of a region maps new pages only where no free node fits. -/
theorem alloc_ok {c c' : Ctx} {vmaid rgid size : ℤ} {r : Option ℤ}
    (h : alloc c vmaid rgid size = .ok (r, c')) :
    c.mmvmLock = false ∧ ∃ mmap symrgtbl, c' = c.withHeap mmap symrgtbl ∨ ∃ a n,
      getFreeVmrgArea c.mm vmaid size = .ok (none, c.mm) ∧
      Growth c.mm (int32 vmaid) (int32 size) a n ∧ n ≤ c.dev.mram.freeFpList.length ∧
        c' = (c.withHeap mmap symrgtbl).grown a n := by
  unfold alloc at h
  obtain ⟨c₁, hl, h⟩ := bind_eq_ok.mp h
  obtain ⟨hlock, rfl⟩ := Ctx.lock_ok hl
  refine ⟨hlock, ?_⟩
  obtain ⟨⟨rgnode, mm⟩, hf, h⟩ := bind_eq_ok.mp h
  have hheap := Ctx.unlock_withHeap hlock
  cases rgnode with
  | some rgnode =>
      obtain ⟨mmap, rfl⟩ := getFreeVmrgArea_ok hf
      simp only [bind_eq_ok, Mm.symSet_eq_ok, Except.ok.injEq, Prod.mk.injEq] at h
      obtain ⟨_, ⟨_, rfl⟩, _, rfl⟩ := h
      exact ⟨_, _, .inl (hheap _ _)⟩
  | none =>
      obtain rfl := getFreeVmrgArea_none hf
      simp only [bind_eq_ok] at h
      obtain ⟨curVma, _, h⟩ := h
      split_ifs at h
      · obtain ⟨rfl, rfl⟩ := by simpa using h
        exact ⟨_, _, .inl (hheap _ _)⟩
      · simp only [bind_eq_ok, sysMemmap_inc, Except.ok.injEq] at h
        obtain ⟨vma₀, _, _, ⟨⟨st, c₂⟩, hi, rfl⟩, vma, _, h⟩ := h
        obtain ⟨mmap', ⟨rfl, rfl⟩ | ⟨rfl, a, n, hg, hn, rfl⟩⟩ := incVmaLimit_ok hi
        · rw [if_pos (show (-1 : ℤ) < 0 by decide), Mm.setArea_eq] at h
          obtain ⟨rfl, rfl⟩ := by simpa using h
          exact ⟨_, _, .inl (hheap _ _)⟩
        · rw [if_neg (show ¬ (0 : ℤ) < 0 by decide)] at h
          simp only [bind_eq_ok, Mm.symSet_eq_ok, Except.ok.injEq, Prod.mk.injEq] at h
          obtain ⟨_, ⟨_, rfl⟩, ⟨_, mm⟩, he, _, rfl⟩ := h
          obtain ⟨mmap'', rfl⟩ := enlistVmFreergList_ok he
          refine ⟨mmap'', Function.update c.mm.symrgtbl rgid.toNat ⟨ulong (int32 vma₀.sbrk),
            ulong (int32 (int32 vma₀.sbrk + size))⟩, .inr ⟨a, n, hf, hg, hn, ?_⟩⟩
          simp only [Ctx.unlock, Ctx.grown, Ctx.withHeap, Mm.mapped, hlock]

theorem free_ok {c c' : Ctx} {rgid st : ℤ} (h : free c rgid = .ok (st, c')) :
    c.mmvmLock = false ∧ ∃ mmap symrgtbl, c' = c.withHeap mmap symrgtbl := by
  unfold free at h
  obtain ⟨c₁, hl, h⟩ := bind_eq_ok.mp h
  obtain ⟨hlock, rfl⟩ := Ctx.lock_ok hl
  refine ⟨hlock, ?_⟩
  have hdone := Ctx.unlock_withHeap hlock
  split_ifs at h
  · obtain ⟨rfl, rfl⟩ := by simpa using h
    exact ⟨_, _, hdone _ _⟩
  · simp only [bind_eq_ok] at h
    obtain ⟨rg, _, h⟩ := h
    split at h
    · cases h
    · obtain ⟨⟨st', mm⟩, he, h⟩ := bind_eq_ok.mp h
      obtain ⟨mmap, rfl⟩ := enlistVmFreergList_ok he
      split_ifs at h
      · obtain ⟨rfl, rfl⟩ := by simpa using h
        exact ⟨_, _, hdone _ _⟩
      · simp only [bind_eq_ok, Mm.symSet_eq_ok, Except.ok.injEq, Prod.mk.injEq] at h
        obtain ⟨_, ⟨_, rfl⟩, _, rfl⟩ := h
        exact ⟨_, _, hdone _ _⟩

/-! ### What a page access does -/

omit [Header] in
theorem popLast_append (pg : ℕ) (rest : List ℕ) :
    (popLast pg rest).2 ++ [(popLast pg rest).1] = pg :: rest := by
  induction rest generalizing pg with
  | nil => rfl
  | cons next rest ih =>
      rw [popLast, List.cons_append, ih]

omit [Header] in
/-- `find_victim_page` removes the last page of the list. -/
theorem findVictimPage_some {mm mm' : Mm} {vic : ℕ} (h : findVictimPage mm = (some vic, mm')) :
    ∃ rest, mm.fifoPgn = rest ++ [vic] ∧ mm' = { mm with fifoPgn := rest } := by
  unfold findVictimPage at h
  split at h
  · cases h
  · rename_i pg rest hf
    obtain ⟨hv, rfl⟩ := Prod.mk.inj h
    obtain rfl := Option.some.inj hv
    exact ⟨_, by rw [hf, popLast_append], rfl⟩

/-- The page table after the victim `vic` made room for `pgn`. -/
def evictPgd (c : Ctx) (pgn vic swpfpn : ℕ) : ℕ → Pte :=
  let pgd := Function.update c.mm.pgd vic (pteSetSwap (c.mm.pgd vic) c.activeMswpId swpfpn)
  Function.update pgd pgn (pteSetFpn (pgd pgn) (pagingPteFpn (c.mm.pgd vic)))

/-- The three ways in which `pg_getpage` returns: the page is in RAM; no swap frame is free and
the victim is dropped from the list; the victim `vic` goes to the swap frame `swpfpn` and its
frame is given to the page. -/
inductive PageStep (c : Ctx) (pgn : ℕ) : Option ℕ → Ctx → Prop
  | hit : pagingPagePresent (c.mm.pgd pgn) = true →
      PageStep c pgn (some (pagingFpn (c.mm.pgd pgn))) { c with mm := enlistPgnNode c.mm pgn }
  | full {vic : ℕ} {rest : List ℕ} : pagingPagePresent (c.mm.pgd pgn) = false →
      c.mm.fifoPgn = rest ++ [vic] → c.dev.mswp.freeFpList = [] →
      PageStep c pgn none { c with mm := { c.mm with fifoPgn := rest } }
  | evict {vic swpfpn : ℕ} {rest swprest : List ℕ} {ram swp : ℕ → Byte} :
      pagingPagePresent (c.mm.pgd pgn) = false →
      c.mm.fifoPgn = rest ++ [vic] → c.dev.mswp.freeFpList = swpfpn :: swprest →
      (∀ a : ℕ, (∀ j < pagingPagesz, cellAddr (int32 swpfpn) j ≠ a) →
        swp a = c.dev.mswp.storage a) →
      (∀ a : ℕ, (∀ j < pagingPagesz, cellAddr (pagingPteFpn (c.mm.pgd vic)) j ≠ a) →
        ram a = c.dev.mram.storage a) →
      PageStep c pgn (some (pagingFpn (evictPgd c pgn vic swpfpn pgn)))
        { c with
          mm := { c.mm with pgd := evictPgd c pgn vic swpfpn, fifoPgn := pgn :: rest }
          dev := ⟨c.dev.mram.withStorage ram,
            { c.dev.mswp with storage := swp, freeFpList := swprest }⟩ }

theorem pgReturn_ok {c c' : Ctx} {pgn : ℕ} {r : Option ℕ} (h : pgReturn c pgn = .ok (r, c')) :
    r = some (pagingFpn (c.mm.pgd pgn)) ∧ c' = { c with mm := enlistPgnNode c.mm pgn } := by
  unfold pgReturn at h
  simp only [bind_eq_ok, Mm.pgdGet_eq_ok, Except.ok.injEq, Prod.mk.injEq] at h
  obtain ⟨_, ⟨_, rfl⟩, rfl, rfl⟩ := h
  exact ⟨rfl, rfl⟩

theorem pgGetpage_ok {c c' : Ctx} {pgn : ℕ} {r : Option ℕ}
    (h : pgGetpage c pgn = .ok (r, c')) : pgn < pagingMaxPgn ∧ PageStep c pgn r c' := by
  unfold pgGetpage at h
  simp only [bind_eq_ok, Mm.pgdGet_eq_ok] at h
  obtain ⟨_, ⟨hpgn, rfl⟩, h⟩ := h
  refine ⟨hpgn, ?_⟩
  split_ifs at h with hp
  · obtain ⟨rfl, rfl⟩ := pgReturn_ok h
    exact .hit hp
  · have hp' : pagingPagePresent (c.mm.pgd pgn) = false := by simpa using hp
    rcases hv : findVictimPage c.mm with ⟨v, mm⟩
    rw [hv] at h
    cases v with
    | none => exact absurd h (by simp [assigned])
    | some vic =>
        obtain ⟨rest, hf, rfl⟩ := findVictimPage_some hv
        simp only [assigned, ok_bind, bind_eq_ok, Mm.pgdGet_eq_ok] at h
        obtain ⟨_, ⟨_, rfl⟩, h⟩ := h
        unfold Memphy.getFreefp at h
        split at h
        · rename_i hg
          split at hg
          · rename_i hempty
            obtain ⟨rfl, rfl⟩ := by simpa using h
            exact .full hp' hf hempty
          · cases hg
        · rename_i swpfpn mswp hg
          split at hg
          · cases hg
          · rename_i swprest hsw
            obtain ⟨rfl, rfl⟩ := by simpa using hg
            rw [sysMemmap_swp] at h
            simp only [mmSwapPage, bind_eq_ok, Except.ok.injEq] at h
            obtain ⟨_, ⟨_, ⟨dev₁, h₁, rfl⟩, rfl⟩, h⟩ := h
            obtain ⟨swp, rfl, hswp⟩ := swapCpPage_ok h₁
            rw [if_neg (show ¬ (0 : ℤ) = -1 by decide)] at h
            simp only [bind_eq_ok, Mm.pgdGet_eq_ok, Mm.pgdSet_eq_ok] at h
            obtain ⟨_, ⟨_, rfl⟩, _, ⟨_, rfl⟩, dev₂, h₂, _, ⟨_, rfl⟩, _, ⟨_, rfl⟩, h⟩ := h
            obtain ⟨ram, rfl, hram⟩ := swapCpPage_ok h₂
            obtain ⟨rfl, rfl⟩ := pgReturn_ok h
            exact .evict hp' hf hsw hswp hram

theorem PageStep.of_locked {c c' : Ctx} {pgn : ℕ} {r : Option ℕ}
    (h : PageStep { c with mmvmLock := true } pgn r c') :
    PageStep c pgn r { c' with mmvmLock := c.mmvmLock } := by
  cases h with
  | hit hp => exact .hit hp
  | full hp hf hs => exact .full hp hf hs
  | evict hp hf hs hswp hram => exact .evict hp hf hs hswp hram

theorem pgGetval_ok {c c' : Ctx} {addr : ℤ} {data : Option Byte}
    (h : pgGetval c addr = .ok (data, c')) :
    ∃ r, PageStep c (pagingPgn addr) r c' ∧
      (data = none ∧ (r = none ∨ c'.dev.mram.rdmflg = false) ∨ ∃ fpn, r = some fpn ∧
        data = some (c'.dev.mram.storage (phyAddr fpn (pagingOffst addr)).toNat)) := by
  unfold pgGetval at h
  obtain ⟨⟨r, c₁⟩, hg, h⟩ := bind_eq_ok.mp h
  obtain ⟨_, hstep⟩ := pgGetpage_ok hg
  refine ⟨r, ?_⟩
  cases r with
  | none =>
      obtain ⟨rfl, rfl⟩ := by simpa using h
      exact ⟨hstep, .inl ⟨rfl, .inl rfl⟩⟩
  | some fpn =>
      simp only [sysMemmap_ioRead, bind_eq_ok] at h
      obtain ⟨⟨st, regs, c₂⟩, ⟨⟨value, mram⟩, hr, hv⟩, h⟩ := h
      obtain ⟨rfl, ⟨hseq, rfl⟩ | ⟨_, _, rfl⟩⟩ := Memphy.read_ok hr
      · obtain ⟨rfl, rfl, rfl⟩ := by simpa using hv
        obtain ⟨rfl, rfl⟩ := by simpa using h
        exact ⟨hstep, .inl ⟨rfl, .inr hseq⟩⟩
      · obtain ⟨rfl, rfl, rfl⟩ := by simpa using hv
        simp only [show ¬ (0 : ℤ) = -1 by decide, if_false, uint32ToByte_byteToUint32,
          Except.ok.injEq, Prod.mk.injEq] at h
        obtain ⟨rfl, rfl⟩ := h
        exact ⟨hstep, .inr ⟨fpn, rfl, by rw [int32_phyAddr]⟩⟩

/-- The storage of the RAM after a write at a physical address. -/
def Ctx.poke (c : Ctx) (addr : ℕ) (value : Byte) : Ctx :=
  { c with dev := { c.dev with
      mram := c.dev.mram.withStorage (Function.update c.dev.mram.storage addr value) } }

omit [Header] in
@[simp] theorem Ctx.poke_storage (c : Ctx) (addr : ℕ) (value : Byte) :
    (c.poke addr value).dev.mram.storage = Function.update c.dev.mram.storage addr value := rfl

theorem pgSetval_ok {c c' : Ctx} {addr st : ℤ} {value : Byte}
    (h : pgSetval c addr value = .ok (st, c')) :
    ∃ r c₁, PageStep c (pagingPgn addr) r c₁ ∧
      (c' = c₁ ∧ st = -1 ∧ (r = none ∨ c₁.dev.mram.rdmflg = false) ∨
        ∃ fpn, r = some fpn ∧ st = 0 ∧ 0 ≤ phyAddr fpn (pagingOffst addr) ∧
          c' = c₁.poke (phyAddr fpn (pagingOffst addr)).toNat value) := by
  unfold pgSetval at h
  obtain ⟨⟨r, c₁⟩, hg, h⟩ := bind_eq_ok.mp h
  obtain ⟨_, hstep⟩ := pgGetpage_ok hg
  refine ⟨r, c₁, hstep, ?_⟩
  cases r with
  | none =>
      obtain ⟨rfl, rfl⟩ := by simpa using h
      exact .inl ⟨rfl, rfl, .inl rfl⟩
  | some fpn =>
      simp only [sysMemmap_ioWrite, bind_eq_ok, Except.ok.injEq] at h
      obtain ⟨_, ⟨⟨st', mram⟩, hw, rfl⟩, h⟩ := h
      rcases Memphy.write_ok hw with ⟨hseq, rfl, rfl⟩ | ⟨_, ha, rfl, rfl⟩
      · obtain ⟨rfl, rfl⟩ := by simpa using h
        exact .inl ⟨rfl, rfl, .inr hseq⟩
      · simp only [show ¬ (0 : ℤ) = -1 by decide, if_false, uint32ToByte_byteToUint32,
          int32_phyAddr, Except.ok.injEq, Prod.mk.injEq] at h
        rw [int32_phyAddr] at ha
        exact .inr ⟨fpn, rfl, h.1.symm, ha.1, h.2.symm⟩

/-- `__read` returns at once with the lock held, or after one page access. -/
theorem read_ok {c c' : Ctx} {vmaid rgid offset st : ℤ} {data : Option Byte}
    (h : read c vmaid rgid offset = .ok (st, data, c')) : c.mmvmLock = false ∧
    (st = -1 ∧ data = none ∧ c' = { c with mmvmLock := true } ∨
      st = 0 ∧ (0 ≤ rgid ∧ rgid < pagingMaxSymtblSz) ∧
        ∃ r, PageStep c (pagingPgn (rgAddr (c.mm.symrgtbl rgid.toNat) offset)) r c' ∧
          (data = none ∨ ∃ fpn, r = some fpn ∧ data = some (c'.dev.mram.storage (phyAddr fpn
            (pagingOffst (rgAddr (c.mm.symrgtbl rgid.toNat) offset))).toNat))) := by
  unfold read at h
  obtain ⟨c₁, hl, h⟩ := bind_eq_ok.mp h
  obtain ⟨hlock, rfl⟩ := Ctx.lock_ok hl
  refine ⟨hlock, ?_⟩
  obtain ⟨curVma, _, h⟩ := bind_eq_ok.mp h
  split at h
  · rename_i currg _ hg _
    simp only [bind_eq_ok, Mm.symGet_eq_ok, Except.ok.injEq, Prod.mk.injEq] at h
    obtain ⟨_, ⟨hrg, rfl⟩, ⟨data', c₂⟩, hv, rfl, rfl, rfl⟩ := h
    obtain rfl := getSymrgByid_eq_some hg
    obtain ⟨r, hstep, hd⟩ := pgGetval_ok hv
    have hstep' := hstep.of_locked
    rw [hlock] at hstep'
    exact .inr ⟨rfl, hrg, r, hstep', hd.imp_left And.left⟩
  · obtain ⟨rfl, rfl, rfl⟩ := by simpa using h
    exact .inl ⟨rfl, rfl, rfl⟩

/-- `__write` returns at once with the lock held, or after one page access and at most one write
to the RAM. -/
theorem write_ok {c c' : Ctx} {vmaid rgid offset st : ℤ} {value : Byte}
    (h : write c vmaid rgid offset value = .ok (st, c')) : c.mmvmLock = false ∧
    (st = -1 ∧ c' = { c with mmvmLock := true } ∨
      st = 0 ∧ (0 ≤ rgid ∧ rgid < pagingMaxSymtblSz) ∧
        ∃ r c₁, PageStep c (pagingPgn (rgAddr (c.mm.symrgtbl rgid.toNat) offset)) r c₁ ∧
          (c' = c₁ ∨ ∃ fpn, r = some fpn ∧
            0 ≤ phyAddr fpn (pagingOffst (rgAddr (c.mm.symrgtbl rgid.toNat) offset)) ∧
            c' = c₁.poke (phyAddr fpn
              (pagingOffst (rgAddr (c.mm.symrgtbl rgid.toNat) offset))).toNat value)) := by
  unfold write at h
  obtain ⟨c₁, hl, h⟩ := bind_eq_ok.mp h
  obtain ⟨hlock, rfl⟩ := Ctx.lock_ok hl
  refine ⟨hlock, ?_⟩
  obtain ⟨curVma, _, h⟩ := bind_eq_ok.mp h
  split at h
  · rename_i currg _ hg _
    simp only [bind_eq_ok, Mm.symGet_eq_ok, Except.ok.injEq, Prod.mk.injEq] at h
    obtain ⟨_, ⟨hrg, rfl⟩, ⟨st', c₂⟩, hv, rfl, rfl⟩ := h
    obtain rfl := getSymrgByid_eq_some hg
    obtain ⟨r, c₁, hstep, hd⟩ := pgSetval_ok hv
    have hstep' := hstep.of_locked
    rw [hlock] at hstep'
    refine .inr ⟨rfl, hrg, r, _, hstep', ?_⟩
    rcases hd with ⟨rfl, _⟩ | ⟨fpn, rfl, _, h0, rfl⟩
    · exact .inl rfl
    · exact .inr ⟨fpn, rfl, h0, rfl⟩
  · obtain ⟨rfl, rfl⟩ := by simpa using h
    exact .inl ⟨rfl, rfl⟩

theorem liballoc_eq_ok {c c' : Ctx} {size regIndex : ℕ} {st : ℤ}
    (h : liballoc c size regIndex = .ok (st, c')) : ∃ addr,
      alloc c 0 (int32 regIndex) (int32 size) = .ok (addr, c') ∧
        st = if addr = none then -1 else 0 := by
  unfold liballoc at h
  obtain ⟨⟨addr, c₁⟩, ha, h⟩ := bind_eq_ok.mp h
  obtain ⟨rfl, rfl⟩ := Prod.mk.inj (Except.ok.inj h)
  exact ⟨addr, ha, rfl⟩

theorem libread_eq_ok {c c' : Ctx} {source offset val : ℕ} {data₀ : Byte} {st : ℤ}
    (h : libread c source offset data₀ = .ok (st, val, c')) : ∃ data,
      read c 0 (int32 source) (int32 offset) = .ok (st, data, c') ∧
        val = byteToUint32 (data.getD data₀) := by
  unfold libread at h
  obtain ⟨⟨st', data, c₁⟩, hr, h⟩ := bind_eq_ok.mp h
  obtain ⟨rfl, rfl, rfl⟩ := by simpa using h
  exact ⟨data, hr, rfl⟩

end BtlOs
