import BtlOs.Pte

/-! # Memory areas and region lists (`mm-vm.c`, the list functions of `libmem.c`)

The memory map of a process: its page table `pgd`, the chain `mmap` of its areas, the symbol
table `symrgtbl` of its regions and the replacement list `fifo_pgn`.  A pointer into the chain is
an index; following the `NULL` at its end is undefined.  `symrgtbl` and `pgd` are arrays: an index
outside them is undefined. -/

namespace BtlOs

open CLang Header

/-- `struct vm_rg_struct`: the addresses `rg_start ≤ a < rg_end`. -/
structure VmRg where
  rgStart : ℕ
  rgEnd : ℕ
deriving DecidableEq, Repr

/-- `struct vm_area_struct`. -/
structure VmArea where
  vmId : ℕ
  vmStart : ℕ
  vmEnd : ℕ
  sbrk : ℕ
  vmFreergList : List VmRg
deriving DecidableEq, Repr

/-- `struct mm_struct`. -/
structure Mm where
  pgd : ℕ → Pte
  mmap : List VmArea
  symrgtbl : ℕ → VmRg
  fifoPgn : List ℕ

/-! ### Array and pointer accesses -/

namespace Mm

variable [Header] (mm : Mm)

/-- Read of `mm->pgd[pgn]`. -/
def pgdGet (pgn : ℕ) : Exec Pte := do
  require (pgn < pagingMaxPgn)
  .ok (mm.pgd pgn)

/-- Write of `mm->pgd[pgn]`. -/
def pgdSet (pgn : ℕ) (pte : Pte) : Exec Mm := do
  require (pgn < pagingMaxPgn)
  .ok { mm with pgd := Function.update mm.pgd pgn pte }

/-- Read of `mm->symrgtbl[rgid]`. -/
def symGet (rgid : ℤ) : Exec VmRg := do
  require (0 ≤ rgid ∧ rgid < pagingMaxSymtblSz)
  .ok (mm.symrgtbl rgid.toNat)

/-- Write of `mm->symrgtbl[rgid]`. -/
def symSet (rgid : ℤ) (rg : VmRg) : Exec Mm := do
  require (0 ≤ rgid ∧ rgid < pagingMaxSymtblSz)
  .ok { mm with symrgtbl := Function.update mm.symrgtbl rgid.toNat rg }

variable {mm}

theorem pgdGet_eq_ok {pgn : ℕ} {pte : Pte} :
    mm.pgdGet pgn = .ok pte ↔ pgn < pagingMaxPgn ∧ mm.pgd pgn = pte := by
  simp [pgdGet, bind_eq_ok, require_eq_ok]

theorem pgdSet_eq_ok {pgn : ℕ} {pte : Pte} {mm' : Mm} :
    mm.pgdSet pgn pte = .ok mm' ↔
      pgn < pagingMaxPgn ∧ { mm with pgd := Function.update mm.pgd pgn pte } = mm' := by
  simp [pgdSet, bind_eq_ok, require_eq_ok]

theorem symGet_eq_ok {rgid : ℤ} {rg : VmRg} :
    mm.symGet rgid = .ok rg ↔
      (0 ≤ rgid ∧ rgid < pagingMaxSymtblSz) ∧ mm.symrgtbl rgid.toNat = rg := by
  simp [symGet, bind_eq_ok, require_eq_ok]

theorem symSet_eq_ok {rgid : ℤ} {rg : VmRg} {mm' : Mm} :
    mm.symSet rgid rg = .ok mm' ↔ (0 ≤ rgid ∧ rgid < pagingMaxSymtblSz) ∧
      { mm with symrgtbl := Function.update mm.symrgtbl rgid.toNat rg } = mm' := by
  simp [symSet, bind_eq_ok, require_eq_ok]

variable (mm)

theorem symGet_natCast {id : ℕ} (hid : id < pagingMaxSymtblSz) :
    mm.symGet id = .ok (mm.symrgtbl id) :=
  symGet_eq_ok.mpr ⟨⟨by omega, by omega⟩, by simp⟩

omit [Header] in
/-- The area behind a pointer; `none` is `NULL`. -/
def area : Option ℕ → Exec VmArea
  | none => .error .undefined
  | some k => match mm.mmap[k]? with
    | none => .error .undefined
    | some vma => .ok vma

omit [Header] in
/-- Write through a pointer to an area. -/
def setArea (p : Option ℕ) (vma : VmArea) : Mm :=
  match p with
  | none => mm
  | some k => { mm with mmap := mm.mmap.set k vma }

omit [Header] in
theorem setArea_eq (p : Option ℕ) (vma : VmArea) :
    mm.setArea p vma = { mm with mmap := (mm.setArea p vma).mmap } := by
  cases p <;> rfl

end Mm

/-! ### `mm-vm.c` -/

/-- The loop of `get_vma_by_num`: `pvma` is the head of the list, at index `k`. -/
def getVmaByNumLoop (vmaid : ℤ) : List VmArea → ℕ → Exec (Option ℕ)
  | [], _ => .error .undefined  -- `vmait = pvma->vm_id` with `pvma == NULL`
  | pvma :: next, k =>
      if int32 pvma.vmId < vmaid then getVmaByNumLoop vmaid next (k + 1) else .ok (some k)

/-- `get_vma_by_num`. -/
def getVmaByNum (mm : Mm) (vmaid : ℤ) : Exec (Option ℕ) :=
  match mm.mmap with
  | [] => .ok none
  | pvma :: next => getVmaByNumLoop vmaid (pvma :: next) 0

/-- `get_vm_area_node_at_brk`. -/
def getVmAreaNodeAtBrk (mm : Mm) (vmaid size alignedsz : ℤ) : Exec (Option VmRg) := do
  let curVma ← getVmaByNum mm vmaid
  if curVma = none then .ok none
  else do
    let vma ← mm.area curVma
    let rgStart := ulong (ulong (vma.sbrk + alignedsz - 1) / ulong alignedsz * ulong alignedsz)
    .ok (some ⟨rgStart, ulong (rgStart + size)⟩)

/-- The overlap test of `validate_overlap_vm_area` against one other area. -/
def overlapsVma (vmastart vmaend : ℤ) (vma : VmArea) : Bool :=
  (ulong vmastart ≥ vma.vmStart && ulong vmastart < vma.vmEnd) ||
    (ulong vmaend > vma.vmStart && ulong vmaend ≤ vma.vmEnd) ||
    (ulong vmastart < vma.vmStart && ulong vmaend > vma.vmEnd)

/-- `validate_overlap_vm_area`. -/
def validateOverlapVmArea (mm : Mm) (vmaid vmastart vmaend : ℤ) : ℤ :=
  if mm.mmap = [] then -1
  else if mm.mmap.any (fun vma => ulong vmaid ≠ vma.vmId && overlapsVma vmastart vmaend vma) then -1
  else 0

/-! ### The only area -/

section single

variable {mm : Mm} {vma : VmArea} (hm : mm.mmap = [vma])

include hm

theorem Mm.area_single : mm.area (some 0) = .ok vma := by
  simp [Mm.area, hm]

theorem Mm.setArea_single (vma' : VmArea) :
    mm.setArea (some 0) vma' = { mm with mmap := [vma'] } := by
  simp [Mm.setArea, hm]

variable (hid : vma.vmId = 0)

include hid

theorem getVmaByNum_single : getVmaByNum mm 0 = .ok (some 0) := by
  unfold getVmaByNum
  rw [hm]
  simp [getVmaByNumLoop, hid, int32]

theorem getVmAreaNodeAtBrk_single (size alignedsz : ℤ) :
    ∃ region, getVmAreaNodeAtBrk mm 0 size alignedsz = .ok (some region) := by
  unfold getVmAreaNodeAtBrk
  simp [getVmaByNum_single hm hid, Mm.area_single hm]

theorem validateOverlapVmArea_single (vmastart vmaend : ℤ) :
    validateOverlapVmArea mm 0 vmastart vmaend = 0 := by
  simp [validateOverlapVmArea, hm, hid, ulong]

end single

/-! ### The free-region list (`libmem.c`) -/

/-- The walk of `enlist_vm_freerg_list`: insert before the first node that starts at or after the
end of the new region. -/
def enlistWalk (rgElmt : VmRg) : List VmRg → List VmRg
  | [] => [rgElmt]
  | rgNode :: next =>
      if rgNode.rgStart ≥ rgElmt.rgEnd then rgElmt :: rgNode :: next
      else rgNode :: enlistWalk rgElmt next

/-- `enlist_vm_freerg_list`: the list is that of the first area. -/
def enlistVmFreergList (mm : Mm) (rgElmt : VmRg) : Exec (ℤ × Mm) :=
  match mm.mmap with
  | [] => .error .undefined
  | vma :: rest =>
      if rgElmt.rgStart ≥ rgElmt.rgEnd then .ok (-1, mm)
      else .ok (0, { mm with
        mmap := { vma with vmFreergList := enlistWalk rgElmt vma.vmFreergList } :: rest })

/-- `get_symrg_byid`: the index of the entry, `none` for `NULL`. -/
def getSymrgByid [Header] (rgid : ℤ) : Option ℤ :=
  if rgid < 0 ∨ rgid > pagingMaxSymtblSz then none else some rgid

theorem getSymrgByid_of_range [Header] {rgid : ℤ} (h₀ : 0 ≤ rgid) (h₁ : rgid ≤ pagingMaxSymtblSz) :
    getSymrgByid rgid = some rgid :=
  if_neg (by omega)

theorem getSymrgByid_eq_some [Header] {rgid k : ℤ} (h : getSymrgByid rgid = some k) : rgid = k := by
  unfold getSymrgByid at h
  split_ifs at h
  exact Option.some.inj h

/-- The walk of `get_free_vmrg_area`: the first node of at least `size` bytes and the list
without it. -/
def firstFit (size : ℤ) : List VmRg → Option (VmRg × List VmRg)
  | [] => none
  | rgit :: next =>
      if ulong ((rgit.rgEnd : ℤ) - rgit.rgStart) ≥ ulong size then some (rgit, next)
      else (firstFit size next).map fun r => (r.1, rgit :: r.2)

/-- `get_free_vmrg_area`: the allocated region, `none` for the result `-1`. -/
def getFreeVmrgArea (mm : Mm) (vmaid size : ℤ) : Exec (Option VmRg × Mm) := do
  let curVma ← getVmaByNum mm vmaid
  let vma ← mm.area curVma
  match firstFit size vma.vmFreergList with
  | none => .ok (none, mm)
  | some (rgit, rest) => do
      let newrg : VmRg := ⟨rgit.rgStart, ulong (rgit.rgStart + size)⟩
      let mm := mm.setArea curVma { vma with vmFreergList := rest }
      let (_, mm) ← enlistVmFreergList mm ⟨ulong (rgit.rgStart + size), rgit.rgEnd⟩
      .ok (some newrg, mm)

/-- The merging walk of `__free`: every node that touches the region is taken out of the list and
added to the region. -/
def mergeWalk : VmRg → List VmRg → VmRg × List VmRg
  | newFrrg, [] => (newFrrg, [])
  | newFrrg, tmp :: next =>
      if tmp.rgEnd = newFrrg.rgStart then mergeWalk { newFrrg with rgStart := tmp.rgStart } next
      else if tmp.rgStart = newFrrg.rgEnd then mergeWalk { newFrrg with rgEnd := tmp.rgEnd } next
      else ((mergeWalk newFrrg next).1, tmp :: (mergeWalk newFrrg next).2)

/-! ### What the list functions leave unchanged -/

theorem enlistVmFreergList_ok {mm mm' : Mm} {rg : VmRg} {st : ℤ}
    (h : enlistVmFreergList mm rg = .ok (st, mm')) : ∃ mmap, mm' = { mm with mmap } := by
  unfold enlistVmFreergList at h
  split at h
  · cases h
  · split_ifs at h
    · obtain ⟨rfl, rfl⟩ := by simpa using h
      exact ⟨mm.mmap, rfl⟩
    · obtain ⟨rfl, rfl⟩ := by simpa using h
      exact ⟨_, rfl⟩

theorem getFreeVmrgArea_ok {mm mm' : Mm} {vmaid size : ℤ} {r : Option VmRg}
    (h : getFreeVmrgArea mm vmaid size = .ok (r, mm')) : ∃ mmap, mm' = { mm with mmap } := by
  unfold getFreeVmrgArea at h
  simp only [bind_eq_ok] at h
  obtain ⟨curVma, _, vma, _, h⟩ := h
  split at h
  · obtain ⟨rfl, rfl⟩ := by simpa using h
    exact ⟨mm.mmap, rfl⟩
  · obtain ⟨⟨st, mm₁⟩, h₁, h⟩ := bind_eq_ok.mp h
    obtain ⟨rfl, rfl⟩ := by simpa using h
    obtain ⟨mmap, rfl⟩ := enlistVmFreergList_ok h₁
    rw [Mm.setArea_eq]
    exact ⟨mmap, rfl⟩

theorem getFreeVmrgArea_none {mm mm' : Mm} {vmaid size : ℤ}
    (h : getFreeVmrgArea mm vmaid size = .ok (none, mm')) : mm' = mm := by
  unfold getFreeVmrgArea at h
  simp only [bind_eq_ok] at h
  obtain ⟨curVma, _, vma, _, h⟩ := h
  split at h
  · exact (Prod.mk.inj (Except.ok.inj h)).2.symm
  · obtain ⟨_, _, h⟩ := bind_eq_ok.mp h
    cases h

/-- `init_mm` over what `malloc` returned: `mm₀` for the structure, `pgd₀` for the page table. -/
def initMm (mm₀ : Mm) (pgd₀ : ℕ → Pte) : Mm where
  pgd := pgd₀
  -- the node of `init_vm_rg(0, 0)` is enlisted and dropped again by `vm_freerg_list = NULL`
  mmap := [{ vmId := 0, vmStart := 0, vmEnd := 0, sbrk := 0, vmFreergList := [] }]
  symrgtbl := Function.update mm₀.symrgtbl 0 ⟨0, 0⟩
  fifoPgn := []

end BtlOs
