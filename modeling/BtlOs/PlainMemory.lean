import BtlOs.Heap
import BtlOs.Frames

/-! # Paged memory refines plain memory

The abstract memory `Plain` gives every process its own regions, and every region its own bytes:
no addresses, no pages, no frames.  The refinement says that the calls of any number of processes
over one RAM device, made within their contract, cannot be told apart from it.

The invariant `PlainInv` relates the two: heaps are in order, the pages below `vm_end` hold
distinct frames over all processes, and every byte of the abstract memory is stored where the page
table says.  `phys_inj` is the reason why a write to one byte keeps all others. -/

namespace BtlOs

open CLang Header Segments TokenPool Table

/-! ### Plain memory -/

/-- A region: its size and, for each offset, the last byte written. -/
structure Block where
  size : ℕ
  data : ℕ → Option Byte

/-- The live regions of every process. -/
def Plain := ℕ → ℕ → Option Block

namespace Plain

def empty : Plain := fun _ _ => none

/-- The regions of one process replaced. -/
def set (M : Plain) (p : ℕ) (blocks : ℕ → Option Block) : Plain := Function.update M p blocks

/-- What an event does to plain memory. -/
def next (M : Plain) : Event → Plain
  | .call p (.alloc size regIndex) st _ =>
      if st = 0 then M.set p (Function.update (M p) regIndex (some ⟨size, fun _ => none⟩)) else M
  | .call p (.free regIndex) _ _ => M.set p (Function.update (M p) regIndex none)
  | .call p (.write data destination offset) _ _ =>
      M.set p (Function.update (M p) destination ((M p destination).map fun b =>
        { b with data := Function.update b.data offset (some data) }))
  | .call _ (.read _ _ _) _ _ => M
  | .call _ (.memmap _) _ _ => M
  | .load p _ _ _ => M.set p fun _ => none
  | .release p => M.set p fun _ => none

/-- The byte of the last write to an offset of a region since its last allocation. -/
def lastWrite (M : Plain) (p regIndex offset : ℕ) : Option Byte :=
  (M p regIndex).bind fun b => b.data offset

@[simp] theorem set_self (M : Plain) (p : ℕ) (blocks : ℕ → Option Block) :
    M.set p blocks p = blocks := Function.update_self ..

theorem set_eq_self (M : Plain) (p : ℕ) : M.set p (M p) = M := Function.update_eq_self p M

theorem set_of_ne (M : Plain) {p q : ℕ} (blocks : ℕ → Option Block) (h : q ≠ p) :
    M.set p blocks q = M q := Function.update_of_ne h ..

end Plain

section

variable [Header]

/-- The contract of the calls: ids inside the symbol table, sizes whose rounding fits `int`, and
reads and writes inside a live region.  A loaded process has an empty symbol table. -/
def InContract (x : Sys × Plain) : Event → Prop
  | .call p (.read source offset _) _ _ => source < pagingMaxSymtblSz ∧
      ∃ b, x.2 p source = some b ∧ offset < b.size
  | .call p (.write _ destination offset) _ _ => destination < pagingMaxSymtblSz ∧
      ∃ b, x.2 p destination = some b ∧ offset < b.size
  | e => InHeapRange x.1 e

instance (x : Sys × Plain) : ∀ e, Decidable (InContract x e)
  | .call _ (.alloc _ _) _ _ => inferInstanceAs (Decidable (_ ∧ _))
  | .call _ (.free _) _ _ => inferInstanceAs (Decidable (_ < _))
  | .call p (.read source offset _) _ _ =>
      decidable_of_iff (source < pagingMaxSymtblSz ∧
        (x.2 p source).any (fun b => offset < b.size) = true) (by
          simp only [InContract]
          cases x.2 p source <;> simp)
  | .call p (.write _ destination offset) _ _ =>
      decidable_of_iff (destination < pagingMaxSymtblSz ∧
        (x.2 p destination).any (fun b => offset < b.size) = true) (by
          simp only [InContract]
          cases x.2 p destination <;> simp)
  | .call _ (.memmap _) _ _ => inferInstanceAs (Decidable False)
  | .load p mm₀ pgd₀ id => inferInstanceAs (Decidable (InHeapRange x.1 (.load p mm₀ pgd₀ id)))
  | .release _ => inferInstanceAs (Decidable True)

/-- The memory system with the plain memory beside it. -/
def plainLts : Lts (Sys × Plain) Event :=
  (memLts.withGhost fun _ M e => M.next e).restrict InContract

/-! ### Where a byte is stored -/

/-- The end of the heap. -/
def heapEnd : List VmArea → ℕ
  | [] => 0
  | vma :: _ => vma.vmEnd

/-- The frame of a page of the heap. -/
def heapFrame (mm : Mm) (g : ℕ) : Option ℕ :=
  if g * pagingPagesz < heapEnd mm.mmap then some (pagingFpn (mm.pgd g)) else none

/-- The physical address of an address. -/
def phys (mm : Mm) (a : ℕ) : ℕ :=
  pagingFpn (mm.pgd (a / pagingPagesz)) * pagingPagesz + a % pagingPagesz

theorem HeapOk.heapEnd {mm : Mm} {vma : VmArea} (h : HeapOk mm vma) :
    heapEnd mm.mmap = vma.vmEnd := by
  simp [BtlOs.heapEnd, h.mmap]

theorem heapFrame_of_lt {mm : Mm} {g : ℕ} (h : g * pagingPagesz < heapEnd mm.mmap) :
    heapFrame mm g = some (pagingFpn (mm.pgd g)) := if_pos h

theorem heapFrame_eq_some {mm : Mm} {g r : ℕ} :
    heapFrame mm g = some r ↔ g * pagingPagesz < heapEnd mm.mmap ∧ pagingFpn (mm.pgd g) = r := by
  simp [heapFrame]

/-- The two processes and addresses of one physical address are the same. -/
theorem phys_inj [PageLaws] {s : Sys} {pool : List ℕ} (h : Unique pool (s.own heapFrame))
    {p p' : ℕ} {pr pr' : Process} {a a' : ℕ} (hp : s.procs p = some pr)
    (hp' : s.procs p' = some pr') (ha : a < heapEnd pr.mm.mmap) (ha' : a' < heapEnd pr'.mm.mmap)
    (he : phys pr.mm a = phys pr'.mm a') : p = p' ∧ a = a' := by
  have hpos := pagesz_pos
  have hpage : ∀ b : ℕ, b / pagingPagesz * pagingPagesz ≤ b := fun b => Nat.div_mul_le_self b _
  have hown := own_of_proc (f := heapFrame) hp (a / pagingPagesz)
  have hown' := own_of_proc (f := heapFrame) hp' (a' / pagingPagesz)
  rw [heapFrame_of_lt (lt_of_le_of_lt (hpage a) ha)] at hown
  rw [heapFrame_of_lt (lt_of_le_of_lt (hpage a') ha')] at hown'
  unfold phys at he
  have hdiv := congrArg (· / pagingPagesz) he
  have hmod := congrArg (· % pagingPagesz) he
  have hlt := Nat.mod_lt a hpos
  have hlt' := Nat.mod_lt a' hpos
  simp only [Nat.mul_comm _ pagingPagesz, Nat.mul_add_div hpos, Nat.mul_add_mod,
    Nat.div_eq_of_lt hlt, Nat.div_eq_of_lt hlt', Nat.mod_eq_of_lt hlt, Nat.mod_eq_of_lt hlt',
    Nat.add_zero] at hdiv hmod
  rw [hdiv] at hown
  obtain ⟨hpp, hgg⟩ := Prod.mk.inj (h.inj hown hown')
  refine ⟨hpp, ?_⟩
  rw [← Nat.div_add_mod a pagingPagesz, ← Nat.div_add_mod a' pagingPagesz, hgg, hmod]

/-! ### Calls inside their contract -/

theorem pgGetpage_hit {c : Ctx} {pgn : ℕ} (hpgn : pgn < pagingMaxPgn)
    (hp : pagingPagePresent (c.mm.pgd pgn) = true) :
    pgGetpage c pgn = .ok (some (pagingFpn (c.mm.pgd pgn)),
      { c with mm := enlistPgnNode c.mm pgn }) := by
  unfold pgGetpage pgReturn
  rw [Mm.pgdGet_eq_ok.mpr ⟨hpgn, rfl⟩, ok_bind, if_pos hp]
  simp only [Mm.pgdGet_eq_ok.mpr ⟨hpgn, rfl⟩, ok_bind]
  rfl

/-- An address of the heap that the calls can reach. -/
structure Reach (c : Ctx) (vma : VmArea) (id offset a : ℕ) : Prop where
  heap : HeapOk c.mm vma
  id_lt : id < pagingMaxSymtblSz
  addr : (c.mm.symrgtbl id).rgStart + offset = a
  offset_lt : a < (c.mm.symrgtbl id).rgEnd
  max : a < pagingMaxPgn * pagingPagesz
  int : a < 2 ^ 31
  rdmflg : c.dev.mram.rdmflg = true
  maxsz : (phys c.mm a : ℤ) < c.dev.mram.maxsz
  maxsz_int : c.dev.mram.maxsz < 2 ^ 31

variable [PageLaws] [PteLaws] {c : Ctx} {vma : VmArea} {id offset a : ℕ}

theorem Reach.page (h : Reach c vma id offset a) :
    pgGetpage c (pagingPgn a) = .ok (some (pagingFpn (c.mm.pgd (a / pagingPagesz))),
      { c with mm := enlistPgnNode c.mm (a / pagingPagesz) }) := by
  have hlt := h.heap.live_le id h.id_lt a ⟨h.addr ▸ Nat.le_add_right _ _, h.offset_lt⟩
  rw [h.heap.sbrk] at hlt
  obtain ⟨pte, fpn, he⟩ := h.heap.mapped (a / pagingPagesz)
    (lt_of_le_of_lt (Nat.div_mul_le_self a _) hlt)
  rw [PageLaws.pgn a h.max]
  refine pgGetpage_hit ((Nat.div_lt_iff_lt_mul pagesz_pos).mpr h.max) ?_
  rw [he, present_pteSetFpn]

omit [PteLaws] in
theorem Reach.phyAddr (h : Reach c vma id offset a) :
    phyAddr (pagingFpn (c.mm.pgd (a / pagingPagesz))) (pagingOffst a) = phys c.mm a := by
  have h₁ := h.maxsz
  have h₂ := h.maxsz_int
  unfold phys at h₁ ⊢
  unfold BtlOs.phyAddr
  rw [PageLaws.offst a h.max]
  push_cast at h₁
  have h₃ : (0 : ℤ) ≤ pagingFpn (c.mm.pgd (a / pagingPagesz)) * pagingPagesz := by positivity
  rw [int32_of_range (x := pagingFpn (c.mm.pgd (a / pagingPagesz)) * pagingPagesz) (by omega)
    (by omega), int32_of_range (by omega) (by omega)]
  push_cast
  rfl

omit [PageLaws] [PteLaws] in
theorem Reach.rgAddr (h : Reach c vma id offset a) :
    rgAddr (c.mm.symrgtbl id) (int32 offset) = a := by
  have h₁ := h.addr
  have h₂ := h.int
  have hoff : offset < 2 ^ 31 := by omega
  unfold BtlOs.rgAddr
  rw [int32_natCast hoff]
  have e : ulong (((c.mm.symrgtbl id).rgStart : ℤ) + offset) = a := by
    rw [← h₁]
    exact_mod_cast ulong_natCast (n := (c.mm.symrgtbl id).rgStart + offset) (by omega)
  rw [e, int32_natCast h₂]

omit [PageLaws] [PteLaws] in
theorem Reach.locked (h : Reach c vma id offset a) :
    Reach { c with mmvmLock := true } vma id offset a :=
  ⟨h.heap, h.id_lt, h.addr, h.offset_lt, h.max, h.int, h.rdmflg, h.maxsz, h.maxsz_int⟩

theorem Reach.pgGetval (h : Reach c vma id offset a) :
    pgGetval c a = .ok (some (c.dev.mram.storage (phys c.mm a)),
      { c with mm := enlistPgnNode c.mm (a / pagingPagesz) }) := by
  have hmax := h.maxsz_int
  have hlt := h.maxsz
  unfold BtlOs.pgGetval
  simp only [h.page, ok_bind, h.phyAddr, sysMemmap_ioRead]
  rw [int32_natCast (by omega), Memphy.read_of_rdmflg h.rdmflg hlt]
  simp [uint32ToByte_byteToUint32]

theorem Reach.pgSetval (h : Reach c vma id offset a) (value : Byte) :
    pgSetval c a value =
      .ok (0, ({ c with mm := enlistPgnNode c.mm (a / pagingPagesz) } : Ctx).poke
        (phys c.mm a) value) := by
  have hmax := h.maxsz_int
  have hlt := h.maxsz
  unfold BtlOs.pgSetval
  simp only [h.page, ok_bind, h.phyAddr, sysMemmap_ioWrite]
  rw [int32_natCast (by omega), Memphy.write_of_rdmflg h.rdmflg hlt]
  simp [uint32ToByte_byteToUint32, Ctx.poke, Memphy.withStorage]

/-- A read inside a live region returns the byte at its physical address. -/
theorem Reach.libread (h : Reach c vma id offset a) (hlock : c.mmvmLock = false) (data₀ : Byte) :
    libread c id offset data₀ = .ok (0, byteToUint32 (c.dev.mram.storage (phys c.mm a)),
      { c with mm := enlistPgnNode c.mm (a / pagingPagesz) }) := by
  have hid := h.id_lt
  have hsym : getSymrgByid (id : ℤ) = some (id : ℤ) :=
    getSymrgByid_of_range (by omega) (by omega)
  have hget := c.mm.symGet_natCast hid
  unfold BtlOs.libread BtlOs.read Ctx.lock
  rw [int32_natCast (lt_trans h.id_lt PageLaws.symtblSz_lt), if_neg (by simp [hlock]), ok_bind]
  simp only [h.heap.getVmaByNum, hsym, hget, ok_bind, h.rgAddr, h.locked.pgGetval]
  simp [Ctx.unlock, hlock]

/-- A write inside a live region stores the byte at its physical address. -/
theorem Reach.libwrite (h : Reach c vma id offset a) (hlock : c.mmvmLock = false) (data : Byte) :
    libwrite c data id offset =
      .ok (0, ({ c with mm := enlistPgnNode c.mm (a / pagingPagesz) } : Ctx).poke
        (phys c.mm a) data) := by
  have hid := h.id_lt
  have hsym : getSymrgByid (id : ℤ) = some (id : ℤ) :=
    getSymrgByid_of_range (by omega) (by omega)
  have hget := c.mm.symGet_natCast hid
  unfold BtlOs.libwrite BtlOs.write Ctx.lock
  rw [int32_natCast (lt_trans h.id_lt PageLaws.symtblSz_lt), if_neg (by simp [hlock]), ok_bind]
  simp only [h.heap.getVmaByNum, hsym, hget, ok_bind, h.rgAddr, h.locked.pgSetval]
  simp [Ctx.unlock, Ctx.poke, hlock]

/-! ### What an allocation does to the pages -/

omit [PageLaws] [PteLaws] in
theorem phys_congr {mm mm' : Mm} {b : ℕ} (h : ∀ g, g * pagingPagesz < b → mm'.pgd g = mm.pgd g)
    (ha : a < b) : phys mm' a = phys mm a := by
  unfold phys
  rw [h _ (lt_of_le_of_lt (Nat.div_mul_le_self a _) ha)]

namespace AllocStep

variable {size : ℕ} {st : ℤ} {c' : Ctx} (hs : AllocStep c vma size id st c')

include hs

omit [PageLaws] [PteLaws] in
theorem mram : c'.dev.mram.storage = c.dev.mram.storage ∧
    c'.dev.mram.rdmflg = c.dev.mram.rdmflg ∧ c'.dev.mram.maxsz = c.dev.mram.maxsz := by
  cases hs <;> exact ⟨rfl, rfl, rfl⟩

omit [PageLaws] [PteLaws] in
theorem free_subset : ∀ fpn ∈ c'.dev.mram.freeFpList, fpn ∈ c.dev.mram.freeFpList := by
  cases hs with
  | fit _ => exact fun _ h => h
  | grow _ _ => exact fun _ h => List.mem_of_mem_drop h
  | oom _ => exact fun _ h => h

omit [PageLaws] [PteLaws] in
theorem symrgtbl_of_ne {id' : ℕ} (hne : id' ≠ id) :
    c'.mm.symrgtbl id' = c.mm.symrgtbl id' := by
  cases hs with
  | fit _ => exact Function.update_of_ne hne _ _
  | grow _ _ => exact Function.update_of_ne hne _ _
  | oom _ => rfl

omit [PageLaws] [PteLaws] in
/-- A successful call makes the region of the size asked for, a failed one changes nothing. -/
theorem result : st = 0 ∧ (c'.mm.symrgtbl id).rgEnd = (c'.mm.symrgtbl id).rgStart + size ∨
    st = -1 ∧ c' = c := by
  cases hs with
  | fit _ => exact .inl ⟨rfl, by simp [Ctx.withHeap]⟩
  | grow _ _ => exact .inl ⟨rfl, by simp [Ctx.withHeap, Ctx.grown, Mm.mapped]⟩
  | oom _ => exact .inr ⟨rfl, rfl⟩

omit [PageLaws] [PteLaws] in
theorem pgd_of_lt (h : HeapOk c.mm vma) {g : ℕ} (hg : g * pagingPagesz < vma.vmEnd) :
    c'.mm.pgd g = c.mm.pgd g := by
  cases hs with
  | fit _ => rfl
  | grow _ _ =>
      refine mapPages_of_lt _ _ ?_
      rw [← Nat.div_mul_cancel h.aligned] at hg
      exact Nat.lt_of_mul_lt_mul_right hg
  | oom _ => rfl

end AllocStep

theorem heapFrame_grown {size n : ℕ} {mmap : List VmArea} {symrgtbl : ℕ → VmRg}
    (h : HeapOk c.mm vma) (hend' : heapEnd mmap = vma.vmEnd + roundUp size)
    (hk : pages size ≤ c.dev.mram.freeFpList.length) (hfpn : FpnFits n)
    (hfree : ∀ fpn ∈ c.dev.mram.freeFpList, fpn < n) {g r : ℕ}
    (hr : heapFrame ((c.withHeap mmap symrgtbl).grown (vma.vmEnd / pagingPagesz) (pages size)).mm
      g = some r) :
    (g < vma.vmEnd / pagingPagesz ∧ heapFrame c.mm g = some r) ∨
      ∃ i, ∃ hi : i < (c.dev.mram.freeFpList.take (pages size)).reverse.length,
        g = vma.vmEnd / pagingPagesz + i ∧
          r = (c.dev.mram.freeFpList.take (pages size)).reverse[i] := by
  obtain ⟨hg, hr⟩ := heapFrame_eq_some.mp hr
  have hend : vma.vmEnd / pagingPagesz * pagingPagesz = vma.vmEnd := Nat.div_mul_cancel h.aligned
  have hg' : g * pagingPagesz < vma.vmEnd + roundUp size := by
    rw [← hend']
    exact hg
  by_cases hlt : g < vma.vmEnd / pagingPagesz
  · refine .inl ⟨hlt, heapFrame_eq_some.mpr ⟨?_, ?_⟩⟩
    · rw [h.heapEnd, ← hend]
      exact Nat.mul_lt_mul_of_pos_right hlt pagesz_pos
    · rw [← hr]
      exact congrArg pagingFpn (mapPages_of_lt _ _ hlt).symm
  · obtain ⟨i, rfl⟩ := Nat.exists_eq_add_of_le (not_lt.mp hlt)
    have hi : i < pages size := by
      rw [Nat.add_mul, hend, ← pages_mul] at hg'
      exact Nat.lt_of_mul_lt_mul_right (Nat.lt_of_add_lt_add_left hg')
    have hi' : i < (c.dev.mram.freeFpList.take (pages size)).reverse.length := by
      simpa using ⟨hi, lt_of_lt_of_le hi hk⟩
    refine .inr ⟨i, hi', rfl, ?_⟩
    rw [← hr]
    have hmem : (c.dev.mram.freeFpList.take (pages size)).reverse[i] ∈ c.dev.mram.freeFpList :=
      List.mem_of_mem_take (List.mem_reverse.mp (List.getElem_mem hi'))
    have hpgd : ((c.withHeap mmap symrgtbl).grown (vma.vmEnd / pagingPagesz) (pages size)).mm.pgd
        (vma.vmEnd / pagingPagesz + i) = pteSetFpn (c.mm.pgd (vma.vmEnd / pagingPagesz + i))
          (c.dev.mram.freeFpList.take (pages size)).reverse[i] := mapPages_get _ _ _ hi'
    rw [hpgd, PteLaws.pagingFpn_eq, pagingPteFpn_pteSetFpn hfpn (hfree _ hmem)]

/-- What the pages hold after an allocation: the old frames, and for the new pages the first
frames of the free list. -/
theorem AllocStep.heapFrame_cases {size n : ℕ} {st : ℤ} {c' : Ctx}
    (hs : AllocStep c vma size id st c') (h : HeapOk c.mm vma) (hfpn : FpnFits n)
    (hfree : ∀ fpn ∈ c.dev.mram.freeFpList, fpn < n) :
    ∃ k ≤ c.dev.mram.freeFpList.length, c'.dev.mram.freeFpList = c.dev.mram.freeFpList.drop k ∧
      ∀ g r, heapFrame c'.mm g = some r →
        ((g < vma.vmEnd / pagingPagesz ∨ vma.vmEnd / pagingPagesz + k ≤ g) ∧
          heapFrame c.mm g = some r) ∨
        ∃ i, ∃ hi : i < (c.dev.mram.freeFpList.take k).reverse.length,
          g = vma.vmEnd / pagingPagesz + i ∧ r = (c.dev.mram.freeFpList.take k).reverse[i] := by
  cases hs with
  | fit _ =>
      refine ⟨0, Nat.zero_le _, rfl, fun g r hr => .inl ⟨lt_or_ge _ _, ?_⟩⟩
      rw [heapFrame_eq_some] at hr ⊢
      rw [h.heapEnd]
      exact hr
  | grow _ hk =>
      refine ⟨pages size, hk, rfl, fun g r hr => ?_⟩
      rcases heapFrame_grown h rfl hk hfpn hfree hr with ⟨hg, hr⟩ | hnew
      · exact .inl ⟨.inl hg, hr⟩
      · exact .inr hnew
  | oom _ => exact ⟨0, Nat.zero_le _, rfl, fun g r hr => .inl ⟨lt_or_ge _ _, hr⟩⟩

/-! ### The simulation -/

/-- The memory system represents the plain memory. -/
structure PlainInv (n : ℕ) (s : Sys) (M : Plain) : Prop where
  heap : HeapSys n s
  rdmflg : s.dev.mram.rdmflg = true
  maxsz : (n * pagingPagesz : ℤ) ≤ s.dev.mram.maxsz
  maxsz_int : s.dev.mram.maxsz < 2 ^ 31
  unique : Unique s.dev.mram.freeFpList (s.own heapFrame)
  free_lt : ∀ fpn ∈ s.dev.mram.freeFpList, fpn < n
  own_lt : ∀ k fpn, s.own heapFrame k = some fpn → fpn < n
  live : ∀ p regIndex b, M p regIndex = some b → ∃ pr, s.procs p = some pr ∧
    regIndex < pagingMaxSymtblSz ∧
      (pr.mm.symrgtbl regIndex).rgEnd = (pr.mm.symrgtbl regIndex).rgStart + b.size
  data : ∀ p pr regIndex b offset w, s.procs p = some pr → M p regIndex = some b →
    offset < b.size → b.data offset = some w →
      s.dev.mram.storage (phys pr.mm ((pr.mm.symrgtbl regIndex).rgStart + offset)) = w

section simulation

variable {n m : ℕ} {s s' : Sys} {M : Plain} {p : ℕ} {pr : Process}

omit [PageLaws] [PteLaws] in
theorem PlainInv.bytes (h : PlainInv n s M) : n * pagingPagesz < 2 ^ 31 := by
  exact_mod_cast lt_of_le_of_lt h.maxsz h.maxsz_int

theorem AllocStep.unique {size : ℕ} {st : ℤ} {c' : Ctx}
    (hs : AllocStep (s.ctx pr) vma size id st c') (h : HeapOk pr.mm vma)
    (hp : s.procs p = some pr) (hfpn : FpnFits n) (hfree : ∀ fpn ∈ s.dev.mram.freeFpList, fpn < n)
    (hu : Unique s.dev.mram.freeFpList (s.own heapFrame)) :
    Unique c'.dev.mram.freeFpList ((s.commit p c').own heapFrame) ∧
      ∀ g r, heapFrame c'.mm g = some r → heapFrame pr.mm g = some r ∨ r < n := by
  obtain ⟨k, hk, hdrop, hcases⟩ := hs.heapFrame_cases h hfpn hfree
  refine ⟨?_, ?_⟩
  · rw [hdrop]
    refine unique_commit_grown hu hp hk ?_ ?_ (a := vma.vmEnd / pagingPagesz)
    · intro i hi r hr
      have hlen : i < k := by simpa [hk] using hi
      rcases hcases _ r hr with ⟨hout, _⟩ | ⟨j, hj, he, rfl⟩
      · omega
      · obtain rfl : i = j := by omega
        rfl
    · intro g hg r hr
      rcases hcases g r hr with ⟨_, hr⟩ | ⟨j, hj, rfl, _⟩
      · exact hr
      · have hlen : j < k := by simpa [hk] using hj
        omega
  · intro g r hr
    rcases hcases g r hr with ⟨_, hr⟩ | ⟨j, hj, _, rfl⟩
    · exact .inl hr
    · exact .inr (hfree _ (List.mem_of_mem_take (List.mem_reverse.mp (List.getElem_mem hj))))

omit [PageLaws] [PteLaws] in
theorem PlainInv.entry (h : PlainInv n s M) (hp : s.procs p = some pr) {regIndex : ℕ} {b : Block}
    (hb : M p regIndex = some b) : regIndex < pagingMaxSymtblSz ∧
      (pr.mm.symrgtbl regIndex).rgEnd = (pr.mm.symrgtbl regIndex).rgStart + b.size := by
  obtain ⟨pr', hp', hl⟩ := h.live p regIndex b hb
  obtain rfl := Option.some.inj (hp.symm.trans hp')
  exact hl

omit [PageLaws] [PteLaws] in
/-- The bytes of a region are bytes of the heap. -/
theorem PlainInv.addr_lt (h : PlainInv n s M) (hp : s.procs p = some pr) {regIndex : ℕ} {b : Block}
    (hb : M p regIndex = some b) (hoff : offset < b.size) :
    (pr.mm.symrgtbl regIndex).rgStart + offset < heapEnd pr.mm.mmap := by
  obtain ⟨hid, hsz⟩ := h.entry hp hb
  obtain ⟨vma, hok, _⟩ := h.heap.heap p pr hp
  have hlt := hok.live_le regIndex hid ((pr.mm.symrgtbl regIndex).rgStart + offset)
    ⟨Nat.le_add_right _ _, by omega⟩
  rwa [hok.sbrk, ← hok.heapEnd] at hlt

omit [PageLaws] [PteLaws] in
/-- The commit rule: what a call of `p` has to keep, for its own regions and for the bytes of the
other processes. -/
theorem PlainInv.commit {c : Ctx} {blocks : ℕ → Option Block} (h : PlainInv n s M)
    (hp : s.procs p = some pr) (hheap : HeapSys n (s.commit p c))
    (hrd : c.dev.mram.rdmflg = s.dev.mram.rdmflg) (hmax : c.dev.mram.maxsz = s.dev.mram.maxsz)
    (hu : Unique c.dev.mram.freeFpList ((s.commit p c).own heapFrame))
    (hfree : ∀ fpn ∈ c.dev.mram.freeFpList, fpn ∈ s.dev.mram.freeFpList)
    (hown : ∀ g r, heapFrame c.mm g = some r → heapFrame pr.mm g = some r ∨ r < n)
    (hlive : ∀ regIndex b, blocks regIndex = some b → regIndex < pagingMaxSymtblSz ∧
      (c.mm.symrgtbl regIndex).rgEnd = (c.mm.symrgtbl regIndex).rgStart + b.size)
    (hdata : ∀ regIndex b offset w, blocks regIndex = some b → offset < b.size →
      b.data offset = some w →
        c.dev.mram.storage (phys c.mm ((c.mm.symrgtbl regIndex).rgStart + offset)) = w)
    (hother : ∀ q qr, q ≠ p → s.procs q = some qr → ∀ a < heapEnd qr.mm.mmap,
      c.dev.mram.storage (phys qr.mm a) = s.dev.mram.storage (phys qr.mm a)) :
    PlainInv n (s.commit p c) (M.set p blocks) := by
  refine
    { heap := hheap
      rdmflg := hrd.trans h.rdmflg
      maxsz := le_trans h.maxsz hmax.ge
      maxsz_int := lt_of_le_of_lt hmax.le h.maxsz_int
      unique := hu
      free_lt := fun fpn hf => h.free_lt fpn (hfree fpn hf)
      own_lt := bound_commit h.own_lt hp hown
      live := ?_
      data := ?_ }
  · intro q regIndex b hb
    by_cases hne : q = p
    · subst hne
      rw [Plain.set_self] at hb
      exact ⟨⟨c.mm, c.activeMswpId⟩, by simp [Sys.commit], hlive regIndex b hb⟩
    · rw [Plain.set_of_ne M blocks hne] at hb
      obtain ⟨qr, hq, hl⟩ := h.live q regIndex b hb
      exact ⟨qr, by simp [Sys.commit, hne, hq], hl⟩
  · intro q qr regIndex b offset w hq hb hoff hw
    cases update_eq_some.mp hq with
    | inl hq =>
        obtain ⟨rfl, hv⟩ := hq
        obtain rfl := Option.some.inj hv
        rw [Plain.set_self] at hb
        exact hdata regIndex b offset w hb hoff hw
    | inr hq =>
        obtain ⟨hne, hq⟩ := hq
        rw [Plain.set_of_ne M blocks hne] at hb
        exact (hother q qr hne hq _ (h.addr_lt hq hb hoff)).trans
          (h.data q qr regIndex b offset w hq hb hoff hw)

/-! ### Each call keeps the simulation -/

theorem PlainInv.alloc {size : ℕ} {st : ℤ} {c' : Ctx} (h : PlainInv n s M)
    (hp : s.procs p = some pr) (hok : HeapOk pr.mm vma) (hid : id < pagingMaxSymtblSz)
    (hfpn : FpnFits n) (hs : AllocStep (s.ctx pr) vma size id st c')
    (hheap : HeapSys n (s.commit p c')) (val : Option ℕ) :
    PlainInv n (s.commit p c') (M.next (.call p (.alloc size id) st val)) := by
  obtain ⟨hst, hrd, hmax⟩ := hs.mram
  obtain ⟨hu, hown⟩ := hs.unique hok hp hfpn h.free_lt h.unique
  have hphys : ∀ a < heapEnd pr.mm.mmap, phys c'.mm a = phys pr.mm a := by
    intro a ha
    rw [hok.heapEnd] at ha
    exact phys_congr (fun g hg => hs.pgd_of_lt hok hg) ha
  have hkeep : ∀ regIndex b, M p regIndex = some b → c'.mm.symrgtbl regIndex =
      pr.mm.symrgtbl regIndex → (regIndex < pagingMaxSymtblSz ∧
        (c'.mm.symrgtbl regIndex).rgEnd = (c'.mm.symrgtbl regIndex).rgStart + b.size) ∧
      ∀ offset w, offset < b.size → b.data offset = some w →
        c'.dev.mram.storage (phys c'.mm ((c'.mm.symrgtbl regIndex).rgStart + offset)) = w := by
    intro regIndex b hb he
    rw [he]
    refine ⟨h.entry hp hb, fun offset w hoff hw => ?_⟩
    rw [hst, hphys _ (h.addr_lt hp hb hoff)]
    exact h.data p pr regIndex b offset w hp hb hoff hw
  have hother : ∀ q qr, q ≠ p → s.procs q = some qr → ∀ a < heapEnd qr.mm.mmap,
      c'.dev.mram.storage (phys qr.mm a) = s.dev.mram.storage (phys qr.mm a) :=
    fun _ _ _ _ _ _ => congrFun hst _
  rcases hs.result with ⟨rfl, hsz⟩ | ⟨rfl, rfl⟩
  · simp only [Plain.next, if_true]
    refine h.commit hp hheap hrd hmax hu hs.free_subset hown ?_ ?_ hother
    · intro regIndex b hb
      rcases update_eq_some.mp hb with ⟨rfl, hv⟩ | ⟨hne, hb⟩
      · obtain rfl := Option.some.inj hv
        exact ⟨hid, hsz⟩
      · exact (hkeep regIndex b hb (hs.symrgtbl_of_ne hne)).1
    · intro regIndex b offset w hb hoff hw
      rcases update_eq_some.mp hb with ⟨rfl, hv⟩ | ⟨hne, hb⟩
      · obtain rfl := Option.some.inj hv
        cases hw
      · exact (hkeep regIndex b hb (hs.symrgtbl_of_ne hne)).2 offset w hoff hw
  · have hM : M.next (.call p (.alloc size id) (-1) val) = M.set p (M p) := by
      simp [Plain.next, Plain.set_eq_self]
    rw [hM]
    exact h.commit hp hheap hrd hmax hu hs.free_subset hown
      (fun regIndex b hb => (hkeep regIndex b hb rfl).1)
      (fun regIndex b offset w hb => (hkeep regIndex b hb rfl).2 offset w) hother

omit [PageLaws] [PteLaws] in
theorem PlainInv.free {rg : VmRg} (h : PlainInv n s M)
    (hp : s.procs p = some pr) (hok : HeapOk pr.mm vma)
    (hheap : HeapSys n (s.commit p ((s.ctx pr).withHeap
      [{ vma with vmFreergList := freed pr.mm vma id }] (Function.update pr.mm.symrgtbl id rg))))
    (st : ℤ) (val : Option ℕ) :
    PlainInv n (s.commit p ((s.ctx pr).withHeap [{ vma with vmFreergList := freed pr.mm vma id }]
      (Function.update pr.mm.symrgtbl id rg))) (M.next (.call p (.free id) st val)) := by
  have hframe : ∀ g r, heapFrame ((s.ctx pr).withHeap
      [{ vma with vmFreergList := freed pr.mm vma id }]
        (Function.update pr.mm.symrgtbl id rg)).mm g = some r → heapFrame pr.mm g = some r := by
    intro g r hr
    rw [heapFrame_eq_some] at hr ⊢
    rw [hok.heapEnd]
    exact hr
  have hsym : ∀ regIndex b, Function.update (M p) id none regIndex = some b →
      M p regIndex = some b ∧
        Function.update pr.mm.symrgtbl id rg regIndex = pr.mm.symrgtbl regIndex := by
    intro regIndex b hb
    rcases update_eq_some.mp hb with ⟨_, hv⟩ | ⟨hne, hb⟩
    · cases hv
    · exact ⟨hb, Function.update_of_ne hne _ _⟩
  refine h.commit hp hheap rfl rfl (unique_commit h.unique hp hframe) (fun _ hf => hf)
    (fun g r hr => .inl (hframe g r hr)) ?_ ?_ (fun _ _ _ _ _ _ => rfl)
  · intro regIndex b hb
    obtain ⟨hb, he⟩ := hsym regIndex b hb
    simp only [Ctx.withHeap, he]
    exact h.entry hp hb
  · intro regIndex b offset w hb hoff hw
    obtain ⟨hb, he⟩ := hsym regIndex b hb
    simp only [Ctx.withHeap, he]
    exact h.data p pr regIndex b offset w hp hb hoff hw

omit [PageLaws] [PteLaws] in
theorem HeapOk.enlistPgnNode {mm : Mm} (h : HeapOk mm vma) (g : ℕ) :
    HeapOk (enlistPgnNode mm g) vma :=
  ⟨h.mmap, h.vmId, h.sbrk, h.aligned, h.free, h.free_le, h.live, h.live_le, h.live_free,
    h.live_live, h.mapped⟩

omit [PteLaws] in
theorem PlainInv.reach (h : PlainInv n s M) (hM : n ≤ pagingMaxPgn) (hp : s.procs p = some pr)
    (hok : HeapOk pr.mm vma) (hroom : Room n (s.ctx pr) vma) {b : Block} (hb : M p id = some b)
    (hoff : offset < b.size) :
    Reach (s.ctx pr) vma id offset ((pr.mm.symrgtbl id).rgStart + offset) := by
  obtain ⟨hid, hsz⟩ := h.entry hp hb
  have hlt := h.addr_lt hp hb hoff
  set a := (pr.mm.symrgtbl id).rgStart + offset
  have hn := h.bytes
  rw [hok.heapEnd] at hlt
  have hend : vma.vmEnd ≤ n * pagingPagesz := le_trans (Nat.le_add_right _ _) hroom
  have hfpn : pagingFpn (pr.mm.pgd (a / pagingPagesz)) < n := by
    refine h.own_lt (p, a / pagingPagesz) _ ?_
    rw [own_of_proc hp, heapFrame_of_lt]
    rw [hok.heapEnd]
    exact lt_of_le_of_lt (Nat.div_mul_le_self a _) hlt
  have hphys : phys pr.mm a < n * pagingPagesz := by
    have hmod := Nat.mod_lt a pagesz_pos
    have hmul := Nat.mul_le_mul_right pagingPagesz (Nat.succ_le_of_lt hfpn)
    unfold phys
    rw [Nat.succ_mul] at hmul
    omega
  refine
    { heap := hok
      id_lt := hid
      addr := rfl
      offset_lt := ?_
      max := lt_of_lt_of_le hlt (le_trans hend (Nat.mul_le_mul_right _ hM))
      int := by omega
      rdmflg := h.rdmflg
      maxsz := ?_
      maxsz_int := h.maxsz_int }
  · show a < (pr.mm.symrgtbl id).rgEnd
    omega
  · refine lt_of_lt_of_le ?_ h.maxsz
    exact_mod_cast hphys

theorem PlainInv.read (h : PlainInv n s M) (hM : n ≤ pagingMaxPgn) (hp : s.procs p = some pr)
    {b : Block} (hb : M p id = some b) (hoff : offset < b.size) (data₀ : Byte) :
    ∃ c, libread (s.ctx pr) id offset data₀ = .ok (0, byteToUint32 (s.dev.mram.storage
      (phys pr.mm ((pr.mm.symrgtbl id).rgStart + offset))), c) ∧ PlainInv n (s.commit p c) M := by
  obtain ⟨vma, hok, hroom⟩ := h.heap.heap p pr hp
  have hreach := h.reach hM hp hok hroom hb hoff
  refine ⟨_, hreach.libread h.heap.lock data₀, ?_⟩
  have hheap := h.heap.commit (p := p) (c := { s.ctx pr with
    mm := enlistPgnNode pr.mm (((pr.mm.symrgtbl id).rgStart + offset) / pagingPagesz) })
    h.heap.lock le_rfl (hok.enlistPgnNode _) hroom
  have hres := h.commit hp hheap rfl rfl (unique_commit h.unique hp fun _ _ hr => hr)
    (fun _ hf => hf) (fun _ _ hr => .inl hr) (fun regIndex b hb => h.entry hp hb)
    (fun regIndex b offset w hb => h.data p pr regIndex b offset w hp hb)
    (fun _ _ _ _ _ _ => rfl)
  rwa [Plain.set_eq_self] at hres

theorem PlainInv.write (h : PlainInv n s M) (hM : n ≤ pagingMaxPgn) (hp : s.procs p = some pr)
    {b : Block} (hb : M p id = some b) (hoff : offset < b.size) (data : Byte) (val : Option ℕ) :
    ∃ c, libwrite (s.ctx pr) data id offset = .ok (0, c) ∧
      PlainInv n (s.commit p c) (M.next (.call p (.write data id offset) 0 val)) := by
  obtain ⟨vma, hok, hroom⟩ := h.heap.heap p pr hp
  have hreach := h.reach hM hp hok hroom hb hoff
  have hlt := h.addr_lt hp hb hoff
  refine ⟨_, hreach.libwrite h.heap.lock data, ?_⟩
  have hheap := h.heap.commit (p := p) (c := ({ s.ctx pr with
    mm := enlistPgnNode pr.mm (((pr.mm.symrgtbl id).rgStart + offset) / pagingPagesz) } :
      Ctx).poke (phys pr.mm ((pr.mm.symrgtbl id).rgStart + offset)) data)
    h.heap.lock le_rfl (hok.enlistPgnNode _) hroom
  refine h.commit hp hheap rfl rfl (unique_commit h.unique hp fun _ _ hr => hr)
    (fun _ hf => hf) (fun _ _ hr => .inl hr) ?_ ?_ ?_
  · intro regIndex b' hb'
    rcases update_eq_some.mp hb' with ⟨rfl, hv⟩ | ⟨_, hb'⟩
    · rw [hb] at hv
      obtain rfl := Option.some.inj hv
      have hentry := h.entry hp hb
      exact hentry
    · exact h.entry hp hb'
  · intro regIndex b' off w hb' hoff' hw
    have hkeep : (pr.mm.symrgtbl regIndex).rgStart + off < heapEnd pr.mm.mmap →
        (pr.mm.symrgtbl regIndex).rgStart + off ≠ (pr.mm.symrgtbl id).rgStart + offset →
        Function.update s.dev.mram.storage (phys pr.mm ((pr.mm.symrgtbl id).rgStart + offset)) data
          (phys pr.mm ((pr.mm.symrgtbl regIndex).rgStart + off)) =
            s.dev.mram.storage (phys pr.mm ((pr.mm.symrgtbl regIndex).rgStart + off)) := by
      intro hlt' hne
      exact Function.update_of_ne (fun he => hne (phys_inj h.unique hp hp hlt' hlt he).2) _ _
    rcases update_eq_some.mp hb' with ⟨rfl, hv⟩ | ⟨hne, hb'⟩
    · rw [hb] at hv
      obtain rfl := Option.some.inj hv
      rcases update_eq_some.mp hw with ⟨rfl, hv'⟩ | ⟨hne, hw'⟩
      · obtain rfl := Option.some.inj hv'
        exact Function.update_self ..
      · exact (hkeep (h.addr_lt hp hb hoff') (by omega)).trans
          (h.data p pr _ b _ w hp hb hoff' hw')
    · refine (hkeep (h.addr_lt hp hb' hoff') ?_).trans (h.data p pr _ b' _ w hp hb' hoff' hw)
      intro he
      obtain ⟨hid', hsz'⟩ := h.entry hp hb'
      obtain ⟨hid, hsz⟩ := h.entry hp hb
      refine hok.live_live regIndex hid' id hid hne _ ⟨Nat.le_add_right _ off, by omega⟩ ?_
      rw [he]
      exact ⟨Nat.le_add_right _ _, by omega⟩
  · intro q qr hne hq a ha
    refine Function.update_of_ne (fun he => ?_) _ _
    exact hne (phys_inj h.unique hq hp ha hlt he).1

/-! ### The system -/

omit [PageLaws] [PteLaws] in
theorem Booted.plainInv (h : Booted n m s) : PlainInv n s Plain.empty where
  heap := h.heapSys
  rdmflg := h.ram_rdmflg
  maxsz := h.ram_maxsz
  maxsz_int := h.ram_int
  unique :=
    { nodup := by rw [h.ram]; exact List.nodup_range
      notMem := by simp [own_eq_some, h.procs]
      inj := by simp [own_eq_some, h.procs] }
  free_lt := by simp [h.ram]
  own_lt := by simp [own_eq_some, h.procs]
  live := by simp [Plain.empty]
  data := by simp [Plain.empty]

omit [PageLaws] [PteLaws] in
theorem PlainInv.update {x : Option Process} (h : PlainInv n s M)
    (hheap : HeapSys n { s with procs := Function.update s.procs p x })
    (hx : ∀ pr, x = some pr → heapEnd pr.mm.mmap = 0) :
    PlainInv n { s with procs := Function.update s.procs p x } (M.set p fun _ => none) := by
  have hframe : ∀ pr, x = some pr → ∀ g, heapFrame pr.mm g = none := by
    intro pr hpr g
    unfold heapFrame
    rw [hx pr hpr, if_neg (Nat.not_lt_zero _)]
  refine
    { heap := hheap
      rdmflg := h.rdmflg
      maxsz := h.maxsz
      maxsz_int := h.maxsz_int
      unique := unique_update h.unique hframe
      free_lt := h.free_lt
      own_lt := ?_
      live := ?_
      data := ?_ }
  · intro k fpn hk
    exact h.own_lt k fpn (own_of_update hframe k fpn hk)
  · intro q regIndex b hb
    by_cases hne : q = p
    · subst hne
      rw [Plain.set_self] at hb
      cases hb
    · rw [Plain.set_of_ne M _ hne] at hb
      obtain ⟨qr, hq, hl⟩ := h.live q regIndex b hb
      exact ⟨qr, update_of_ne hne hq, hl⟩
  · intro q qr regIndex b offset w hq hb
    cases update_eq_some.mp hq with
    | inl hq =>
        obtain ⟨rfl, _⟩ := hq
        rw [Plain.set_self] at hb
        cases hb
    | inr hq =>
        rw [Plain.set_of_ne M _ hq.1] at hb
        exact h.data q qr regIndex b offset w hq.2 hb

/-- What a call inside its contract does: it returns, keeps the simulation, and a read returns the
byte that plain memory holds. -/
theorem PlainInv.call (h : PlainInv n s M) (hM : n ≤ pagingMaxPgn) (hfpn : FpnFits n)
    (hp : s.procs p = some pr) (cl : Call)
    (hc : InContract (s, M) (.call p cl 0 none)) :
    ∃ st val c, (s.ctx pr).call cl = .ok (st, val, c) ∧
      PlainInv n (s.commit p c) (M.next (.call p cl st val)) ∧
        ∀ regIndex offset data₀ w, cl = .read regIndex offset data₀ →
          M.lastWrite p regIndex offset = some w → st = 0 ∧ val = some (byteToUint32 w) := by
  obtain ⟨vma, hok, hroom⟩ := h.heap.heap p pr hp
  have hn := h.bytes
  cases cl with
  | alloc size regIndex =>
      obtain ⟨hid, hsz⟩ := hc
      obtain ⟨st, c, he, hs⟩ := HeapOk.liballoc (c := s.ctx pr) hok h.heap.lock hroom hn hM hid hsz
      obtain ⟨vma', hok', hroom'⟩ := hs.heapOk hok hroom hn hid hsz
      have hheap := h.heap.commit (p := p) (hs.mmvmLock.trans h.heap.lock) hs.frames_le hok' hroom'
      refine ⟨st, none, c, by simp [Ctx.call, he], h.alloc hp hok hid hfpn hs hheap none, ?_⟩
      intro _ _ _ _ hcl
      cases hcl
  | free regIndex =>
      obtain ⟨st, rg, he, hempty, _⟩ := libfree_eq (c := s.ctx pr) hok.regions h.heap.lock hc
      have hheap := h.heap.commit (p := p) h.heap.lock le_rfl
        (HeapOk.freed (c := s.ctx pr) hok hc hempty) hroom
      refine ⟨st, none, _, by rw [Ctx.call, he]; rfl, h.free hp hok hheap st none, ?_⟩
      intro _ _ _ _ hcl
      cases hcl
  | read source offset data₀ =>
      obtain ⟨hid, b, hb, hoff⟩ := hc
      obtain ⟨c, he, h'⟩ := h.read hM hp hb hoff data₀
      refine ⟨0, _, c, by rw [Ctx.call, he]; rfl, h', ?_⟩
      intro regIndex off d w hcl hw
      cases hcl
      obtain ⟨b', hb', hw⟩ := Option.bind_eq_some_iff.mp hw
      obtain rfl := Option.some.inj (hb.symm.trans hb')
      rw [h.data p pr _ b _ w hp hb hoff hw]
      exact ⟨rfl, rfl⟩
  | write data destination offset =>
      obtain ⟨hid, b, hb, hoff⟩ := hc
      obtain ⟨c, he, h'⟩ := h.write hM hp hb hoff data none
      refine ⟨0, none, c, by rw [Ctx.call, he]; rfl, h', ?_⟩
      intro _ _ _ _ hcl
      cases hcl
  | memmap _ => exact absurd hc id

omit [PageLaws] [PteLaws] in
theorem InContract.of_call {x : Sys × Plain} {cl : Call} {st st' : ℤ} {val val' : Option ℕ}
    (h : InContract x (.call p cl st val)) : InContract x (.call p cl st' val') := by
  cases cl <;> exact h

theorem PlainInv.step (hM : n ≤ pagingMaxPgn) (hfpn : FpnFits n) (h : PlainInv n s M) {e : Event}
    (hs : MemStep s e s') (hc : InContract (s, M) e) : PlainInv n s' (M.next e) := by
  cases hs with
  | load mm₀ pgd₀ activeMswpId _ =>
      refine h.update (h.heap.load pgd₀ activeMswpId hc) ?_
      rintro pr hpr
      obtain rfl := Option.some.inj hpr
      rfl
  | release _ => exact h.update h.heap.release (by simp)
  | @call p pr cl st val c hp he =>
      obtain ⟨st', val', c', he', h', _⟩ := h.call hM hfpn hp cl hc.of_call
      rw [he, Except.ok.injEq, Prod.mk.injEq, Prod.mk.injEq] at he'
      obtain ⟨rfl, rfl, rfl⟩ := he'
      exact h'

end simulation

theorem PlainInv.of_run {n m : ℕ} (hM : n ≤ pagingMaxPgn) (hfpn : FpnFits n) {s₀ s : Sys}
    {M : Plain} {es : List Event} (h₀ : Booted n m s₀)
    (hr : plainLts.Run (s₀, Plain.empty) es (s, M)) : PlainInv n s M := by
  refine hr.invariant (I := fun x => PlainInv n x.1 x.2) ?_ h₀.plainInv
  rintro ⟨s, M⟩ e ⟨s', M'⟩ hI ⟨⟨hs, rfl⟩, hc⟩
  exact hI.step hM hfpn hs hc

/-- **Paged memory refines plain memory.**  In every state that any number of processes reach by
calls inside their contract, the next such call returns, and a read returns the byte of the last
write of its process to that offset since the region was allocated. -/
theorem paged_refines_plain {n m : ℕ} (hM : n ≤ pagingMaxPgn) (hfpn : FpnFits n) {s₀ s : Sys}
    {M : Plain} {es : List Event} (h₀ : Booted n m s₀)
    (hr : plainLts.Run (s₀, Plain.empty) es (s, M)) {p : ℕ} {pr : Process}
    (hp : s.procs p = some pr) (cl : Call) (hc : InContract (s, M) (.call p cl 0 none)) :
    ∃ st val c, (s.ctx pr).call cl = .ok (st, val, c) ∧
      ∀ regIndex offset data₀ w, cl = .read regIndex offset data₀ →
        M.lastWrite p regIndex offset = some w → st = 0 ∧ val = some (byteToUint32 w) := by
  have h := PlainInv.of_run hM hfpn h₀ hr
  obtain ⟨st, val, c, he, _, hread⟩ := h.call hM hfpn hp cl hc
  exact ⟨st, val, c, he, hread⟩

end

/-- Two processes write to the same region and offset, one of them twice. -/
def plainSample : List Event :=
  [loadBlank 0, loadBlank 1, .call 0 (.alloc 200 1) 0 none, .call 1 (.alloc 200 1) 0 none,
    .call 0 (.write 6 1 5) 0 none, .call 0 (.write 7 1 5) 0 none, .call 1 (.write 9 1 5) 0 none]

theorem paged_refines_plain_sample :
    ∃ s M pr c, (@plainLts header22).Run (boot22, Plain.empty) plainSample (s, M) ∧
      s.procs 0 = some pr ∧
        @Ctx.call header22 (s.ctx pr) (.read 1 5 0) = .ok (0, some (byteToUint32 7), c) := by
  let := header22
  let := header22_pageLaws
  let := header22_pteLaws
  have hsome : ((Lts.replay (Lts.guarded (Lts.nextGhost Sys.next fun _ M e => Plain.next M e)
      InContract) (boot22, Plain.empty) plainSample).any fun x => (x.1.procs 0).isSome ∧
        InContract x (.call 0 (.read 1 5 0) 0 none) ∧ x.2.lastWrite 0 1 5 = some 7) = true := by
    decide +kernel
  obtain ⟨⟨s, M⟩, hs, hx⟩ := (Option.any_eq_true _ _).mp hsome
  obtain ⟨hp, hc, hw⟩ := of_decide_eq_true hx
  obtain ⟨pr, hp⟩ := Option.isSome_iff_exists.mp hp
  have hrun : plainLts.Run (boot22, Plain.empty) plainSample (s, M) :=
    Lts.Run.of_replay_guarded (Lts.withGhost_of_nextGhost fun _ _ _ => memStep_of_next) hs
  obtain ⟨st, val, c, he, hread⟩ := paged_refines_plain (by decide) (by decide) booted_boot22 hrun
    hp (.read 1 5 0) hc
  obtain ⟨rfl, rfl⟩ := hread 1 5 0 7 rfl hw
  exact ⟨s, M, pr, c, hrun, hp, he⟩

end BtlOs
