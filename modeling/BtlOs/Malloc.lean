import BtlOs.Bounds
import BtlOs.Lib.TwoRuns

/-! # What `malloc` returned

`ld_routine` gives a process an `mm_struct` from `malloc`, and `init_mm` assigns one entry of its
symbol table and no entry of its page table.  `Twin` relates two processes that differ in what
was there before: they agree on the areas, on the entries of the regions that were allocated, and
on the pages that were mapped, which are those of `fifo_pgn`.

A call that reads no other entry of the two tables (`Initialised`) has the same outcome for twins
and leaves twins.  No page is replaced then, so a page that was mapped stays in its frame. -/

namespace BtlOs

open CLang Header

section

variable [Header]

/-- The memory maps agree on the symbol table entries `I` and on the pages of `fifo_pgn`. -/
structure Mm.Twin (I : List ℕ) (mm mm' : Mm) : Prop where
  mmap : mm'.mmap = mm.mmap
  fifoPgn : mm'.fifoPgn = mm.fifoPgn
  symrgtbl : ∀ id ∈ I, mm'.symrgtbl id = mm.symrgtbl id
  resident : ∀ g ∈ mm.fifoPgn, Resident (mm.pgd g) ∧ Resident (mm'.pgd g)
  fpn : ∀ g ∈ mm.fifoPgn, pagingPteFpn (mm'.pgd g) = pagingPteFpn (mm.pgd g)

/-- The field `active_mswp_id` of the two processes may differ. -/
structure Ctx.Twin (I : List ℕ) (c c' : Ctx) : Prop where
  mm : c.mm.Twin I c'.mm
  dev : c'.dev = c.dev
  mmvmLock : c'.mmvmLock = c.mmvmLock

/-- The same result, and twins. -/
def TwinResult (I : List ℕ) {α : Type} (x y : α × Ctx) : Prop :=
  y.1 = x.1 ∧ x.2.Twin I y.2

/-! ### Memory maps -/

namespace Mm.Twin

variable {I : List ℕ} {mm mm' : Mm} (h : mm.Twin I mm')

include h

theorem withMmap (mmap : List VmArea) :
    ({ mm with mmap } : Mm).Twin I { mm' with mmap } :=
  ⟨rfl, h.fifoPgn, h.symrgtbl, h.resident, h.fpn⟩

theorem getVmaByNum (vmaid : ℤ) : getVmaByNum mm' vmaid = getVmaByNum mm vmaid := by
  unfold BtlOs.getVmaByNum
  rw [h.mmap]

theorem area (p : Option ℕ) : mm'.area p = mm.area p := by
  unfold Mm.area
  rw [h.mmap]

theorem setArea (p : Option ℕ) (vma : VmArea) :
    (mm.setArea p vma).Twin I (mm'.setArea p vma) := by
  cases p with
  | none => exact h
  | some k =>
      unfold Mm.setArea
      dsimp only
      rw [h.mmap]
      exact h.withMmap _

theorem getVmAreaNodeAtBrk (vmaid size alignedsz : ℤ) :
    getVmAreaNodeAtBrk mm' vmaid size alignedsz = getVmAreaNodeAtBrk mm vmaid size alignedsz := by
  unfold BtlOs.getVmAreaNodeAtBrk
  simp only [h.getVmaByNum, h.area]

theorem validateOverlapVmArea (vmaid vmastart vmaend : ℤ) :
    validateOverlapVmArea mm' vmaid vmastart vmaend =
      validateOverlapVmArea mm vmaid vmastart vmaend := by
  unfold BtlOs.validateOverlapVmArea
  rw [h.mmap]

theorem enlistVmFreergList (rg : VmRg) : Both (fun x y => y.1 = x.1 ∧ x.2.Twin I y.2)
    (enlistVmFreergList mm rg) (enlistVmFreergList mm' rg) := by
  unfold BtlOs.enlistVmFreergList
  rw [h.mmap]
  split
  · exact .error
  · split_ifs
    · exact .ok ⟨rfl, h⟩
    · exact .ok ⟨rfl, h.withMmap _⟩

theorem getFreeVmrgArea (vmaid size : ℤ) : Both (fun x y => y.1 = x.1 ∧ x.2.Twin I y.2)
    (getFreeVmrgArea mm vmaid size) (getFreeVmrgArea mm' vmaid size) := by
  unfold BtlOs.getFreeVmrgArea
  rw [h.getVmaByNum]
  refine .bind_same fun curVma _ => ?_
  rw [h.area]
  refine .bind_same fun vma _ => ?_
  split
  · exact .ok ⟨rfl, h⟩
  · refine ((h.setArea curVma _).enlistVmFreergList _).bind ?_
    rintro ⟨_, mm₁⟩ ⟨_, mm₁'⟩ _ ⟨_, h₁⟩
    exact .ok ⟨rfl, h₁⟩

theorem symGet {rgid : ℤ} (hI : SymId rgid → rgid.toNat ∈ I) :
    mm'.symGet rgid = mm.symGet rgid := by
  unfold Mm.symGet
  by_cases hrg : 0 ≤ rgid ∧ rgid < pagingMaxSymtblSz
  · rw [require_pos hrg, h.symrgtbl _ (hI hrg)]
  · unfold require
    rw [if_neg hrg]
    rfl

theorem symSet (rgid : ℤ) (rg : VmRg) :
    Both (Mm.Twin (rgid.toNat :: I)) (mm.symSet rgid rg) (mm'.symSet rgid rg) := by
  unfold Mm.symSet
  refine .bind_same fun _ _ => .ok ⟨h.mmap, h.fifoPgn, fun id hid => ?_, h.resident, h.fpn⟩
  show Function.update mm'.symrgtbl rgid.toNat rg id = Function.update mm.symrgtbl rgid.toNat rg id
  by_cases he : id = rgid.toNat
  · subst he
    rw [Function.update_self, Function.update_self]
  · rw [Function.update_of_ne he, Function.update_of_ne he]
    exact h.symrgtbl id ((List.mem_cons.mp hid).resolve_left he)

theorem mono {J : List ℕ} (hJ : ∀ id ∈ J, id ∈ I) : mm.Twin J mm' :=
  ⟨h.mmap, h.fifoPgn, fun id hid => h.symrgtbl id (hJ id hid), h.resident, h.fpn⟩

theorem enlistPgnNode {g : ℕ} (hg : g ∈ mm.fifoPgn) :
    (enlistPgnNode mm g).Twin I (enlistPgnNode mm' g) := by
  have hmem : ∀ g' ∈ g :: mm.fifoPgn, g' ∈ mm.fifoPgn := by
    intro g' hg'
    cases List.mem_cons.mp hg' with
    | inl he => exact he ▸ hg
    | inr hg' => exact hg'
  exact ⟨h.mmap, congrArg (g :: ·) h.fifoPgn, h.symrgtbl,
    fun g' hg' => h.resident g' (hmem g' hg'), fun g' hg' => h.fpn g' (hmem g' hg')⟩

variable [PteLaws]

theorem residentFrame {g : ℕ} (hg : g ∈ mm.fifoPgn) :
    residentFrame mm' g = residentFrame mm g := by
  obtain ⟨hres, hres'⟩ := h.resident g hg
  unfold BtlOs.residentFrame
  rw [frameOf_of_resident hres, frameOf_of_resident hres', PteLaws.pagingFpn_eq,
    PteLaws.pagingFpn_eq, h.fpn g hg]

theorem mapPage (g fpn : ℕ) :
    (BtlOs.enlistPgnNode
      { mm with pgd := Function.update mm.pgd g (pteSetFpn (mm.pgd g) fpn) } g).Twin I
    (BtlOs.enlistPgnNode
      { mm' with pgd := Function.update mm'.pgd g (pteSetFpn (mm'.pgd g) fpn) } g) := by
  refine ⟨h.mmap, congrArg (g :: ·) h.fifoPgn, h.symrgtbl, fun g' hg' => ?_, fun g' hg' => ?_⟩
  · show Resident (Function.update mm.pgd g _ g') ∧ Resident (Function.update mm'.pgd g _ g')
    by_cases he : g' = g
    · subst he
      rw [Function.update_self, Function.update_self]
      exact ⟨resident_pteSetFpn _ _, resident_pteSetFpn _ _⟩
    · rw [Function.update_of_ne he, Function.update_of_ne he]
      exact h.resident g' ((List.mem_cons.mp hg').resolve_left he)
  · show pagingPteFpn (Function.update mm'.pgd g _ g') =
      pagingPteFpn (Function.update mm.pgd g _ g')
    by_cases he : g' = g
    · subst he
      rw [Function.update_self, Function.update_self, pagingPteFpn_pteSetFpn_mod,
        pagingPteFpn_pteSetFpn_mod]
    · rw [Function.update_of_ne he, Function.update_of_ne he]
      exact h.fpn g' ((List.mem_cons.mp hg').resolve_left he)

omit h in
theorem vmapPages : ∀ (n currPgn : ℕ) (frames : List ℕ) {mm mm' : Mm}, mm.Twin I mm' →
    Both (fun x y => y.1 = x.1 ∧ x.2.Twin I y.2) (vmapPages n currPgn frames mm)
      (vmapPages n currPgn frames mm')
  | 0, _, _, _, _, h => .ok ⟨rfl, h⟩
  | _ + 1, _, [], _, _, h => .ok ⟨rfl, h⟩
  | n + 1, currPgn, fpn :: fpNext, mm, mm', h => by
      unfold BtlOs.vmapPages Mm.pgdGet Mm.pgdSet
      by_cases hpgn : currPgn < pagingMaxPgn
      · simp only [require_pos hpgn, ok_bind]
        exact vmapPages n (currPgn + 1) fpNext (h.mapPage currPgn fpn)
      · unfold require
        rw [if_neg hpgn]
        exact .error

end Mm.Twin

/-! ### Calls -/

namespace Ctx.Twin

variable {I : List ℕ} {c c' : Ctx} (h : c.Twin I c')

include h

theorem withMm {J : List ℕ} {mm mm' : Mm} (hmm : mm.Twin J mm') :
    ({ c with mm } : Ctx).Twin J { c' with mm := mm' } :=
  ⟨hmm, h.dev, h.mmvmLock⟩

theorem unlock : c.unlock.Twin I c'.unlock := ⟨h.mm, h.dev, rfl⟩

theorem lock : Both (Ctx.Twin I) c.lock c'.lock := by
  unfold Ctx.lock
  rw [h.mmvmLock]
  split_ifs
  · exact .error
  · exact .ok ⟨h.mm, h.dev, rfl⟩

theorem pgGetpage [PteLaws] {g : ℕ} (hg : g ∈ c.mm.fifoPgn) :
    Both (TwinResult I) (pgGetpage c g) (pgGetpage c' g) := by
  obtain ⟨hres, hres'⟩ := h.mm.resident g hg
  unfold BtlOs.pgGetpage Mm.pgdGet
  by_cases hlt : g < pagingMaxPgn
  · simp only [require_pos hlt, ok_bind, if_pos hres.1, if_pos hres'.1]
    unfold pgReturn Mm.pgdGet
    simp only [require_pos hlt, ok_bind]
    refine .ok ⟨?_, h.withMm (h.mm.enlistPgnNode hg)⟩
    show some (pagingFpn (c'.mm.pgd g)) = some (pagingFpn (c.mm.pgd g))
    rw [PteLaws.pagingFpn_eq, PteLaws.pagingFpn_eq, h.mm.fpn g hg]
  · unfold require
    rw [if_neg hlt]
    exact .error

theorem pgGetval [PteLaws] {addr : ℤ} (hg : pagingPgn addr ∈ c.mm.fifoPgn) :
    Both (TwinResult I) (pgGetval c addr) (pgGetval c' addr) := by
  unfold BtlOs.pgGetval
  refine (h.pgGetpage hg).bind ?_
  rintro ⟨fpn, c₁⟩ ⟨fpn', c₁'⟩ _ ⟨he, (h₁ : c₁.Twin I c₁')⟩
  obtain rfl : fpn' = fpn := he
  cases fpn' with
  | none => exact .ok ⟨rfl, h₁⟩
  | some fpn =>
      simp only [sysMemmap_ioRead, h₁.dev]
      refine Both.bind (R := fun x y => y.1 = x.1 ∧ y.2.1 = x.2.1 ∧ x.2.2.Twin I y.2.2) ?_ ?_
      · refine .bind_same fun ⟨value, mram⟩ _ => ?_
        cases value with
        | none => exact .ok ⟨rfl, rfl, h₁.mm, rfl, h₁.mmvmLock⟩
        | some value => exact .ok ⟨rfl, rfl, h₁.mm, rfl, h₁.mmvmLock⟩
      · rintro ⟨st, regs, c₂⟩ ⟨st', regs', c₂'⟩ _ ⟨rfl, rfl, h₂⟩
        dsimp only
        split_ifs
        · exact .ok ⟨rfl, h₂⟩
        · exact .ok ⟨rfl, h₂⟩

theorem pgSetval [PteLaws] {addr : ℤ} (hg : pagingPgn addr ∈ c.mm.fifoPgn) (value : Byte) :
    Both (TwinResult I) (pgSetval c addr value) (pgSetval c' addr value) := by
  unfold BtlOs.pgSetval
  refine (h.pgGetpage hg).bind ?_
  rintro ⟨fpn, c₁⟩ ⟨fpn', c₁'⟩ _ ⟨he, (h₁ : c₁.Twin I c₁')⟩
  obtain rfl : fpn' = fpn := he
  cases fpn' with
  | none => exact .ok ⟨rfl, h₁⟩
  | some fpn =>
      simp only [sysMemmap_ioWrite, h₁.dev]
      refine Both.bind (R := fun x y => y.1 = x.1 ∧ x.2.2.Twin I y.2.2) ?_ ?_
      · refine .bind_same fun ⟨st, mram⟩ _ => ?_
        exact .ok ⟨rfl, h₁.mm, rfl, h₁.mmvmLock⟩
      · rintro ⟨st, regs, c₂⟩ ⟨st', regs', c₂'⟩ _ ⟨rfl, h₂⟩
        dsimp only
        split_ifs
        · exact .ok ⟨rfl, h₂⟩
        · exact .ok ⟨rfl, h₂⟩

variable {rgid : ℤ}

theorem read [PteLaws] {offset : ℤ} (hI : SymId rgid → rgid.toNat ∈ I)
    (hg : SymId rgid → pagingPgn (rgAddr (c.mm.symrgtbl rgid.toNat) offset) ∈ c.mm.fifoPgn) :
    Both (fun x y => y.1 = x.1 ∧ y.2.1 = x.2.1 ∧ x.2.2.Twin I y.2.2) (read c 0 rgid offset)
      (read c' 0 rgid offset) := by
  unfold BtlOs.read
  apply h.lock.bind
  intro c₁ c₁' hl h₁
  obtain ⟨_, rfl⟩ := Ctx.lock_ok hl
  rw [h₁.mm.getVmaByNum]
  refine .bind_same fun curVma _ => ?_
  split
  · rename_i currg _ hsym _
    obtain rfl := getSymrgByid_eq_some hsym
    rw [h₁.mm.symGet hI]
    refine .bind_same fun rg hrg => ?_
    obtain ⟨hid, rfl⟩ := Mm.symGet_eq_ok.mp hrg
    refine (h₁.pgGetval (hg hid)).bind ?_
    rintro ⟨data, c₂⟩ ⟨data', c₂'⟩ _ ⟨rfl, h₂⟩
    exact .ok ⟨rfl, rfl, h₂.unlock⟩
  · exact .ok ⟨rfl, rfl, h₁⟩

theorem write [PteLaws] {offset : ℤ} (hI : SymId rgid → rgid.toNat ∈ I)
    (hg : SymId rgid → pagingPgn (rgAddr (c.mm.symrgtbl rgid.toNat) offset) ∈ c.mm.fifoPgn)
    (value : Byte) :
    Both (TwinResult I) (write c 0 rgid offset value) (write c' 0 rgid offset value) := by
  unfold BtlOs.write
  apply h.lock.bind
  intro c₁ c₁' hl h₁
  obtain ⟨_, rfl⟩ := Ctx.lock_ok hl
  rw [h₁.mm.getVmaByNum]
  refine .bind_same fun curVma _ => ?_
  split
  · rename_i currg _ hsym _
    obtain rfl := getSymrgByid_eq_some hsym
    rw [h₁.mm.symGet hI]
    refine .bind_same fun rg hrg => ?_
    obtain ⟨hid, rfl⟩ := Mm.symGet_eq_ok.mp hrg
    refine (h₁.pgSetval (hg hid) value).bind ?_
    rintro ⟨st, c₂⟩ ⟨st', c₂'⟩ _ ⟨_, h₂⟩
    exact .ok ⟨rfl, h₂.unlock⟩
  · exact .ok ⟨rfl, h₁⟩

theorem free (hI : SymId rgid → rgid.toNat ∈ I) :
    Both (TwinResult I) (free c rgid) (free c' rgid) := by
  unfold BtlOs.free
  apply h.lock.bind
  intro c₁ c₁' _ h₁
  split_ifs
  · exact .ok ⟨rfl, h₁.unlock⟩
  · rw [h₁.mm.symGet hI, h₁.mm.mmap]
    refine .bind_same fun rg hrg => ?_
    obtain ⟨hid, _⟩ := Mm.symGet_eq_ok.mp hrg
    split
    · exact .error
    · refine ((h₁.mm.withMmap _).enlistVmFreergList _).bind ?_
      rintro ⟨st, mm⟩ ⟨st', mm'⟩ _ ⟨rfl, hmm⟩
      dsimp only
      split_ifs
      · exact .ok ⟨rfl, (h₁.withMm hmm).unlock⟩
      · apply (hmm.symSet rgid _).bind
        intro mm₁ mm₁' _ hmm₁
        refine .ok ⟨rfl, (h₁.withMm (hmm₁.mono fun id hid' => ?_)).unlock⟩
        exact List.mem_cons_of_mem _ hid'

variable [PteLaws]

theorem vmMapRam (mapstart incpgnum : ℤ) :
    Both (fun x y => y.1 = x.1 ∧ x.2.2.Twin I y.2.2) (vmMapRam c mapstart incpgnum)
      (vmMapRam c' mapstart incpgnum) := by
  unfold BtlOs.vmMapRam
  rw [h.dev]
  rcases allocPagesRange incpgnum.toNat [] c.dev.mram with ⟨_ | frmLst, mram⟩
  · exact .ok ⟨rfl, h.mm, rfl, h.mmvmLock⟩
  · unfold vmapPageRange
    refine Both.bind (R := fun x y => x.2.2.Twin I y.2.2) ?_ ?_
    · refine (Mm.Twin.vmapPages _ _ frmLst h.mm).bind ?_
      rintro ⟨st, mm⟩ ⟨st', mm'⟩ _ ⟨_, hmm⟩
      exact .ok hmm
    · rintro ⟨st, rg, mm⟩ ⟨st', rg', mm'⟩ _ hmm
      exact .ok ⟨rfl, hmm, rfl, h.mmvmLock⟩

theorem incVmaLimit (vmaid incSz : ℤ) :
    Both (TwinResult I) (incVmaLimit c vmaid incSz) (incVmaLimit c' vmaid incSz) := by
  unfold BtlOs.incVmaLimit
  dsimp only
  rw [h.mm.getVmAreaNodeAtBrk, h.mm.getVmaByNum]
  refine .bind_same fun region _ => .bind_same fun curVma _ => ?_
  cases region with
  | none => exact .ok ⟨rfl, h⟩
  | some region =>
      rw [h.mm.area]
      refine .bind_same fun vma _ => ?_
      rw [h.mm.validateOverlapVmArea]
      split_ifs
      · exact .ok ⟨rfl, h⟩
      · refine ((h.withMm (h.mm.setArea curVma _)).vmMapRam _ _).bind ?_
        rintro ⟨st, _, c₁⟩ ⟨st', _, c₁'⟩ _ ⟨rfl, h₁⟩
        exact .ok ⟨rfl, h₁⟩

theorem alloc (vmaid rgid size : ℤ) :
    Both (fun x y => y.1 = x.1 ∧ x.2.Twin (if x.1 = none then I else rgid.toNat :: I) y.2)
      (alloc c vmaid rgid size) (alloc c' vmaid rgid size) := by
  unfold BtlOs.alloc
  apply h.lock.bind
  intro c₁ c₁' _ h₁
  refine (h₁.mm.getFreeVmrgArea vmaid size).bind ?_
  rintro ⟨rgnode, mm⟩ ⟨rgnode', mm'⟩ _ ⟨he, (hmm : mm.Twin I mm')⟩
  obtain rfl : rgnode' = rgnode := he
  cases rgnode' with
  | some rgnode =>
      apply (hmm.symSet rgid rgnode).bind
      intro mm₁ mm₁' _ hmm₁
      exact .ok ⟨rfl, (h₁.withMm hmm₁).unlock⟩
  | none =>
      have h₂ := h₁.withMm hmm
      dsimp only
      rw [hmm.getVmaByNum]
      refine .bind_same fun curVma _ => ?_
      split_ifs
      · exact .ok ⟨rfl, h₂.unlock⟩
      · rw [hmm.area]
        refine .bind_same fun vma _ => ?_
        simp only [sysMemmap_inc]
        refine Both.bind (R := fun x y => y.1 = x.1 ∧ x.2.2.Twin I y.2.2) ?_ ?_
        · refine (h₂.incVmaLimit _ _).bind ?_
          rintro ⟨st, c₃⟩ ⟨st', c₃'⟩ _ ⟨he, h₃⟩
          exact .ok ⟨he, h₃⟩
        · rintro ⟨st, _, c₃⟩ ⟨st', _, c₃'⟩ _ ⟨he, (h₃ : c₃.Twin I c₃')⟩
          obtain rfl : st' = st := he
          dsimp only
          rw [h₃.mm.area]
          refine .bind_same fun vma' _ => ?_
          split_ifs
          · exact .ok ⟨rfl, (h₃.withMm (h₃.mm.setArea curVma _)).unlock⟩
          · apply (h₃.mm.symSet rgid _).bind
            intro mm₁ mm₁' _ hmm₁
            refine (hmm₁.enlistVmFreergList _).bind ?_
            rintro ⟨_, mm₂⟩ ⟨_, mm₂'⟩ _ ⟨_, hmm₂⟩
            exact .ok ⟨rfl, (h₃.withMm hmm₂).unlock⟩

end Ctx.Twin

/-! ### What a call may read -/

/-- The pages by which an increase of the area moves its end are pages that the increase maps.
Where there are too few frames the old end, an `int`, is put back. -/
def Ctx.AddsMapped (c : Ctx) (size : ℤ) : Prop :=
  ∀ vma ∈ c.mm.mmap, ∀ x ∈ c.newPages size,
    if x.2 ≤ c.dev.mram.freeFpList.length then
      x.1 * pagingPagesz ≤ vma.vmEnd ∧
        ulong (vma.vmEnd + pagingPageAlignsz size) ≤ (x.1 + x.2) * pagingPagesz
    else ulong (int32 vma.vmEnd) ≤ vma.vmEnd

/-- The entry of a region that the call reads is one of `I`, and the page that it accesses was
mapped. -/
def Initialised (c : Ctx) (I : List ℕ) : Call → Prop
  | .alloc size _ => c.AddsMapped (int32 size)
  | .free regIndex => SymId (int32 regIndex) → (int32 regIndex).toNat ∈ I
  | .read source offset _ => SymId (int32 source) →
      (int32 source).toNat ∈ I ∧ pagingPgn (c.addr source offset) ∈ c.mm.fifoPgn
  | .write _ destination offset => SymId (int32 destination) →
      (int32 destination).toNat ∈ I ∧ pagingPgn (c.addr destination offset) ∈ c.mm.fifoPgn
  | .memmap _ => False

/-- The regions with an entry that a call of the process has written. -/
def initialise (I : List ℕ) : Call → ℤ → List ℕ
  | .alloc _ regIndex, st => if st = 0 then (int32 regIndex).toNat :: I else I
  | .free _, _ => I
  | .read _ _ _, _ => I
  | .write _ _ _, _ => I
  | .memmap _, _ => I

variable {I : List ℕ} {c c' : Ctx} {cl : Call}

/-- **Twins stay twins**, and the process cannot tell which one it is. -/
theorem Ctx.Twin.call [PteLaws] (h : c.Twin I c') (hin : Initialised c I cl) :
    Both (fun x y => y.1 = x.1 ∧ y.2.1 = x.2.1 ∧ x.2.2.Twin (initialise I cl x.1) y.2.2)
      (c.call cl) (c'.call cl) := by
  cases cl with
  | alloc size regIndex =>
      refine Both.bind (R := fun x y => y.1 = x.1 ∧
        x.2.Twin (if x.1 = 0 then (int32 regIndex).toNat :: I else I) y.2) ?_ ?_
      · refine (h.alloc 0 (int32 regIndex) (int32 size)).bind ?_
        rintro ⟨addr, c₁⟩ ⟨addr', c₁'⟩ _ ⟨he, h₁⟩
        obtain rfl : addr' = addr := he
        cases addr' with
        | none => exact .ok ⟨rfl, h₁⟩
        | some addr => exact .ok ⟨rfl, h₁⟩
      · rintro ⟨st, c₁⟩ ⟨st', c₁'⟩ _ ⟨he, h₁⟩
        exact .ok ⟨he, rfl, h₁⟩
  | free regIndex =>
      refine (h.free hin).bind ?_
      rintro ⟨st, c₁⟩ ⟨st', c₁'⟩ _ ⟨he, h₁⟩
      exact .ok ⟨he, rfl, h₁⟩
  | read source offset data₀ =>
      refine Both.bind (R := fun x y => y.1 = x.1 ∧ y.2.1 = x.2.1 ∧ x.2.2.Twin I y.2.2) ?_ ?_
      · refine (h.read (fun hid => (hin hid).1) fun hid => (hin hid).2).bind ?_
        rintro ⟨st, data, c₁⟩ ⟨st', data', c₁'⟩ _ ⟨he, hdata, h₁⟩
        obtain rfl : data' = data := hdata
        exact .ok ⟨he, rfl, h₁⟩
      · rintro ⟨st, val, c₁⟩ ⟨st', val', c₁'⟩ _ ⟨he, hval, h₁⟩
        exact .ok ⟨he, congrArg some hval, h₁⟩
  | write data destination offset =>
      refine (h.write (fun hid => (hin hid).1) (fun hid => (hin hid).2) data).bind ?_
      rintro ⟨st, c₁⟩ ⟨st', c₁'⟩ _ ⟨he, h₁⟩
      exact .ok ⟨he, rfl, h₁⟩
  | memmap regs => exact absurd hin id

/-! ### Pages below the end of the area -/

/-- Every page below the end of the only area was mapped. -/
def AllMapped (mm : Mm) : Prop :=
  ∃ vma, mm.mmap = [vma] ∧ vma.vmId = 0 ∧ ∀ g, g * pagingPagesz < vma.vmEnd → g ∈ mm.fifoPgn

variable {vma : VmArea} {size st : ℤ}

theorem AllMapped.alloc {rgid : ℤ} {r : Option ℤ} (h : AllMapped c.mm)
    (hc : c.AddsMapped (int32 size)) (he : alloc c 0 rgid (int32 size) = .ok (r, c')) :
    AllMapped c'.mm := by
  obtain ⟨vma, hm, hid, hmapped⟩ := h
  obtain ⟨_, hend⟩ := allocEnd_of_ok hm hid he
  cases hend with
  | fit _ => exact ⟨_, rfl, hid, hmapped⟩
  | oom hnew hk =>
      have hback := hc vma (by simp [hm]) _ hnew
      rw [if_neg (Nat.not_le_of_lt hk)] at hback
      refine ⟨_, rfl, hid, fun g hg => hmapped g ?_⟩
      dsimp only at hg
      exact lt_of_lt_of_le hg hback
  | @grow a k _ _ _ hnew hk =>
      have hadds := hc vma (by simp [hm]) _ hnew
      rw [if_pos hk] at hadds
      obtain ⟨hle, hend⟩ := hadds
      refine ⟨_, rfl, hid, fun g hg => ?_⟩
      change g * pagingPagesz < ulong (vma.vmEnd + pagingPageAlignsz (int32 size)) at hg
      dsimp only at hle hend
      have hlen : (c.dev.mram.freeFpList.take k).reverse.length = k := by simpa using hk
      show g ∈ (List.range' a (c.dev.mram.freeFpList.take k).reverse.length).reverse ++
        c.mm.fifoPgn
      rw [hlen]
      apply List.mem_append.mpr
      by_cases hold : g * pagingPagesz < vma.vmEnd
      · exact .inr (hmapped g hold)
      · refine .inl (List.mem_reverse.mpr (List.mem_range'_1.mpr ⟨?_, ?_⟩))
        · have hpos : 0 < pagingPagesz := by
            by_contra hzero
            obtain hzero : pagingPagesz = 0 := by omega
            rw [hzero] at hg hend
            omega
          exact Nat.le_of_mul_le_mul_right (by omega) hpos
        · exact Nat.lt_of_mul_lt_mul_right (lt_of_lt_of_le hg hend)

/-- A release leaves the area where it is. -/
theorem AllMapped.free {rgid : ℤ} (h : AllMapped c.mm) (he : free c rgid = .ok (st, c')) :
    AllMapped c'.mm := by
  obtain ⟨vma, hm, hid, hmapped⟩ := h
  unfold BtlOs.free at he
  obtain ⟨c₁, hl, he⟩ := bind_eq_ok.mp he
  obtain ⟨_, rfl⟩ := Ctx.lock_ok hl
  split_ifs at he
  · obtain ⟨_, rfl⟩ := Prod.mk.inj (Except.ok.inj he)
    exact ⟨vma, hm, hid, hmapped⟩
  · obtain ⟨rg, _, he⟩ := bind_eq_ok.mp he
    dsimp only at he
    rw [hm] at he
    dsimp only at he
    obtain ⟨⟨st', mm⟩, henl, he⟩ := bind_eq_ok.mp he
    rw [enlistVmFreergList_eq rfl] at henl
    obtain ⟨_, rfl⟩ := Prod.mk.inj (Except.ok.inj henl)
    dsimp only at he
    split_ifs at he
    · obtain ⟨_, rfl⟩ := Prod.mk.inj (Except.ok.inj he)
      exact ⟨_, rfl, hid, hmapped⟩
    · simp only [bind_eq_ok, Mm.symSet_eq_ok, Except.ok.injEq, Prod.mk.injEq] at he
      obtain ⟨_, ⟨_, rfl⟩, _, rfl⟩ := he
      exact ⟨_, rfl, hid, hmapped⟩

theorem AllMapped.page {g : ℕ} {r : Option ℕ} (h : AllMapped c.mm) (hs : PageStep c g r c')
    (hp : pagingPagePresent (c.mm.pgd g) = true) : AllMapped c'.mm := by
  obtain ⟨vma, hm, hid, hmapped⟩ := h
  cases hs with
  | hit _ => exact ⟨vma, hm, hid, fun g' hg' => List.mem_cons_of_mem g (hmapped g' hg')⟩
  | full hnot _ _ =>
      rw [hp] at hnot
      cases hnot
  | evict hnot _ _ _ _ =>
      rw [hp] at hnot
      cases hnot

theorem AllMapped.call {val : Option ℕ} (h : AllMapped c.mm) (hin : Initialised c I cl)
    (hres : ∀ g ∈ c.mm.fifoPgn, Resident (c.mm.pgd g)) (he : c.call cl = .ok (st, val, c')) :
    AllMapped c'.mm := by
  cases cl with
  | alloc size regIndex =>
      obtain ⟨_, ha, _⟩ := Ctx.call_alloc_ok he
      exact h.alloc hin ha
  | free regIndex =>
      exact h.free (Ctx.call_free_ok he)
  | read source offset data₀ =>
      obtain ⟨_, hr⟩ := Ctx.call_read_ok he
      rcases read_ok hr with ⟨_, ⟨_, _, rfl⟩ | ⟨_, hid, r, hs, _⟩⟩
      · exact h
      · exact h.page hs (hres _ (hin hid).2).1
  | write data destination offset =>
      rcases write_ok (Ctx.call_write_ok he) with ⟨_, ⟨_, rfl⟩ | ⟨_, hid, r, c₁, hs, hpoke⟩⟩
      · exact h
      · have hc₁ := h.page hs (hres _ (hin hid).2).1
        rcases hpoke with rfl | ⟨_, _, _, rfl⟩
        · exact hc₁
        · exact hc₁
  | memmap regs => exact absurd hin id

/-! ### Two systems -/

/-- The process `p` of the two systems is a twin. -/
structure Sys.Twin (p : ℕ) (I : List ℕ) (s s' : Sys) (pr pr' : Process) : Prop where
  proc : s.procs p = some pr
  proc' : s'.procs p = some pr'
  ctx : (s.ctx pr).Twin I (s'.ctx pr')
  mapped : AllMapped pr.mm

/-- The steps are calls of process `p` that read nothing that `malloc` returned. -/
def OwnCalls (p : ℕ) (x : Sys × List ℕ) : Event → Prop
  | .call q cl _ _ => q = p ∧ ∀ pr ∈ x.1.procs p, Initialised (x.1.ctx pr) x.2 cl
  | .load _ _ _ _ => False
  | .release _ => False

def initialiseEvent (_ : Sys) (I : List ℕ) : Event → List ℕ
  | .call _ cl st _ => initialise I cl st
  | .load _ _ _ _ => I
  | .release _ => I

theorem twin_initMm (mm₀ mm₀' : Mm) (pgd₀ pgd₀' : ℕ → Pte) :
    (initMm mm₀ pgd₀).Twin [0] (initMm mm₀' pgd₀') := by
  refine ⟨rfl, rfl, fun id hid => ?_, fun g hg => absurd hg List.not_mem_nil,
    fun g hg => absurd hg List.not_mem_nil⟩
  obtain rfl := List.mem_singleton.mp hid
  show Function.update mm₀'.symrgtbl 0 ⟨0, 0⟩ 0 = Function.update mm₀.symrgtbl 0 ⟨0, 0⟩ 0
  rw [Function.update_self, Function.update_self]

/-- The step lemma: the other system can make the same step, with the same result. -/
theorem Sys.Twin.step [PteLaws] {p : ℕ} {s s' t : Sys} {pr pr' : Process} {e : Event}
    (h : Sys.Twin p I s s' pr pr') (hs : MemStep s e t) (hin : OwnCalls p (s, I) e) :
    ∃ t' qr qr', MemStep s' e t' ∧ Sys.Twin p (initialiseEvent s I e) t t' qr qr' := by
  cases hs with
  | load _ _ _ _ => exact absurd hin id
  | release _ => exact absurd hin id
  | @call q qr cl st val c hp hc =>
      obtain ⟨rfl, hin⟩ := hin
      obtain rfl := Option.some.inj (h.proc.symm.trans hp)
      have hcl := hin pr hp
      obtain ⟨⟨st', val', c'⟩, hc', he, hval, htwin⟩ := (h.ctx.call hcl).of_ok hc
      obtain rfl : st' = st := he
      obtain rfl : val' = val := hval
      have hmapped : AllMapped c.mm :=
        AllMapped.call (c := s.ctx pr) h.mapped hcl (fun g hg => (h.ctx.mm.resident g hg).1) hc
      refine ⟨s'.commit q c', ⟨c.mm, c.activeMswpId⟩, ⟨c'.mm, c'.activeMswpId⟩, .call h.proc' hc',
        Function.update_self _ _ _, Function.update_self _ _ _, ?_, hmapped⟩
      exact ⟨htwin.mm, htwin.dev, htwin.mmvmLock⟩

theorem Sys.Twin.run [PteLaws] {p : ℕ} {s s' t : Sys} {I₀ : List ℕ} {pr pr' : Process}
    {es : List Event} (h : Sys.Twin p I₀ s s' pr pr')
    (hr : ((memLts.withGhost initialiseEvent).restrict (OwnCalls p)).Run (s, I₀) es (t, I)) :
    ∃ t' qr qr', memLts.Run s' es t' ∧ Sys.Twin p I t t' qr qr' := by
  generalize hx : (t, I) = x at hr
  induction hr generalizing t I with
  | nil =>
      obtain ⟨rfl, rfl⟩ := Prod.mk.inj hx
      exact ⟨s', pr, pr', .nil, h⟩
  | @snoc x y es e _ hs ih =>
      obtain ⟨t₁', qr, qr', hrun, htwin⟩ := ih (t := x.1) (I := x.2) rfl
      obtain ⟨⟨hstep, hghost⟩, hown⟩ := hs
      obtain rfl : t = y.1 := congrArg Prod.fst hx
      obtain rfl : I = y.2 := congrArg Prod.snd hx
      obtain ⟨t', qr₁, qr₁', hstep', htwin'⟩ := htwin.step hstep hown
      rw [← hghost] at htwin'
      exact ⟨t', qr₁, qr₁', .snoc hrun hstep', htwin'⟩

end

/-- **Independence of what `malloc` returned.**  A process is loaded twice, over different contents
of its `mm_struct`, its page table and its field `active_mswp_id`.  As long as its calls read no
entry that nobody has written, the second process can make the same calls with the same results;
afterwards the areas with their free lists are the same, and every page below the end of the area
is in the same frame. -/
theorem malloc_independent [Header] [PteLaws] {p : ℕ} {s₀ s s' t : Sys} {mm₀ mm₀' : Mm}
    {pgd₀ pgd₀' : ℕ → Pte} {activeMswpId activeMswpId' : ℤ} {es : List Event} {I : List ℕ}
    (h : MemStep s₀ (.load p mm₀ pgd₀ activeMswpId) s)
    (h' : MemStep s₀ (.load p mm₀' pgd₀' activeMswpId') s')
    (hr : ((memLts.withGhost initialiseEvent).restrict (OwnCalls p)).Run (s, [0]) es (t, I)) :
    ∃ pr t' pr', t.procs p = some pr ∧ memLts.Run s' es t' ∧ t'.procs p = some pr' ∧
      pr'.mm.mmap = pr.mm.mmap ∧
      (∀ vma ∈ pr.mm.mmap, ∀ g, g * pagingPagesz < vma.vmEnd →
        residentFrame pr'.mm g = residentFrame pr.mm g) ∧
      ∀ cl, Initialised (t.ctx pr) I cl →
        Both (fun x y => y.1 = x.1 ∧ y.2.1 = x.2.1) ((t.ctx pr).call cl)
          ((t'.ctx pr').call cl) := by
  cases h with
  | load _ _ _ _ =>
      cases h' with
      | load _ _ _ _ =>
          have htwin : Sys.Twin p [0]
              { s₀ with procs := Function.update s₀.procs p (some ⟨initMm mm₀ pgd₀, activeMswpId⟩) }
              { s₀ with
                procs := Function.update s₀.procs p (some ⟨initMm mm₀' pgd₀', activeMswpId'⟩) }
              ⟨initMm mm₀ pgd₀, activeMswpId⟩ ⟨initMm mm₀' pgd₀', activeMswpId'⟩ :=
            ⟨Function.update_self _ _ _, Function.update_self _ _ _,
              ⟨twin_initMm mm₀ mm₀' pgd₀ pgd₀', rfl, rfl⟩,
              ⟨_, rfl, rfl, fun g hg => absurd hg (Nat.not_lt_zero _)⟩⟩
          obtain ⟨t', pr, pr', hrun, ht⟩ := htwin.run hr
          refine ⟨pr, t', pr', ht.proc, hrun, ht.proc', ht.ctx.mm.mmap, fun vma hvma g hg => ?_,
            fun cl hcl => ?_⟩
          · obtain ⟨vma', hm, _, hmapped⟩ := ht.mapped
            rw [hm] at hvma
            obtain rfl := List.mem_singleton.mp hvma
            exact ht.ctx.mm.residentFrame (hmapped g hg)
          · exact (ht.ctx.call hcl).mono fun x y _ hxy => ⟨hxy.1, hxy.2.1⟩

section decidable

variable [Header]

instance (c : Ctx) (size : ℤ) : Decidable (c.AddsMapped size) :=
  decidable_of_iff (∀ vma ∈ c.mm.mmap, (c.newPages size).all (fun x =>
      if x.2 ≤ c.dev.mram.freeFpList.length then
        x.1 * pagingPagesz ≤ vma.vmEnd ∧
          ulong (vma.vmEnd + pagingPageAlignsz size) ≤ (x.1 + x.2) * pagingPagesz
      else ulong (int32 vma.vmEnd) ≤ vma.vmEnd) = true) (by
    simp [Ctx.AddsMapped, Option.all_eq_true])

instance (c : Ctx) (I : List ℕ) : ∀ cl, Decidable (Initialised c I cl)
  | .alloc size _ => inferInstanceAs (Decidable (c.AddsMapped (int32 size)))
  | .free regIndex =>
      inferInstanceAs (Decidable (SymId (int32 regIndex) → (int32 regIndex).toNat ∈ I))
  | .read source _ _ => inferInstanceAs (Decidable (SymId (int32 source) → _ ∧ _))
  | .write _ destination _ => inferInstanceAs (Decidable (SymId (int32 destination) → _ ∧ _))
  | .memmap _ => inferInstanceAs (Decidable False)

instance (p : ℕ) (x : Sys × List ℕ) : ∀ e, Decidable (OwnCalls p x e)
  | .call q cl _ _ => decidable_of_iff (q = p ∧
      (x.1.procs p).all (fun pr => Initialised (x.1.ctx pr) x.2 cl) = true) (by
    simp [OwnCalls, Option.all_eq_true])
  | .load _ _ _ _ => inferInstanceAs (Decidable False)
  | .release _ => inferInstanceAs (Decidable False)

end decidable

/-- A load over memory that is not cleared. -/
def loadUsed (p : ℕ) : Event :=
  .load p ⟨fun _ => 0, [], fun _ => ⟨16, 32⟩, [7]⟩ (fun _ => 0xFFFFFFFF) 7

/-- An allocation, a write to the region and a release that is refused. -/
def ownSample : List Event :=
  [.call 0 (.alloc 256 1) 0 none, .call 0 (.write 7 1 5) 0 none, .call 0 (.free 31) (-1) none]

/-- The byte that was written is read again, whatever the memory held before the load. -/
theorem malloc_independent_sample : ∃ s' t' pr' c',
    @MemStep header22 boot22 (loadUsed 0) s' ∧ (@memLts header22).Run s' ownSample t' ∧
    t'.procs 0 = some pr' ∧
    @Ctx.call header22 (t'.ctx pr') (.read 1 5 0) = .ok (0, some 7, c') := by
  let := header22
  let := header22_pteLaws
  have hsome : ((boot22.next (loadBlank 0)).bind fun s =>
      Lts.replay (Lts.guarded (Lts.nextGhost Sys.next initialiseEvent) (OwnCalls 0)) (s, [0])
        ownSample).any (fun x => (x.1.procs 0).any fun pr =>
          Initialised (x.1.ctx pr) x.2 (.read 1 5 0) ∧
            ((x.1.ctx pr).call (.read 1 5 0)).toOption.any (fun r =>
              r.1 = 0 ∧ r.2.1 = some 7) = true) = true := by
    decide +kernel
  obtain ⟨⟨t, I⟩, hs, hx⟩ := (Option.any_eq_true _ _).mp hsome
  obtain ⟨s, hload, hs⟩ := Option.bind_eq_some_iff.mp hs
  obtain ⟨pr, hp, hx⟩ := (Option.any_eq_true _ _).mp hx
  obtain ⟨hin, hread⟩ := of_decide_eq_true hx
  obtain ⟨⟨st, val, c⟩, hc, hread⟩ := exists_ok_of_any hread
  obtain ⟨rfl, rfl⟩ := of_decide_eq_true hread
  have hrun : ((memLts.withGhost initialiseEvent).restrict (OwnCalls 0)).Run (s, [0]) ownSample
      (t, I) :=
    Lts.Run.of_replay_guarded (Lts.withGhost_of_nextGhost fun _ _ _ => memStep_of_next) hs
  have hused : MemStep boot22 (loadUsed 0) _ := .load _ _ _ rfl
  obtain ⟨pr₁, t', pr', hp₁, hrun', hp', _, _, hcalls⟩ :=
    malloc_independent (memStep_of_next hload) hused hrun
  obtain rfl := Option.some.inj (hp.symm.trans hp₁)
  obtain ⟨⟨st', val', c'⟩, hc', hst, hval⟩ := (hcalls _ hin).of_ok hc
  obtain ⟨rfl, rfl⟩ : st' = 0 ∧ val' = some 7 := ⟨hst, hval⟩
  exact ⟨_, t', pr', c', hused, hrun', hp', hc'⟩

/-- `FREE` of a region that was never allocated: its entry is what `malloc` returned. -/
theorem malloc_dependent : ∃ s s' pr pr' c c', @MemStep header22 boot22 (loadBlank 0) s ∧
    @MemStep header22 boot22 (loadUsed 0) s' ∧ s.procs 0 = some pr ∧ s'.procs 0 = some pr' ∧
    @Ctx.call header22 (s.ctx pr) (.free 1) = .ok (-1, none, c) ∧
    @Ctx.call header22 (s'.ctx pr') (.free 1) = .ok (0, none, c') ∧
    c'.mm.mmap.map VmArea.vmFreergList ≠ c.mm.mmap.map VmArea.vmFreergList := by
  let := header22
  refine ⟨_, _, _, _, _, _, .load _ _ _ rfl, .load _ _ _ rfl, rfl, rfl, rfl, rfl, ?_⟩
  decide

end BtlOs
