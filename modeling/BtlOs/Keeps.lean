import BtlOs.Calls
import BtlOs.Lib.Outcome

/-! # What every call keeps

`init_mm` makes one area with the id 0 and nothing adds or removes an area; the devices keep their
access mode and size.  `Keeps` says so of one execution, together with the lock: below the four
calls of `libmem.c` no function takes or releases it.

There is one lemma for each function, by the rules of `Ends`, for arbitrary operands: a function
is stuck only by undefined behaviour, or it returns and has kept these. -/

namespace BtlOs

open CLang Header

/-- The only reason to be stuck is undefined behaviour: the execution waits for no lock. -/
abbrev Undefined (e : Stuck) : Prop := e = .undefined

/-- The access mode and the size of a device. -/
def SameDevice (mp mp' : Memphy) : Prop := mp'.rdmflg = mp.rdmflg ∧ mp'.maxsz = mp.maxsz

/-- The only area of the process is area 0. -/
def OneArea (mm : Mm) : Prop := ∃ vma, mm.mmap = [vma] ∧ vma.vmId = 0

structure Keeps (c c' : Ctx) : Prop where
  area : OneArea c.mm → OneArea c'.mm
  mram : SameDevice c.dev.mram c'.dev.mram
  mswp : SameDevice c.dev.mswp c'.dev.mswp
  lock : c'.mmvmLock = c.mmvmLock

theorem SameDevice.refl (mp : Memphy) : SameDevice mp mp := ⟨rfl, rfl⟩

theorem SameDevice.trans {mp₁ mp₂ mp₃ : Memphy} (h₁ : SameDevice mp₁ mp₂)
    (h₂ : SameDevice mp₂ mp₃) : SameDevice mp₁ mp₃ :=
  ⟨h₂.1.trans h₁.1, h₂.2.trans h₁.2⟩

theorem Keeps.refl (c : Ctx) : Keeps c c := ⟨id, .refl _, .refl _, rfl⟩

theorem Keeps.trans {c₁ c₂ c₃ : Ctx} (h₁ : Keeps c₁ c₂) (h₂ : Keeps c₂ c₃) : Keeps c₁ c₃ :=
  ⟨h₂.area ∘ h₁.area, h₁.mram.trans h₂.mram, h₁.mswp.trans h₂.mswp, h₂.lock.trans h₁.lock⟩

theorem Keeps.of_mm {c : Ctx} {mm : Mm} (h : OneArea c.mm → OneArea mm) : Keeps c { c with mm } :=
  ⟨h, .refl _, .refl _, rfl⟩

theorem OneArea.of_mmap {mm mm' : Mm} (h : OneArea mm) (he : mm'.mmap = mm.mmap) :
    OneArea mm' := by
  obtain ⟨vma, hm, hid⟩ := h
  exact ⟨vma, he.trans hm, hid⟩

theorem OneArea.setArea {mm : Mm} {curVma : Option ℕ} {vma vma' : VmArea} (h : OneArea mm)
    (hvma : mm.area curVma = .ok vma) (hid : vma'.vmId = vma.vmId) :
    OneArea (mm.setArea curVma vma') := by
  obtain ⟨vma₀, hm, h₀⟩ := h
  cases curVma with
  | none => cases hvma
  | some k =>
      cases k with
      | zero =>
          obtain rfl : vma₀ = vma := by simpa [Mm.area, hm] using hvma
          exact ⟨vma', by simp [Mm.setArea, hm], hid.trans h₀⟩
      | succ k => simp [Mm.area, hm] at hvma

section

variable [Header]

/-! ### Devices -/

omit [Header] in
theorem Memphy.ends_read (mp : Memphy) (addr : ℤ) :
    Ends Undefined (fun r => r.2 = mp) (mp.read addr) := by
  unfold Memphy.read Memphy.seqRead
  cases mp.rdmflg with
  | true =>
      rw [if_pos rfl]
      refine Ends.bind (Ends.require fun _ => rfl) fun _ _ _ => ?_
      exact .ok rfl
  | false => exact .ok rfl

omit [Header] in
theorem Memphy.ends_write (mp : Memphy) (addr : ℤ) (data : Byte) :
    Ends Undefined (fun r => SameDevice mp r.2) (mp.write addr data) := by
  unfold Memphy.write Memphy.seqWrite
  rcases h : mp.rdmflg with _ | _
  · exact .ok (.refl mp)
  · rw [if_pos rfl]
    refine Ends.bind (Ends.require fun _ => rfl) fun _ _ _ => ?_
    exact .ok ⟨h.symm, rfl⟩

omit [Header] in
theorem ends_assigned {α : Type} (v : Option α) : Ends Undefined (fun _ => True) (assigned v) := by
  cases v with
  | none => exact .error rfl
  | some a => exact .ok trivial

/-- Both devices of the machine are what they were. -/
def SameDevices (ds ds' : Devices) : Prop :=
  SameDevice ds.mram ds'.mram ∧ SameDevice ds.mswp ds'.mswp

omit [Header] in
theorem SameDevices.set {ds : Devices} {d : Dev} {mp : Memphy} (h : SameDevice (ds.get d) mp) :
    SameDevices ds (ds.set d mp) := by
  cases d with
  | mram => exact ⟨h, .refl _⟩
  | mswp => exact ⟨.refl _, h⟩

theorem ends_swapCpCell (ds : Devices) (mpsrc mpdst : Dev) (srcfpn dstfpn : ℤ) (cellidx : ℕ) :
    Ends Undefined (SameDevices ds) (swapCpCell ds mpsrc srcfpn mpdst dstfpn cellidx) := by
  unfold swapCpCell
  refine ((ds.get mpsrc).ends_read _).bind ?_
  rintro ⟨data, mp⟩ _ rfl
  simp only [Devices.set_get]
  apply (ends_assigned data).bind
  intro data _ _
  refine ((ds.get mpdst).ends_write _ data).bind ?_
  rintro ⟨_, mp⟩ _ hmp
  exact .ok (.set hmp)

theorem ends_swapCpCells (mpsrc mpdst : Dev) (srcfpn dstfpn : ℤ) (n cellidx : ℕ) (ds : Devices) :
    Ends Undefined (SameDevices ds) (swapCpCells mpsrc srcfpn mpdst dstfpn n cellidx ds) := by
  induction n generalizing cellidx ds with
  | zero => exact .ok ⟨.refl _, .refl _⟩
  | succ n ih =>
      apply (ends_swapCpCell ds mpsrc mpdst srcfpn dstfpn cellidx).bind
      intro ds₁ _ h₁
      apply (ih (cellidx + 1) ds₁).mono
      intro ds₂ h₂
      exact ⟨h₁.1.trans h₂.1, h₁.2.trans h₂.2⟩

/-! ### The memory map -/

theorem Mm.ends_pgdGet (mm : Mm) (pgn : ℕ) : Ends Undefined (fun _ => True) (mm.pgdGet pgn) := by
  unfold Mm.pgdGet
  refine Ends.bind (Ends.require fun _ => rfl) fun _ _ _ => ?_
  exact .ok trivial

theorem Mm.ends_pgdSet (mm : Mm) (pgn : ℕ) (pte : Pte) :
    Ends Undefined (fun mm' => mm'.mmap = mm.mmap) (mm.pgdSet pgn pte) := by
  unfold Mm.pgdSet
  refine Ends.bind (Ends.require fun _ => rfl) fun _ _ _ => ?_
  exact .ok rfl

theorem Mm.ends_symGet (mm : Mm) (rgid : ℤ) : Ends Undefined (fun _ => True) (mm.symGet rgid) := by
  unfold Mm.symGet
  refine Ends.bind (Ends.require fun _ => rfl) fun _ _ _ => ?_
  exact .ok trivial

theorem Mm.ends_symSet (mm : Mm) (rgid : ℤ) (rg : VmRg) :
    Ends Undefined (fun mm' => mm'.mmap = mm.mmap) (mm.symSet rgid rg) := by
  unfold Mm.symSet
  refine Ends.bind (Ends.require fun _ => rfl) fun _ _ _ => ?_
  exact .ok rfl

omit [Header] in
theorem Mm.ends_area (mm : Mm) (p : Option ℕ) : Ends Undefined (fun _ => True) (mm.area p) := by
  unfold Mm.area
  split
  · exact .error rfl
  · split
    · exact .error rfl
    · exact .ok trivial

omit [Header] in
theorem ends_getVmaByNum (mm : Mm) (vmaid : ℤ) :
    Ends Undefined (fun _ => True) (getVmaByNum mm vmaid) := by
  have hloop : ∀ (l : List VmArea) (k : ℕ),
      Ends Undefined (fun _ => True) (getVmaByNumLoop vmaid l k) := by
    intro l
    induction l with
    | nil => exact fun _ => .error rfl
    | cons pvma next ih =>
        intro k
        unfold getVmaByNumLoop
        split_ifs
        · exact ih (k + 1)
        · exact .ok trivial
  unfold getVmaByNum
  split
  · exact .ok trivial
  · exact hloop _ 0

omit [Header] in
theorem OneArea.getVmaByNum {mm : Mm} (h : OneArea mm) : getVmaByNum mm 0 = .ok (some 0) := by
  obtain ⟨vma, hm, hid⟩ := h
  exact getVmaByNum_single hm hid

omit [Header] in
theorem ends_enlistVmFreergList (mm : Mm) (rg : VmRg) :
    Ends Undefined (fun r => OneArea mm → OneArea r.2) (enlistVmFreergList mm rg) := by
  unfold enlistVmFreergList
  split
  · exact .error rfl
  · rename_i vma rest hm
    split_ifs
    · exact .ok id
    · refine .ok ?_
      rintro ⟨vma₀, hm₀, h₀⟩
      obtain ⟨rfl, rfl⟩ := List.cons_eq_cons.mp (hm.symm.trans hm₀)
      exact ⟨_, rfl, h₀⟩

omit [Header] in
theorem ends_getFreeVmrgArea (mm : Mm) (vmaid size : ℤ) :
    Ends Undefined (fun r => OneArea mm → OneArea r.2) (getFreeVmrgArea mm vmaid size) := by
  unfold getFreeVmrgArea
  apply (ends_getVmaByNum mm vmaid).bind
  intro curVma _ _
  apply (mm.ends_area curVma).bind
  intro vma hvma _
  split
  · exact .ok id
  · rename_i rgit rest _
    refine (ends_enlistVmFreergList _ _).bind ?_
    rintro ⟨_, mm'⟩ _ hmm'
    exact .ok fun h => hmm' (h.setArea hvma rfl)

/-! ### Mapping and system call 17 -/

theorem ends_vmapPages (n currPgn : ℕ) (frames : List ℕ) (mm : Mm) :
    Ends Undefined (fun r => r.2.mmap = mm.mmap) (vmapPages n currPgn frames mm) := by
  induction n generalizing currPgn frames mm with
  | zero => exact .ok rfl
  | succ n ih =>
      cases frames with
      | nil => exact .ok rfl
      | cons fpn fpNext =>
          apply (mm.ends_pgdGet currPgn).bind
          intro pte _ _
          apply (mm.ends_pgdSet currPgn _).bind
          intro mm₁ _ h₁
          apply (ih _ _ _).mono
          intro r hr
          exact hr.trans h₁

theorem ends_vmMapRam (c : Ctx) (mapstart incpgnum : ℤ) :
    Ends Undefined (fun r => Keeps c r.2.2) (vmMapRam c mapstart incpgnum) := by
  unfold vmMapRam
  rw [allocPagesRange_eq]
  split_ifs
  · refine Ends.bind (Q := fun r => r.2.2.mmap = c.mm.mmap) ?_ ?_
    · unfold vmapPageRange
      refine (ends_vmapPages _ _ _ _).bind ?_
      rintro ⟨st, mm⟩ _ hmm
      exact .ok hmm
    · rintro ⟨_, retRg, mm⟩ _ hmm
      exact .ok ⟨fun h => h.of_mmap hmm, ⟨rfl, rfl⟩, .refl _, rfl⟩
  · exact .ok ⟨id, ⟨rfl, rfl⟩, .refl _, rfl⟩

omit [Header] in
theorem ends_getVmAreaNodeAtBrk (mm : Mm) (vmaid size alignedsz : ℤ) :
    Ends Undefined (fun _ => True) (getVmAreaNodeAtBrk mm vmaid size alignedsz) := by
  unfold getVmAreaNodeAtBrk
  apply (ends_getVmaByNum mm vmaid).bind
  intro curVma _ _
  split_ifs
  · exact .ok trivial
  · apply (mm.ends_area curVma).bind
    intro vma _ _
    exact .ok trivial

theorem ends_incVmaLimit (c : Ctx) (vmaid incSz : ℤ) :
    Ends Undefined (fun r => Keeps c r.2) (incVmaLimit c vmaid incSz) := by
  unfold incVmaLimit
  apply (ends_getVmAreaNodeAtBrk _ _ _ _).bind
  intro region _ _
  apply (ends_getVmaByNum c.mm vmaid).bind
  intro curVma _ _
  cases region with
  | none => exact .ok (.refl c)
  | some region =>
      apply (c.mm.ends_area curVma).bind
      intro vma hvma _
      split_ifs
      · exact .ok (.refl c)
      · refine (ends_vmMapRam _ _ _).bind ?_
        rintro ⟨st, _, c'⟩ _ hc'
        refine .ok (Keeps.trans ?_ hc')
        exact .of_mm fun h => h.setArea hvma rfl

theorem ends_sysMemmap (c : Ctx) (regs : ScRegs) :
    Ends Undefined (fun r => Keeps c r.2.2) (sysMemmap c regs) := by
  unfold sysMemmap
  dsimp only
  split_ifs
  · exact .ok (.refl c)
  · refine (ends_incVmaLimit c _ _).bind ?_
    rintro ⟨st, c'⟩ _ hc'
    exact .ok hc'
  · unfold mmSwapPage
    refine Ends.bind (Q := fun r => Keeps c r.2) ?_ ?_
    · apply (ends_swapCpCells _ _ _ _ _ _ _).bind
      intro dev _ hdev
      exact .ok ⟨id, hdev.1, hdev.2, rfl⟩
    · rintro ⟨st, c'⟩ _ hc'
      exact .ok hc'
  · refine (c.dev.mram.ends_read _).bind ?_
    rintro ⟨value, mram⟩ _ rfl
    cases value with
    | none => exact .ok (.refl c)
    | some value => exact .ok (.refl c)
  · refine (c.dev.mram.ends_write _ _).bind ?_
    rintro ⟨st, mram⟩ _ hmram
    exact .ok ⟨id, hmram, .refl _, rfl⟩
  · exact .ok (.refl c)

/-! ### Page access -/

theorem ends_pgReturn (c : Ctx) (pgn : ℕ) :
    Ends Undefined (fun r => Keeps c r.2) (pgReturn c pgn) := by
  unfold pgReturn
  apply (Mm.ends_pgdGet _ _).bind
  intro _ _ _
  exact .ok (.of_mm fun h => h.of_mmap rfl)

theorem ends_pgGetpage (c : Ctx) (pgn : ℕ) :
    Ends Undefined (fun r => Keeps c r.2) (pgGetpage c pgn) := by
  unfold pgGetpage
  apply (c.mm.ends_pgdGet pgn).bind
  intro pte _ _
  split_ifs
  · exact ends_pgReturn c pgn
  · rcases hv : findVictimPage c.mm with ⟨v, mm⟩
    cases v with
    | none => exact .error rfl
    | some vic =>
        obtain ⟨rest, hf, rfl⟩ := findVictimPage_some hv
        have hvic : Keeps c { c with mm := { c.mm with fifoPgn := rest } } :=
          .of_mm fun h => h.of_mmap rfl
        simp only [assigned, ok_bind]
        apply (Mm.ends_pgdGet _ _).bind
        intro vicpte _ _
        cases hsw : c.dev.mswp.getFreefp with
        | none => exact .ok hvic
        | some sw =>
            obtain ⟨swpfpn, mswp⟩ := sw
            have hmswp : SameDevice c.dev.mswp mswp := by
              unfold Memphy.getFreefp at hsw
              split at hsw
              · cases hsw
              · obtain ⟨rfl, rfl⟩ := by simpa using hsw
                exact ⟨rfl, rfl⟩
            have hget : Keeps c ⟨{ c.mm with fifoPgn := rest }, { c.dev with mswp },
                c.activeMswpId, c.mmvmLock⟩ := hvic.trans ⟨id, .refl _, hmswp, rfl⟩
            refine (ends_sysMemmap _ _).bind ?_
            rintro ⟨st, _, c₁⟩ _ hc₁
            dsimp only at hc₁ ⊢
            split_ifs
            · exact .ok (hget.trans hc₁)
            · apply (Mm.ends_pgdGet _ _).bind
              intro vicpte _ _
              apply (Mm.ends_pgdSet _ _ _).bind
              intro mm₁ _ h₁
              apply (ends_swapCpCells _ _ _ _ _ _ _).bind
              intro dev _ hdev
              apply (Mm.ends_pgdGet _ _).bind
              intro pte _ _
              apply (Mm.ends_pgdSet _ _ _).bind
              intro mm₂ _ h₂
              apply (ends_pgReturn _ _).mono
              intro r hr
              refine (hget.trans hc₁).trans (Keeps.trans ?_ hr)
              exact ⟨fun h => h.of_mmap (h₂.trans h₁), hdev.1, hdev.2, rfl⟩

theorem ends_pgGetval (c : Ctx) (addr : ℤ) :
    Ends Undefined (fun r => Keeps c r.2) (pgGetval c addr) := by
  unfold pgGetval
  refine (ends_pgGetpage c _).bind ?_
  rintro ⟨fpn, c₁⟩ _ hc₁
  cases fpn with
  | none => exact .ok hc₁
  | some fpn =>
      refine (ends_sysMemmap c₁ _).bind ?_
      rintro ⟨st, regs, c₂⟩ _ hc₂
      dsimp only at hc₂ ⊢
      split_ifs
      · exact .ok (hc₁.trans hc₂)
      · exact .ok (hc₁.trans hc₂)

theorem ends_pgSetval (c : Ctx) (addr : ℤ) (value : Byte) :
    Ends Undefined (fun r => Keeps c r.2) (pgSetval c addr value) := by
  unfold pgSetval
  refine (ends_pgGetpage c _).bind ?_
  rintro ⟨fpn, c₁⟩ _ hc₁
  cases fpn with
  | none => exact .ok hc₁
  | some fpn =>
      refine (ends_sysMemmap c₁ _).bind ?_
      rintro ⟨st, regs, c₂⟩ _ hc₂
      dsimp only at hc₂ ⊢
      split_ifs
      · exact .ok (hc₁.trans hc₂)
      · exact .ok (hc₁.trans hc₂)

/-! ### The calls -/

omit [Header] in
/-- Between an acquire and the release that follows it, the lock is held. -/
theorem Keeps.of_locked {c c' : Ctx} (hlock : c.mmvmLock = false)
    (h : Keeps { c with mmvmLock := true } c') : Keeps c c'.unlock :=
  ⟨h.area, h.mram, h.mswp, hlock.symm⟩

theorem ends_alloc {c : Ctx} (hlock : c.mmvmLock = false) (vmaid rgid size : ℤ) :
    Ends Undefined (fun r => Keeps c r.2) (alloc c vmaid rgid size) := by
  unfold alloc
  rw [Ctx.lock_eq hlock, ok_bind]
  refine (ends_getFreeVmrgArea _ _ _).bind ?_
  rintro ⟨rgnode, mm⟩ _ hmm
  cases rgnode with
  | some rgnode =>
      apply (mm.ends_symSet _ _).bind
      intro mm₁ _ h₁
      exact .ok (.of_locked hlock (.of_mm fun h => (hmm h).of_mmap h₁))
  | none =>
      apply (ends_getVmaByNum _ _).bind
      intro curVma _ _
      have hfree : Keeps { c with mmvmLock := true } { c with mm, mmvmLock := true } := .of_mm hmm
      split_ifs
      · exact .ok (.of_locked hlock hfree)
      · apply (Mm.ends_area _ _).bind
        intro vma _ _
        refine (ends_sysMemmap _ _).bind ?_
        rintro ⟨st, _, c₁⟩ _ hc₁
        apply (c₁.mm.ends_area curVma).bind
        intro vma' hvma' _
        dsimp only at hc₁ hvma' ⊢
        split_ifs
        · refine .ok (.of_locked hlock (Keeps.trans (hfree.trans hc₁) ?_))
          exact .of_mm fun h => h.setArea hvma' rfl
        · apply (Mm.ends_symSet _ _ _).bind
          intro mm₁ _ h₁
          refine (ends_enlistVmFreergList _ _).bind ?_
          rintro ⟨_, mm₂⟩ _ h₂
          refine .ok (.of_locked hlock (Keeps.trans (hfree.trans hc₁) ?_))
          exact .of_mm fun h => h₂ (h.of_mmap h₁)

theorem ends_free {c : Ctx} (hlock : c.mmvmLock = false) (rgid : ℤ) :
    Ends Undefined (fun r => Keeps c r.2) (free c rgid) := by
  unfold free
  rw [Ctx.lock_eq hlock, ok_bind]
  split_ifs
  · exact .ok (.of_locked hlock (.refl _))
  · apply (Mm.ends_symGet _ _).bind
    intro rg _ _
    split
    · exact .error rfl
    · rename_i vma rest hm
      refine (ends_enlistVmFreergList _ _).bind ?_
      rintro ⟨st, mm₁⟩ _ h₁
      have hmm : OneArea c.mm → OneArea mm₁ := by
        rintro ⟨vma₀, hm₀, h₀⟩
        obtain ⟨rfl, rfl⟩ := List.cons_eq_cons.mp (hm.symm.trans hm₀)
        exact h₁ ⟨_, rfl, h₀⟩
      dsimp only
      split_ifs
      · exact .ok (.of_locked hlock (.of_mm hmm))
      · apply (mm₁.ends_symSet _ _).bind
        intro mm₂ _ h₂
        exact .ok (.of_locked hlock (.of_mm fun h => (hmm h).of_mmap h₂))

/-- A region id that `get_symrg_byid` accepts. -/
def NamedRg (rgid : ℤ) : Prop := 0 ≤ rgid ∧ rgid ≤ pagingMaxSymtblSz

theorem getSymrgByid_of_named {rgid : ℤ} (h : NamedRg rgid) : getSymrgByid rgid = some rgid :=
  getSymrgByid_of_range h.1 h.2

theorem getSymrgByid_of_not_named {rgid : ℤ} (h : ¬ NamedRg rgid) : getSymrgByid rgid = none := by
  unfold NamedRg at h
  unfold getSymrgByid
  rw [if_pos (by omega)]

section access

variable {c : Ctx} (hlock : c.mmvmLock = false) (harea : OneArea c.mm) {rgid : ℤ}

include hlock harea

theorem read_named (hrg : NamedRg rgid) (offset : ℤ) : read c 0 rgid offset = (do
    let currg ← c.mm.symGet rgid
    let (data, c) ← pgGetval { c with mmvmLock := true } (rgAddr currg offset)
    .ok (0, data, c.unlock)) := by
  unfold read
  rw [Ctx.lock_eq hlock, ok_bind]
  simp only [harea.getVmaByNum, getSymrgByid_of_named hrg, ok_bind]

theorem write_named (hrg : NamedRg rgid) (offset : ℤ) (value : Byte) :
    write c 0 rgid offset value = (do
      let currg ← c.mm.symGet rgid
      let (_, c) ← pgSetval { c with mmvmLock := true } (rgAddr currg offset) value
      .ok (0, c.unlock)) := by
  unfold write
  rw [Ctx.lock_eq hlock, ok_bind]
  simp only [harea.getVmaByNum, getSymrgByid_of_named hrg, ok_bind]

/-- The early return of `__read`. -/
theorem read_not_named (hrg : ¬ NamedRg rgid) (offset : ℤ) :
    read c 0 rgid offset = .ok (-1, none, { c with mmvmLock := true }) := by
  unfold read
  rw [Ctx.lock_eq hlock, ok_bind]
  simp only [harea.getVmaByNum, getSymrgByid_of_not_named hrg, ok_bind]

theorem write_not_named (hrg : ¬ NamedRg rgid) (offset : ℤ) (value : Byte) :
    write c 0 rgid offset value = .ok (-1, { c with mmvmLock := true }) := by
  unfold write
  rw [Ctx.lock_eq hlock, ok_bind]
  simp only [harea.getVmaByNum, getSymrgByid_of_not_named hrg, ok_bind]

theorem ends_read (hrg : NamedRg rgid) (offset : ℤ) :
    Ends Undefined (fun r => Keeps c r.2.2) (read c 0 rgid offset) := by
  rw [read_named hlock harea hrg]
  apply (Mm.ends_symGet _ _).bind
  intro currg _ _
  refine (ends_pgGetval _ _).bind ?_
  rintro ⟨data, c₁⟩ _ hc₁
  exact .ok (.of_locked hlock hc₁)

theorem ends_write (hrg : NamedRg rgid) (offset : ℤ) (value : Byte) :
    Ends Undefined (fun r => Keeps c r.2) (write c 0 rgid offset value) := by
  rw [write_named hlock harea hrg]
  apply (Mm.ends_symGet _ _).bind
  intro currg _ _
  refine (ends_pgSetval _ _ _).bind ?_
  rintro ⟨st, c₁⟩ _ hc₁
  exact .ok (.of_locked hlock hc₁)

end access

theorem ends_libread {c : Ctx} (hlock : c.mmvmLock = false) (harea : OneArea c.mm) {source : ℕ}
    (hrg : NamedRg (int32 source)) (offset : ℕ) (data₀ : Byte) :
    Ends Undefined (fun r => Keeps c r.2.2) (libread c source offset data₀) := by
  refine (ends_read hlock harea hrg _).bind ?_
  rintro ⟨st, data, c'⟩ _ hc'
  exact .ok hc'

/-- A call whose region, if it reads or writes one, has an accepted id. -/
def Call.Named : Call → Prop
  | .read source _ _ => NamedRg (int32 source)
  | .write _ destination _ => NamedRg (int32 destination)
  | .alloc _ _ => True
  | .free _ => True
  | .memmap _ => True

instance (rgid : ℤ) : Decidable (NamedRg rgid) := inferInstanceAs (Decidable (_ ∧ _))

instance : ∀ cl : Call, Decidable cl.Named
  | .read source _ _ => inferInstanceAs (Decidable (NamedRg (int32 source)))
  | .write _ destination _ => inferInstanceAs (Decidable (NamedRg (int32 destination)))
  | .alloc _ _ => inferInstanceAs (Decidable True)
  | .free _ => inferInstanceAs (Decidable True)
  | .memmap _ => inferInstanceAs (Decidable True)

section calls

variable {c : Ctx} {cl : Call}

theorem Ctx.ends_call (hlock : c.mmvmLock = false) (harea : OneArea c.mm) (hcl : cl.Named) :
    Ends Undefined (fun r => Keeps c r.2.2) (c.call cl) := by
  cases cl with
  | alloc size regIndex =>
      unfold Ctx.call liballoc
      refine Ends.bind (Q := fun r => Keeps c r.2) ?_ ?_
      · refine (ends_alloc hlock _ _ _).bind ?_
        rintro ⟨addr, c'⟩ _ hc'
        exact .ok hc'
      · rintro ⟨st, c'⟩ _ hc'
        exact .ok hc'
  | free regIndex =>
      refine (ends_free hlock _).bind ?_
      rintro ⟨st, c'⟩ _ hc'
      exact .ok hc'
  | read source offset data₀ =>
      refine (ends_libread hlock harea hcl _ _).bind ?_
      rintro ⟨st, val, c'⟩ _ hc'
      exact .ok hc'
  | write data destination offset =>
      refine (ends_write hlock harea hcl _ _).bind ?_
      rintro ⟨st, c'⟩ _ hc'
      exact .ok hc'
  | memmap regs =>
      refine (ends_sysMemmap c regs).bind ?_
      rintro ⟨st, _, c'⟩ _ hc'
      exact .ok hc'

/-- A call that names no region returns at once and keeps the lock. -/
theorem Ctx.call_not_named (hlock : c.mmvmLock = false) (harea : OneArea c.mm)
    (hcl : ¬ cl.Named) : ∃ val, c.call cl = .ok (-1, val, { c with mmvmLock := true }) := by
  cases cl with
  | read source offset data₀ =>
      have hrg : ¬ NamedRg (int32 source) := hcl
      simp only [Ctx.call, libread, read_not_named hlock harea hrg]
      exact ⟨_, rfl⟩
  | write data destination offset =>
      have hrg : ¬ NamedRg (int32 destination) := hcl
      simp only [Ctx.call, libwrite, write_not_named hlock harea hrg]
      exact ⟨_, rfl⟩
  | alloc _ _ => exact absurd trivial hcl
  | free _ => exact absurd trivial hcl
  | memmap _ => exact absurd trivial hcl

/-- A call other than system call 17 waits for the lock. -/
theorem Ctx.call_locked (hlock : c.mmvmLock = true) (hcl : ∀ regs, cl ≠ .memmap regs) :
    c.call cl = .error .deadlock := by
  have hl : c.lock = .error .deadlock := by
    unfold Ctx.lock
    rw [if_pos hlock]
  cases cl with
  | alloc size regIndex =>
      simp only [Ctx.call, liballoc]
      unfold alloc
      rw [hl]
      rfl
  | free regIndex =>
      simp only [Ctx.call, libfree]
      unfold free
      rw [hl]
      rfl
  | read source offset data₀ =>
      simp only [Ctx.call, libread]
      unfold read
      rw [hl]
      rfl
  | write data destination offset =>
      simp only [Ctx.call, libwrite]
      unfold write
      rw [hl]
      rfl
  | memmap regs => exact absurd rfl (hcl regs)

theorem Ctx.kept_of_ok {st : ℤ} {val : Option ℕ} {c' : Ctx} (harea : OneArea c.mm)
    (h : c.call cl = .ok (st, val, c')) : Keeps c { c' with mmvmLock := c.mmvmLock } := by
  by_cases hm : ∃ regs, cl = .memmap regs
  · obtain ⟨regs, rfl⟩ := hm
    obtain ⟨⟨_, _, _⟩, hs, h⟩ := bind_eq_ok.mp h
    obtain ⟨rfl, rfl, rfl⟩ := by simpa using h
    have hk := (ends_sysMemmap c regs).of_ok hs
    exact ⟨hk.area, hk.mram, hk.mswp, rfl⟩
  · have hlock : c.mmvmLock = false := by
      rw [← Bool.not_eq_true]
      intro hlock
      rw [Ctx.call_locked hlock fun regs he => hm ⟨regs, he⟩] at h
      cases h
    by_cases hcl : cl.Named
    · have hk := (Ctx.ends_call hlock harea hcl).of_ok h
      exact ⟨hk.area, hk.mram, hk.mswp, rfl⟩
    · obtain ⟨val', he⟩ := Ctx.call_not_named hlock harea hcl
      obtain ⟨rfl, rfl, rfl⟩ := by simpa [he] using h
      exact ⟨id, .refl _, .refl _, rfl⟩

end calls

/-! ### The system -/

/-- Every process has one area and both devices are random-access. -/
structure Sane (s : Sys) : Prop where
  area : ∀ p pr, s.procs p = some pr → OneArea pr.mm
  ram : s.dev.mram.rdmflg = true
  swp : s.dev.mswp.rdmflg = true

theorem Booted.sane {n m : ℕ} {s : Sys} (h : Booted n m s) : Sane s :=
  ⟨by simp [h.procs], h.ram_rdmflg, h.swp_rdmflg⟩

theorem Sane.step {s s' : Sys} {e : Event} (h : Sane s) (hs : MemStep s e s') : Sane s' := by
  cases hs with
  | @call p pr cl st val c hp hc =>
      have hk := Ctx.kept_of_ok (c := s.ctx pr) (h.area p pr hp) hc
      refine ⟨?_, hk.mram.1.trans h.ram, hk.mswp.1.trans h.swp⟩
      apply Table.forall_enter
      · exact hk.area (h.area p pr hp)
      · exact fun q qr _ => h.area q qr
  | load mm₀ pgd₀ activeMswpId _ =>
      refine ⟨?_, h.ram, h.swp⟩
      apply Table.forall_enter
      · exact ⟨_, rfl, rfl⟩
      · exact fun q qr _ => h.area q qr
  | release _ => exact ⟨Table.forall_remove h.area, h.ram, h.swp⟩

theorem Sane.of_run {n m : ℕ} {s₀ s : Sys} {es : List Event} (h₀ : Booted n m s₀)
    (hr : memLts.Run s₀ es s) : Sane s :=
  hr.invariant (fun _ _ _ h hs => h.step hs) h₀.sane

end

end BtlOs
