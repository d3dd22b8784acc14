import BtlOs.Calls
import BtlOs.Lib.TwoRuns

/-! # Machines that differ in hidden bytes

A view `V` says which bytes of the devices may be seen.  Two machines agree when they differ at
most in the storage outside the view.  The functions of the memory system keep agreement and
return the same results to both machines, as long as the bytes that they move into view are in
view: frames move by their numbers, and which bytes they hold is looked at only by a copy of a
frame and by a read.

The lemmas follow the functions one by one. -/

namespace BtlOs

open CLang Header

/-! ### Devices -/

/-- The devices differ in hidden bytes at most. -/
structure Memphy.Agree (V : ℕ → Prop) (mp mp' : Memphy) : Prop where
  storage : ∀ a, V a → mp'.storage a = mp.storage a
  maxsz : mp'.maxsz = mp.maxsz
  rdmflg : mp'.rdmflg = mp.rdmflg
  cursor : mp'.cursor = mp.cursor
  freeFpList : mp'.freeFpList = mp.freeFpList

namespace Memphy.Agree

variable {V : ℕ → Prop} {mp mp' : Memphy}

theorem withStorage (mp : Memphy) {storage : ℕ → Byte}
    (h : ∀ a, V a → storage a = mp.storage a) : mp.Agree V (mp.withStorage storage) :=
  ⟨h, rfl, rfl, rfl, rfl⟩

variable (h : mp.Agree V mp')

include h

theorem mono {W : ℕ → Prop} (hVW : ∀ a, W a → V a) : mp.Agree W mp' :=
  ⟨fun a ha => h.storage a (hVW a ha), h.maxsz, h.rdmflg, h.cursor, h.freeFpList⟩

theorem withFree (l : List ℕ) :
    ({ mp with freeFpList := l } : Memphy).Agree V { mp' with freeFpList := l } :=
  ⟨h.storage, h.maxsz, h.rdmflg, h.cursor, rfl⟩

theorem read (addr : ℤ) : Both (fun x y => Option.Rel (fun v w => V addr.toNat → w = v) x.1 y.1 ∧
    x.2.Agree V y.2) (mp.read addr) (mp'.read addr) := by
  unfold Memphy.read Memphy.seqRead
  rw [h.rdmflg, h.maxsz]
  cases mp.rdmflg with
  | false => exact .ok ⟨.none, h⟩
  | true => exact .bind_same fun _ _ => .ok ⟨.some fun hv => h.storage _ hv, h⟩

/-- The two values written may differ where the byte is hidden. -/
theorem write {addr : ℤ} {data data' : Byte} (hv : V addr.toNat → data' = data) :
    Both (fun x y => y.1 = x.1 ∧ x.2.Agree V y.2) (mp.write addr data)
      (mp'.write addr data') := by
  unfold Memphy.write Memphy.seqWrite
  rw [h.rdmflg, h.maxsz]
  cases hr : mp.rdmflg with
  | false => exact .ok ⟨rfl, h⟩
  | true =>
      refine .bind_same fun _ _ => .ok ⟨rfl, fun a ha => ?_, rfl, rfl, h.cursor, h.freeFpList⟩
      simp only [Function.update_apply, h.storage a ha]
      split_ifs with he
      · exact hv (he ▸ ha)
      · rfl

theorem getFreefp : mp.getFreefp = none ∧ mp'.getFreefp = none ∨ ∃ fpn m m',
    mp.getFreefp = some (fpn, m) ∧ mp'.getFreefp = some (fpn, m') ∧ m.Agree V m' := by
  unfold Memphy.getFreefp
  rw [h.freeFpList]
  cases mp.freeFpList with
  | nil => exact .inl ⟨rfl, rfl⟩
  | cons fpn rest => exact .inr ⟨fpn, _, _, rfl, rfl, h.withFree rest⟩

theorem allocPagesRange (n : ℕ) (frmLst : List ℕ) : ∃ r m m',
    allocPagesRange n frmLst mp = (r, m) ∧ allocPagesRange n frmLst mp' = (r, m') ∧
      m.Agree V m' := by
  rw [allocPagesRange_eq, allocPagesRange_eq, h.freeFpList]
  split_ifs
  · exact ⟨_, _, _, rfl, rfl, h.withFree _⟩
  · exact ⟨_, _, _, rfl, rfl, h.withFree _⟩

end Memphy.Agree

/-- The devices of two machines under a view of each device. -/
def Devices.Agree (V : Dev → ℕ → Prop) (ds ds' : Devices) : Prop :=
  ∀ d, (ds.get d).Agree (V d) (ds'.get d)

section

variable {V : Dev → ℕ → Prop}

namespace Devices.Agree

variable {ds ds' : Devices} (h : ds.Agree V ds')

include h

theorem mram : ds.mram.Agree (V .mram) ds'.mram := h .mram

theorem mswp : ds.mswp.Agree (V .mswp) ds'.mswp := h .mswp

theorem set {d : Dev} {mp mp' : Memphy} (hm : mp.Agree (V d) mp') :
    (ds.set d mp).Agree V (ds'.set d mp') := by
  intro d'
  by_cases hd : d' = d
  · subst hd
    simpa using hm
  · rw [get_set_of_ne _ hd, get_set_of_ne _ hd]
    exact h d'

variable [Header] {mpsrc mpdst : Dev} {srcfpn dstfpn : ℤ}

theorem swapCpCell {i : ℕ}
    (hv : V mpdst (cellAddr dstfpn i).toNat → V mpsrc (cellAddr srcfpn i).toNat) :
    Both (Devices.Agree V) (swapCpCell ds mpsrc srcfpn mpdst dstfpn i)
      (swapCpCell ds' mpsrc srcfpn mpdst dstfpn i) := by
  unfold BtlOs.swapCpCell
  refine ((h mpsrc).read _).bind ?_
  rintro ⟨data, mp⟩ ⟨data', mp'⟩ _ ⟨hdata, hmp⟩
  have hset := h.set hmp
  have hassigned : Both (fun x y => V mpsrc (cellAddr srcfpn i).toNat → y = x) (assigned data)
      (assigned data') := by
    cases hdata with
    | none => exact .error
    | some hd => exact .ok hd
  apply hassigned.bind
  intro data data' _ heq
  refine ((hset mpdst).write fun hin => heq (hv hin)).bind ?_
  rintro ⟨st, mp⟩ ⟨st', mp'⟩ _ ⟨_, hmp⟩
  exact .ok (hset.set hmp)

omit h in
theorem swapCpCells : ∀ (n i : ℕ) {ds ds' : Devices}, ds.Agree V ds' →
    (∀ j < i + n, i ≤ j → V mpdst (cellAddr dstfpn j).toNat →
      V mpsrc (cellAddr srcfpn j).toNat) →
    Both (Devices.Agree V) (swapCpCells mpsrc srcfpn mpdst dstfpn n i ds)
      (swapCpCells mpsrc srcfpn mpdst dstfpn n i ds')
  | 0, _, _, _, h, _ => .ok h
  | n + 1, i, _, _, h, hv =>
      (Devices.Agree.swapCpCell h (hv i (by omega) le_rfl)).bind fun _ _ _ h₁ =>
        Devices.Agree.swapCpCells n (i + 1) h₁ fun j hj hij => hv j (by omega) (by omega)

/-- A copy that brings nothing hidden into view. -/
theorem swapCpPage (hv : ∀ j < pagingPagesz, V mpdst (cellAddr dstfpn j).toNat →
      V mpsrc (cellAddr srcfpn j).toNat) :
    Both (Devices.Agree V) (swapCpPage ds mpsrc srcfpn mpdst dstfpn)
      (swapCpPage ds' mpsrc srcfpn mpdst dstfpn) :=
  Devices.Agree.swapCpCells _ _ h fun j hj _ => hv j (by omega)

end Devices.Agree

/-! ### Calls -/

theorem memop_ne_swp [Header] {op : ℤ} (h : op ∈ [sysmemIncOp, sysmemIoRead, sysmemIoWrite]) :
    int32 (uint32 op) ≠ sysmemSwpOp := by
  have hn := sysmemNodup
  simp only [List.nodup_cons, List.mem_cons, not_or] at hn
  have hmem : op ∈ [sysmemMapOp, sysmemIncOp, sysmemSwpOp, sysmemIoRead, sysmemIoWrite] := by
    simp only [List.mem_cons] at h ⊢
    tauto
  rw [memop_eq op hmem]
  simp only [List.mem_cons, List.not_mem_nil, or_false] at h
  rcases h with rfl | rfl | rfl
  · exact hn.2.1.1
  · exact Ne.symm hn.2.2.1.1
  · exact Ne.symm hn.2.2.1.2.1

/-- What two calls of one process reach. -/
structure Ctx.Agree (V : Dev → ℕ → Prop) (c c' : Ctx) : Prop where
  mm : c'.mm = c.mm
  dev : c.dev.Agree V c'.dev
  activeMswpId : c'.activeMswpId = c.activeMswpId
  mmvmLock : c'.mmvmLock = c.mmvmLock

/-- The bytes that an access of page `g` copies are in view: the frame of the victim and the swap
frame that is loaded. -/
structure PageInView [Header] (V : Dev → ℕ → Prop) (c : Ctx) (g : ℕ) : Prop where
  victim : pagingPagePresent (c.mm.pgd g) = false → c.dev.mswp.freeFpList ≠ [] →
    ∀ vic ∈ c.mm.fifoPgn.getLast?, ∀ j < pagingPagesz,
      V .mram (cellAddr (int32 (pagingPteFpn (c.mm.pgd vic))) j).toNat
  loaded : pagingPagePresent (c.mm.pgd g) = false → c.dev.mswp.freeFpList ≠ [] →
    ∀ j < pagingPagesz, V .mswp (cellAddr (pagingPteSwp (c.mm.pgd g)) j).toNat

/-- A byte that a call reads is in view, whatever page access precedes the read. -/
def ByteInView [Header] (V : Dev → ℕ → Prop) (c : Ctx) (addr : ℤ) : Prop :=
  ∀ fpn c₁, PageStep c (pagingPgn addr) (some fpn) c₁ →
    V .mram (phyAddr fpn (pagingOffst addr)).toNat

/-- The same result, and contexts that agree. -/
def SameResult (V : Dev → ℕ → Prop) {α : Type} (x y : α × Ctx) : Prop :=
  y.1 = x.1 ∧ x.2.Agree V y.2

namespace Ctx.Agree

variable {c c' : Ctx} (h : c.Agree V c')

include h

theorem mono {W : Dev → ℕ → Prop} (hVW : ∀ d a, W d a → V d a) : c.Agree W c' :=
  ⟨h.mm, fun d => (h.dev d).mono (hVW d), h.activeMswpId, h.mmvmLock⟩

theorem withMm (mm : Mm) : ({ c with mm } : Ctx).Agree V { c' with mm } :=
  ⟨rfl, h.dev, h.activeMswpId, h.mmvmLock⟩

theorem withDev {ds ds' : Devices} (hd : ds.Agree V ds') :
    ({ c with dev := ds } : Ctx).Agree V { c' with dev := ds' } :=
  ⟨h.mm, hd, h.activeMswpId, h.mmvmLock⟩

theorem withMram {mp mp' : Memphy} (hm : mp.Agree (V .mram) mp') :
    ({ c with dev := { c.dev with mram := mp } } : Ctx).Agree V
      { c' with dev := { c'.dev with mram := mp' } } :=
  h.withDev (Devices.Agree.set (d := .mram) h.dev hm)

theorem withMswp {mp mp' : Memphy} (hm : mp.Agree (V .mswp) mp') :
    ({ c with dev := { c.dev with mswp := mp } } : Ctx).Agree V
      { c' with dev := { c'.dev with mswp := mp' } } :=
  h.withDev (Devices.Agree.set (d := .mswp) h.dev hm)

theorem unlock : c.unlock.Agree V c'.unlock := ⟨h.mm, h.dev, h.activeMswpId, rfl⟩

theorem lock : Both (Ctx.Agree V) c.lock c'.lock := by
  unfold Ctx.lock
  rw [h.mmvmLock]
  split_ifs
  · exact .error
  · exact .ok ⟨h.mm, h.dev, h.activeMswpId, rfl⟩

variable [Header]

theorem vmMapRam (mapstart incpgnum : ℤ) : Both
    (fun x y => y.1 = x.1 ∧ x.2.2.Agree V y.2.2) (vmMapRam c mapstart incpgnum)
      (vmMapRam c' mapstart incpgnum) := by
  unfold BtlOs.vmMapRam
  obtain ⟨frmLst, mram, mram', e, e', hmram⟩ := h.dev.mram.allocPagesRange incpgnum.toNat []
  rw [e, e']
  cases frmLst with
  | none => exact .ok ⟨rfl, h.withMram hmram⟩
  | some frmLst =>
      simp only [h.mm]
      exact .bind_same fun a _ => .ok ⟨rfl, (h.withMm a.2.2).withMram hmram⟩

theorem incVmaLimit (vmaid incSz : ℤ) : Both (SameResult V) (incVmaLimit c vmaid incSz)
    (incVmaLimit c' vmaid incSz) := by
  unfold BtlOs.incVmaLimit
  simp only [h.mm]
  refine .bind_same fun region _ => .bind_same fun curVma _ => ?_
  cases region with
  | none => exact .ok ⟨rfl, h⟩
  | some region =>
      refine .bind_same fun vma _ => ?_
      split_ifs
      · exact .ok ⟨rfl, h⟩
      · refine ((h.withMm _).vmMapRam _ _).bind ?_
        rintro ⟨st, _, c₁⟩ ⟨st', _, c₁'⟩ _ ⟨rfl, h₁⟩
        exact .ok ⟨rfl, h₁⟩

theorem mmSwapPage {vicfpn swpfpn : ℤ} (hv : ∀ j < pagingPagesz,
      V .mswp (cellAddr swpfpn j).toNat → V .mram (cellAddr vicfpn j).toNat) :
    Both (SameResult V) (mmSwapPage c vicfpn swpfpn) (mmSwapPage c' vicfpn swpfpn) :=
  (h.dev.swapCpPage hv).bind fun _ _ _ hd => .ok ⟨rfl, h.withDev hd⟩

/-- A system call 17 that copies nothing hidden into view.  The register `a3` comes back different
only after a read of a hidden byte. -/
theorem sysMemmap {regs : ScRegs}
    (hv : int32 regs.a1 = sysmemSwpOp → ∀ j < pagingPagesz,
      V .mswp (cellAddr (int32 regs.a3) j).toNat → V .mram (cellAddr (int32 regs.a2) j).toNat) :
    Both (fun x y => y.1 = x.1 ∧ (V .mram (int32 regs.a2).toNat → y.2.1 = x.2.1) ∧
      x.2.2.Agree V y.2.2) (sysMemmap c regs) (sysMemmap c' regs) := by
  unfold BtlOs.sysMemmap
  simp only
  split_ifs with h₁ h₂ h₃ h₄ h₅
  · exact .ok ⟨rfl, fun _ => rfl, h⟩
  · refine (h.incVmaLimit _ _).bind ?_
    rintro ⟨st, c₁⟩ ⟨st', c₁'⟩ _ ⟨rfl, hc⟩
    exact .ok ⟨rfl, fun _ => rfl, hc⟩
  · refine (h.mmSwapPage (hv h₃)).bind ?_
    rintro ⟨st, c₁⟩ ⟨st', c₁'⟩ _ ⟨rfl, hc⟩
    exact .ok ⟨rfl, fun _ => rfl, hc⟩
  · refine (h.dev.mram.read _).bind ?_
    rintro ⟨value, mram⟩ ⟨value', mram'⟩ _ ⟨hval, hmp⟩
    cases hval with
    | none => exact .ok ⟨rfl, fun _ => rfl, h.withMram hmp⟩
    | some hval =>
        refine .ok ⟨rfl, fun hin => ?_, h.withMram hmp⟩
        rw [hval hin]
  · refine (h.dev.mram.write fun _ => rfl).bind ?_
    rintro ⟨st, mram⟩ ⟨st', mram'⟩ _ ⟨rfl, hmp⟩
    exact .ok ⟨rfl, fun _ => rfl, h.withMram hmp⟩
  · exact .ok ⟨rfl, fun _ => rfl, h⟩

/-! ### The memory library -/

theorem alloc (vmaid rgid size : ℤ) :
    Both (SameResult V) (alloc c vmaid rgid size) (alloc c' vmaid rgid size) := by
  unfold BtlOs.alloc
  apply h.lock.bind
  intro c c' _ h
  simp only [h.mm]
  refine .bind_same fun ⟨rgnode, mm⟩ _ => ?_
  cases rgnode with
  | some rgnode =>
      refine .bind_same fun mm _ => ?_
      exact .ok ⟨rfl, (h.withMm mm).unlock⟩
  | none =>
      have h := h.withMm mm
      refine .bind_same fun curVma _ => ?_
      split_ifs
      · exact .ok ⟨rfl, h.unlock⟩
      · refine .bind_same fun vma _ => ?_
        refine (h.sysMemmap fun hswp => ?_).bind ?_
        · exact absurd hswp (memop_ne_swp (by simp))
        · rintro ⟨st, _, c₁⟩ ⟨st', _, c₁'⟩ _ ⟨rfl, _, (h₁ : c₁.Agree V c₁')⟩
          simp only [h₁.mm]
          refine .bind_same fun vma _ => ?_
          split_ifs
          · exact .ok ⟨rfl, (h₁.withMm _).unlock⟩
          · refine .bind_same fun mm _ => .bind_same fun ⟨_, mm⟩ _ => ?_
            exact .ok ⟨rfl, (h₁.withMm mm).unlock⟩

theorem free (rgid : ℤ) : Both (SameResult V) (free c rgid) (free c' rgid) := by
  unfold BtlOs.free
  apply h.lock.bind
  intro c c' _ h
  simp only [h.mm]
  split_ifs
  · exact .ok ⟨rfl, h.unlock⟩
  · refine .bind_same fun rg _ => ?_
    cases c.mm.mmap with
    | nil => exact .error
    | cons vma rest =>
        refine .bind_same fun ⟨st, mm⟩ _ => ?_
        split_ifs
        · exact .ok ⟨rfl, (h.withMm mm).unlock⟩
        · refine .bind_same fun mm _ => ?_
          exact .ok ⟨rfl, (h.withMm mm).unlock⟩

theorem pgReturn (pgn : ℕ) : Both (SameResult V) (pgReturn c pgn) (pgReturn c' pgn) := by
  unfold BtlOs.pgReturn
  simp only [h.mm]
  exact .bind_same fun pte _ => .ok ⟨rfl, h.withMm _⟩

theorem pgGetpage {pgn : ℕ} (hv : PageInView V c pgn) :
    Both (SameResult V) (pgGetpage c pgn) (pgGetpage c' pgn) := by
  unfold BtlOs.pgGetpage
  rw [h.mm]
  refine .bind_same fun pte hpte => ?_
  obtain ⟨_, rfl⟩ := Mm.pgdGet_eq_ok.mp hpte
  split_ifs with hpres
  · exact h.pgReturn pgn
  · have hpres : pagingPagePresent (c.mm.pgd pgn) = false := by simpa using hpres
    rcases hf : findVictimPage c.mm with ⟨vicpgn, mm⟩
    cases vicpgn with
    | none => exact .error
    | some vic =>
        obtain ⟨rest, hfifo, rfl⟩ := findVictimPage_some hf
        have h := h.withMm { c.mm with fifoPgn := rest }
        refine .bind_same fun vicpgn hvic => .bind_same fun vicpte hvicpte => ?_
        obtain rfl := Except.ok.inj hvic
        obtain ⟨_, rfl⟩ := Mm.pgdGet_eq_ok.mp hvicpte
        rcases h.dev.mswp.getFreefp with ⟨hs, hs'⟩ | ⟨swpfpn, mswp, mswp', hs, hs', hm⟩
        · simp only [hs, hs']
          exact .ok ⟨rfl, h⟩
        · simp only [hs, hs']
          have hne : c.dev.mswp.freeFpList ≠ [] := by
            intro hempty
            simp [Memphy.getFreefp, hempty] at hs
          refine ((h.withMswp hm).sysMemmap fun _ => ?_).bind ?_
          · simp only [int32_uint32]
            exact fun j hj _ => hv.victim hpres hne vic (by simp [hfifo]) j hj
          · rintro ⟨st, _, c₁⟩ ⟨st', _, c₁'⟩ _ ⟨rfl, _, (h₁ : c₁.Agree V c₁')⟩
            simp only [h₁.mm, h₁.activeMswpId]
            split_ifs
            · exact .ok ⟨rfl, h₁⟩
            · refine .bind_same fun vicpte _ => .bind_same fun mm _ => ?_
              refine (h₁.dev.swapCpPage ?_).bind ?_
              · exact fun j hj _ => hv.loaded hpres hne j hj
              rintro dev dev' _ hd
              refine .bind_same fun pte _ => .bind_same fun mm _ => ?_
              have h₂ : Ctx.Agree V ⟨mm, dev, c₁.activeMswpId, c₁.mmvmLock⟩
                  ⟨mm, dev', c₁.activeMswpId, c₁'.mmvmLock⟩ := ⟨rfl, hd, rfl, h₁.mmvmLock⟩
              exact h₂.pgReturn pgn

theorem pgGetval {addr : ℤ} (hv : PageInView V c (pagingPgn addr)) (hb : ByteInView V c addr) :
    Both (SameResult V) (pgGetval c addr) (pgGetval c' addr) := by
  unfold BtlOs.pgGetval
  refine (h.pgGetpage hv).bind ?_
  rintro ⟨r, c₁⟩ ⟨r', c₁'⟩ hget ⟨rfl, (h₁ : c₁.Agree V c₁')⟩
  cases r' with
  | none => exact .ok ⟨rfl, h₁⟩
  | some fpn =>
      have hin := hb fpn c₁ (pgGetpage_ok hget).2
      refine (h₁.sysMemmap fun hswp => ?_).bind ?_
      · exact absurd hswp (memop_ne_swp (by simp))
      · rintro ⟨st, regs, c₂⟩ ⟨st', regs', c₂'⟩ _ ⟨rfl, hregs, h₂⟩
        obtain rfl := hregs (by rwa [int32_uint32, int32_phyAddr])
        simp only
        split_ifs
        · exact .ok ⟨rfl, h₂⟩
        · exact .ok ⟨rfl, h₂⟩

theorem pgSetval {addr : ℤ} (hv : PageInView V c (pagingPgn addr)) (value : Byte) :
    Both (SameResult V) (pgSetval c addr value) (pgSetval c' addr value) := by
  unfold BtlOs.pgSetval
  refine (h.pgGetpage hv).bind ?_
  rintro ⟨r, c₁⟩ ⟨r', c₁'⟩ _ ⟨rfl, (h₁ : c₁.Agree V c₁')⟩
  cases r' with
  | none => exact .ok ⟨rfl, h₁⟩
  | some fpn =>
      refine (h₁.sysMemmap fun hswp => ?_).bind ?_
      · exact absurd hswp (memop_ne_swp (by simp))
      · rintro ⟨st, regs, c₂⟩ ⟨st', regs', c₂'⟩ _ ⟨rfl, _, h₂⟩
        simp only
        split_ifs
        · exact .ok ⟨rfl, h₂⟩
        · exact .ok ⟨rfl, h₂⟩

theorem read {vmaid rgid offset : ℤ} (hv : getSymrgByid rgid = some rgid →
      PageInView V c (pagingPgn (rgAddr (c.mm.symrgtbl rgid.toNat) offset)))
    (hb : getSymrgByid rgid = some rgid → ByteInView V c (rgAddr (c.mm.symrgtbl rgid.toNat) offset)) :
    Both (fun x y => y.1 = x.1 ∧ SameResult V x.2 y.2) (read c vmaid rgid offset)
      (read c' vmaid rgid offset) := by
  unfold BtlOs.read
  apply h.lock.bind
  intro c₁ c₁' hl h
  obtain ⟨_, rfl⟩ := Ctx.lock_ok hl
  simp only [h.mm]
  refine .bind_same fun curVma _ => ?_
  split
  · rename_i currg _ hg _
    refine .bind_same fun rg hrg => ?_
    obtain ⟨_, rfl⟩ := Mm.symGet_eq_ok.mp hrg
    obtain rfl := getSymrgByid_eq_some hg
    refine (h.pgGetval ?_ ?_).bind ?_
    · exact ⟨(hv hg).victim, (hv hg).loaded⟩
    · exact fun fpn c₁ hs => hb hg fpn _ hs.of_locked
    · rintro ⟨data, c₂⟩ ⟨data', c₂'⟩ _ ⟨rfl, (h₂ : c₂.Agree V c₂')⟩
      exact .ok ⟨rfl, rfl, h₂.unlock⟩
  · exact .ok ⟨rfl, rfl, h⟩

theorem write {vmaid rgid offset : ℤ} (value : Byte) (hv : getSymrgByid rgid = some rgid →
      PageInView V c (pagingPgn (rgAddr (c.mm.symrgtbl rgid.toNat) offset))) :
    Both (SameResult V) (write c vmaid rgid offset value) (write c' vmaid rgid offset value) := by
  unfold BtlOs.write
  apply h.lock.bind
  intro c₁ c₁' hl h
  obtain ⟨_, rfl⟩ := Ctx.lock_ok hl
  simp only [h.mm]
  refine .bind_same fun curVma _ => ?_
  split
  · rename_i currg _ hg _
    refine .bind_same fun rg hrg => ?_
    obtain ⟨_, rfl⟩ := Mm.symGet_eq_ok.mp hrg
    obtain rfl := getSymrgByid_eq_some hg
    refine (h.pgSetval ⟨(hv hg).victim, (hv hg).loaded⟩ value).bind ?_
    rintro ⟨st, c₂⟩ ⟨st', c₂'⟩ _ ⟨rfl, (h₂ : c₂.Agree V c₂')⟩
    exact .ok ⟨rfl, h₂.unlock⟩
  · exact .ok ⟨rfl, h⟩

theorem liballoc (size regIndex : ℕ) :
    Both (SameResult V) (liballoc c size regIndex) (liballoc c' size regIndex) := by
  refine (h.alloc _ _ _).bind ?_
  rintro ⟨addr, c₁⟩ ⟨addr', c₁'⟩ _ ⟨rfl, h₁⟩
  exact .ok ⟨rfl, h₁⟩

theorem libread {source offset : ℕ} (data₀ : Byte)
    (hv : ∀ g, c.page (.read source offset data₀) = some g → PageInView V c g)
    (hb : ∀ g, c.page (.read source offset data₀) = some g → ByteInView V c (c.addr source offset)) :
    Both (fun x y => y.1 = x.1 ∧ SameResult V x.2 y.2) (libread c source offset data₀)
      (libread c' source offset data₀) := by
  refine (h.read (fun hrg => hv _ (c.page_read hrg offset data₀))
    fun hrg => hb _ (c.page_read hrg offset data₀)).bind ?_
  rintro ⟨val, data, c₁⟩ ⟨val', data', c₁'⟩ _ ⟨rfl, rfl, h₁⟩
  exact .ok ⟨rfl, rfl, h₁⟩

end Ctx.Agree

/-- A call whose copied bytes and read byte are in view. -/
structure CallInView [Header] (V : Dev → ℕ → Prop) (c : Ctx) (cl : Call) : Prop where
  page : ∀ g, c.page cl = some g → PageInView V c g
  byte : ∀ source offset data₀ g, cl = .read source offset data₀ → c.page cl = some g →
    ByteInView V c (c.addr source offset)
  swap : ∀ regs, cl = .memmap regs → int32 regs.a1 = sysmemSwpOp →
    ∀ j < pagingPagesz, V .mswp (cellAddr (int32 regs.a3) j).toNat →
      V .mram (cellAddr (int32 regs.a2) j).toNat

/-- **Agreement.**  A call inside the view returns the same result and the same value on both
machines, or is stuck on both, and leaves machines that agree. -/
theorem Ctx.Agree.call [Header] {c c' : Ctx} {cl : Call} (h : c.Agree V c')
    (hv : CallInView V c cl) :
    Both (fun x y => y.1 = x.1 ∧ SameResult V x.2 y.2) (c.call cl) (c'.call cl) := by
  cases cl with
  | alloc size regIndex =>
      refine (h.liballoc size regIndex).bind ?_
      rintro ⟨st, c₁⟩ ⟨st', c₁'⟩ _ ⟨rfl, h₁⟩
      exact .ok ⟨rfl, rfl, h₁⟩
  | free regIndex =>
      refine (h.free _).bind ?_
      rintro ⟨st, c₁⟩ ⟨st', c₁'⟩ _ ⟨rfl, h₁⟩
      exact .ok ⟨rfl, rfl, h₁⟩
  | read source offset data₀ =>
      refine (h.libread data₀ hv.page fun g => hv.byte _ _ _ g rfl).bind ?_
      rintro ⟨st, val, c₁⟩ ⟨st', val', c₁'⟩ _ ⟨rfl, rfl, h₁⟩
      exact .ok ⟨rfl, rfl, h₁⟩
  | write data destination offset =>
      refine (h.write data fun hrg => hv.page _ (c.page_write hrg data offset)).bind ?_
      rintro ⟨st, c₁⟩ ⟨st', c₁'⟩ _ ⟨rfl, h₁⟩
      exact .ok ⟨rfl, rfl, h₁⟩
  | memmap regs =>
      refine (h.sysMemmap (hv.swap regs rfl)).bind ?_
      rintro ⟨st, regs', c₁⟩ ⟨st', regs'', c₁'⟩ _ ⟨rfl, _, h₁⟩
      exact .ok ⟨rfl, rfl, h₁⟩

end

end BtlOs
