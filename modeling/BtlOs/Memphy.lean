import BtlOs.Header
import Mathlib.Logic.Function.Iterate
import Mathlib.Logic.Function.Basic

/-! # Physical devices (`mm-memphy.c`)

A device is its storage, its access mode and its list of free frames.  An access outside
`storage[0 … maxsz - 1]` has no defined behaviour.  A read that fails leaves `*value` untouched,
which is the result `none`; the devices of this program are never `NULL`, so the tests for it are
left out.

`swapCpPage` copies a frame cell by cell between two devices of a machine, which may be the same
device. -/

namespace BtlOs

open CLang Header

/-- `struct memphy_struct`. -/
structure Memphy where
  storage : ℕ → Byte
  maxsz : ℤ
  rdmflg : Bool
  cursor : ℤ
  freeFpList : List ℕ

namespace Memphy

variable (mp : Memphy)

/-- `MEMPHY_mv_csr`: one modular increment for each step of the loop. -/
def mvCsr (offset : ℤ) : Memphy :=
  { mp with cursor := (fun c => (int32 (c + 1)).tmod mp.maxsz)^[(min offset mp.maxsz).toNat] 0 }

/-- `MEMPHY_seq_read`. -/
def seqRead (addr : ℤ) : Exec (Option Byte × Memphy) :=
  if !mp.rdmflg then .ok (none, mp)
  else do
    require (0 ≤ addr ∧ addr < mp.maxsz)
    .ok (some (mp.storage addr.toNat), mp.mvCsr addr)

/-- `MEMPHY_read`. -/
def read (addr : ℤ) : Exec (Option Byte × Memphy) :=
  if mp.rdmflg then do
    require (0 ≤ addr ∧ addr < mp.maxsz)
    .ok (some (mp.storage addr.toNat), mp)
  else mp.seqRead addr

/-- `MEMPHY_seq_write`. -/
def seqWrite (addr : ℤ) (value : Byte) : Exec (ℤ × Memphy) :=
  if !mp.rdmflg then .ok (-1, mp)
  else do
    require (0 ≤ addr ∧ addr < mp.maxsz)
    .ok (0, { mp.mvCsr addr with storage := Function.update mp.storage addr.toNat value })

/-- `MEMPHY_write`. -/
def write (addr : ℤ) (data : Byte) : Exec (ℤ × Memphy) :=
  if mp.rdmflg then do
    require (0 ≤ addr ∧ addr < mp.maxsz)
    .ok (0, { mp with storage := Function.update mp.storage addr.toNat data })
  else mp.seqWrite addr data

/-- `MEMPHY_get_freefp`: the head of the free list. -/
def getFreefp : Option (ℕ × Memphy) :=
  match mp.freeFpList with
  | [] => none
  | fpn :: rest => some (fpn, { mp with freeFpList := rest })

/-- `MEMPHY_put_freefp`. -/
def putFreefp (fpn : ℕ) : Memphy := { mp with freeFpList := fpn :: mp.freeFpList }

variable {mp}

theorem read_of_rdmflg (hr : mp.rdmflg = true) {a : ℕ} (ha : (a : ℤ) < mp.maxsz) :
    mp.read a = .ok (some (mp.storage a), mp) := by
  unfold read
  rw [if_pos hr, require_pos ⟨by omega, ha⟩]
  simp

theorem write_of_rdmflg (hr : mp.rdmflg = true) {a : ℕ} (ha : (a : ℤ) < mp.maxsz) (v : Byte) :
    mp.write a v = .ok (0, { mp with storage := Function.update mp.storage a v }) := by
  unfold write
  rw [if_pos hr, require_pos ⟨by omega, ha⟩]
  simp

theorem read_ok {addr : ℤ} {v : Option Byte} {mp' : Memphy} (h : mp.read addr = .ok (v, mp')) :
    mp' = mp ∧ (mp.rdmflg = false ∧ v = none ∨ mp.rdmflg = true ∧
      (0 ≤ addr ∧ addr < mp.maxsz) ∧ v = some (mp.storage addr.toNat)) := by
  unfold read seqRead at h
  cases hr : mp.rdmflg
  · simp only [hr, Bool.not_false, if_true] at h
    obtain ⟨rfl, rfl⟩ := Prod.mk.inj (Except.ok.inj h)
    exact ⟨rfl, .inl ⟨rfl, rfl⟩⟩
  · simp only [hr, if_true, bind_eq_ok, require_eq_ok] at h
    obtain ⟨_, ha, h⟩ := h
    obtain ⟨rfl, rfl⟩ := Prod.mk.inj (Except.ok.inj h)
    exact ⟨rfl, .inr ⟨rfl, ha, rfl⟩⟩

/-- What a write that returns has done: at most the addressed byte of the storage changes. -/
theorem write_ok {addr st : ℤ} {v : Byte} {mp' : Memphy} (h : mp.write addr v = .ok (st, mp')) :
    (mp.rdmflg = false ∧ mp' = mp ∧ st = -1) ∨
      (mp.rdmflg = true ∧ (0 ≤ addr ∧ addr < mp.maxsz) ∧ st = 0 ∧
        mp' = { mp with storage := Function.update mp.storage addr.toNat v }) := by
  unfold write seqWrite at h
  cases hr : mp.rdmflg
  · simp only [hr, Bool.not_false, if_true] at h
    obtain ⟨rfl, rfl⟩ := Prod.mk.inj (Except.ok.inj h)
    exact .inl ⟨rfl, rfl, rfl⟩
  · simp only [hr, if_true, bind_eq_ok, require_eq_ok] at h
    obtain ⟨_, ha, h⟩ := h
    obtain ⟨rfl, rfl⟩ := Prod.mk.inj (Except.ok.inj h)
    exact .inr ⟨rfl, ha, rfl, rfl⟩

end Memphy

/-! ### The devices of the machine -/

/-- The RAM and the active swap device. -/
inductive Dev where
  | mram
  | mswp
deriving DecidableEq, Repr

structure Devices where
  mram : Memphy
  mswp : Memphy

namespace Devices

/-- The device behind a pointer. -/
def get (ds : Devices) : Dev → Memphy
  | .mram => ds.mram
  | .mswp => ds.mswp

def set (ds : Devices) : Dev → Memphy → Devices
  | .mram, mp => { ds with mram := mp }
  | .mswp, mp => { ds with mswp := mp }

@[simp] theorem get_set_self (ds : Devices) (d : Dev) (mp : Memphy) : (ds.set d mp).get d = mp := by
  cases d <;> rfl

theorem get_set_of_ne (ds : Devices) {d d' : Dev} (h : d' ≠ d) (mp : Memphy) :
    (ds.set d mp).get d' = ds.get d' := by
  cases d <;> cases d' <;> first | rfl | exact absurd rfl h

@[simp] theorem set_get (ds : Devices) (d : Dev) : ds.set d (ds.get d) = ds := by
  cases d <;> rfl

end Devices

variable [Header]

/-- The address of a cell of a frame, in `int`. -/
def cellAddr (fpn : ℤ) (cellidx : ℕ) : ℤ := int32 (int32 (fpn * pagingPagesz) + cellidx)

/-- The value of a local that must have been assigned. -/
def assigned {α : Type} : Option α → Exec α
  | some a => .ok a
  | none => .error .undefined

/-- One iteration of the loop of `__swap_cp_page`. -/
def swapCpCell (ds : Devices) (mpsrc : Dev) (srcfpn : ℤ) (mpdst : Dev) (dstfpn : ℤ)
    (cellidx : ℕ) : Exec Devices := do
  let (data, mp) ← (ds.get mpsrc).read (cellAddr srcfpn cellidx)
  let ds := ds.set mpsrc mp
  let data ← assigned data
  let (_, mp) ← (ds.get mpdst).write (cellAddr dstfpn cellidx) data
  .ok (ds.set mpdst mp)

/-- `__swap_cp_page`: the remaining cells, counted down, and the index of the next one. -/
def swapCpCells (mpsrc : Dev) (srcfpn : ℤ) (mpdst : Dev) (dstfpn : ℤ) :
    ℕ → ℕ → Devices → Exec Devices
  | 0, _, ds => .ok ds
  | n + 1, cellidx, ds => do
      let ds ← swapCpCell ds mpsrc srcfpn mpdst dstfpn cellidx
      swapCpCells mpsrc srcfpn mpdst dstfpn n (cellidx + 1) ds

/-- `__swap_cp_page`. -/
def swapCpPage (ds : Devices) (mpsrc : Dev) (srcfpn : ℤ) (mpdst : Dev) (dstfpn : ℤ) :
    Exec Devices :=
  swapCpCells mpsrc srcfpn mpdst dstfpn pagingPagesz 0 ds

/-! ### What the copy does -/

/-- A device with another storage. -/
def Memphy.withStorage (mp : Memphy) (storage : ℕ → Byte) : Memphy := { mp with storage }

section

variable {ds ds' : Devices} {s d : Dev} {sf df : ℤ}

theorem swapCpCell_ok {i : ℕ} (h : swapCpCell ds s sf d df i = .ok ds') :
    ds' = ds ∨ ((ds.get d).rdmflg = true ∧ 0 ≤ cellAddr df i ∧ ds' = ds.set d
      ((ds.get d).withStorage (Function.update (ds.get d).storage (cellAddr df i).toNat
        ((ds.get s).storage (cellAddr sf i).toNat)))) := by
  unfold swapCpCell at h
  simp only [bind_eq_ok] at h
  obtain ⟨⟨data, mp⟩, hr, h⟩ := h
  obtain ⟨rfl, ⟨_, rfl⟩ | ⟨_, _, rfl⟩⟩ := Memphy.read_ok hr
  · exact absurd h (by simp [assigned])
  · rw [Devices.set_get] at h
    simp only [assigned, Except.ok.injEq, exists_eq_left'] at h
    obtain ⟨⟨st, mp⟩, hw, rfl⟩ := h
    rcases Memphy.write_ok hw with ⟨_, rfl, _⟩ | ⟨hrd, ha, _, rfl⟩
    · exact .inl (Devices.set_get ds d)
    · exact .inr ⟨hrd, ha.1, rfl⟩

/-- The copy changes nothing but bytes of the destination frame. -/
theorem swapCpCells_ok (n i : ℕ) {ds ds' : Devices}
    (h : swapCpCells s sf d df n i ds = .ok ds') :
    ∃ storage, ds' = ds.set d ((ds.get d).withStorage storage) ∧
      ∀ a : ℕ, (∀ j < i + n, i ≤ j → cellAddr df j ≠ a) → storage a = (ds.get d).storage a := by
  induction n generalizing i ds with
  | zero =>
      obtain rfl := Except.ok.inj h
      exact ⟨(ds.get d).storage, (Devices.set_get ds d).symm, fun _ _ => rfl⟩
  | succ n ih =>
      rw [swapCpCells, bind_eq_ok] at h
      obtain ⟨ds₁, h₁, h⟩ := h
      obtain ⟨storage, rfl, hst⟩ := ih (i + 1) h
      rcases swapCpCell_ok h₁ with rfl | ⟨_, h0, rfl⟩
      · exact ⟨storage, rfl, fun a ha => hst a fun j hj hij => ha j (by omega) (by omega)⟩
      · refine ⟨storage, by cases d <;> rfl, fun a ha => ?_⟩
        rw [hst a fun j hj hij => ha j (by omega) (by omega), Devices.get_set_self]
        have hne : a ≠ (cellAddr df i).toNat := by
          have := ha i (by omega) le_rfl
          omega
        exact Function.update_of_ne hne _ _

theorem swapCpPage_ok (h : swapCpPage ds s sf d df = .ok ds') :
    ∃ storage, ds' = ds.set d ((ds.get d).withStorage storage) ∧
      ∀ a : ℕ, (∀ j < pagingPagesz, cellAddr df j ≠ a) → storage a = (ds.get d).storage a := by
  obtain ⟨storage, h₁, h₂⟩ := swapCpCells_ok pagingPagesz 0 h
  exact ⟨storage, h₁, fun a ha => h₂ a fun j hj _ => ha j (by omega)⟩

end

/-! ### The devices of a new machine -/

/-- The list that `MEMPHY_format` builds: the frames from `iter` on. -/
def formatFrom : ℕ → ℕ → List ℕ
  | 0, _ => []
  | n + 1, iter => iter :: formatFrom n (iter + 1)

/-- `MEMPHY_format`: without a frame the free list stays as it is.  Only the loop over the other
frames ends the list, so behind a single frame is what the link that `malloc` left leads to. -/
def Memphy.format (mp : Memphy) (pagesz : ℤ) (fpNext₀ : List ℕ) : ℤ × Memphy :=
  let numfp := mp.maxsz.tdiv pagesz
  if numfp ≤ 0 then (-1, mp)
  else (0, { mp with
    freeFpList := 0 :: if numfp = 1 then fpNext₀ else formatFrom (numfp.toNat - 1) 1 })

/-- `init_memphy`. -/
def initMemphy (mp : Memphy) (maxSize randomflg : ℤ) (fpNext₀ : List ℕ) : Memphy :=
  let mp := { mp with storage := fun _ => 0, maxsz := maxSize }
  let (_, mp) := mp.format pagingPagesz fpNext₀
  let mp := { mp with rdmflg := randomflg ≠ 0 }
  if !mp.rdmflg then { mp with cursor := 0 } else mp

omit [Header] in
theorem formatFrom_eq (n iter : ℕ) : formatFrom n iter = List.range' iter n := by
  induction n generalizing iter with
  | zero => rfl
  | succ n ih => rw [formatFrom, ih, List.range'_succ]

/-- A random-access device of at least one frame, the list of which is ended. -/
theorem initMemphy_eq (mp : Memphy) (fpNext₀ : List ℕ) {maxSize : ℕ}
    (h : 0 < maxSize / pagingPagesz) (hnext : maxSize / pagingPagesz = 1 → fpNext₀ = []) :
    initMemphy mp maxSize 1 fpNext₀ = ⟨fun _ => 0, maxSize, true, mp.cursor,
      List.range (maxSize / pagingPagesz)⟩ := by
  have hdiv : (maxSize : ℤ).tdiv pagingPagesz = (maxSize / pagingPagesz : ℕ) := by
    rw [Int.tdiv_eq_ediv_of_nonneg (by omega)]
    rfl
  have hpos : ¬ ((maxSize / pagingPagesz : ℕ) : ℤ) ≤ 0 := by omega
  have hlist : (0 :: if ((maxSize / pagingPagesz : ℕ) : ℤ) = 1 then fpNext₀
      else formatFrom (maxSize / pagingPagesz - 1) 1) = List.range (maxSize / pagingPagesz) := by
    obtain ⟨k, hk⟩ := Nat.exists_eq_add_of_lt h
    rw [Nat.zero_add] at hk
    rw [hk] at hnext ⊢
    split_ifs with hone
    · obtain rfl : k = 0 := by omega
      rw [hnext rfl]
      rfl
    · rw [formatFrom_eq, List.range_eq_range', List.range'_succ]
      rfl
  unfold initMemphy Memphy.format
  simp only [hdiv, if_neg hpos, Int.toNat_natCast, hlist]
  simp

end BtlOs
