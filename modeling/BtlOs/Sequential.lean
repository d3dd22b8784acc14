import BtlOs.Memphy

/-! # Sequential and random-access devices

A sequence of `MEMPHY_read` and `MEMPHY_write` calls on one device, against a plain array of bytes.
A random-access device is the array.  The functions for a sequential device test `rdmflg` once more
and the other way round than the test that led to them, so such a device refuses every call; on a
random-access device they would do what they should (`seqRead_of_rdmflg`, `seqWrite_of_rdmflg`). -/

namespace BtlOs

open CLang Header

/-- A call with an address inside the device. -/
inductive DevAccess where
  | read (addr : ℕ)
  | write (addr : ℕ) (value : Byte)

def DevAccess.addr : DevAccess → ℕ
  | .read addr => addr
  | .write addr _ => addr

namespace Memphy

variable (mp : Memphy)

/-- The return code of a call, and `*value` where a read assigns it. -/
def access : DevAccess → Exec ((ℤ × Option Byte) × Memphy)
  | .read addr => do
      let (value, mp) ← mp.read addr
      .ok ((if value = none then -1 else 0, value), mp)
  | .write addr value => do
      let (st, mp) ← mp.write addr value
      .ok ((st, none), mp)

/-- A sequence of calls. -/
def accesses (mp : Memphy) : List DevAccess → Exec (List (ℤ × Option Byte) × Memphy)
  | [] => .ok ([], mp)
  | op :: ops => do
      let (r, mp) ← mp.access op
      let (rs, mp) ← mp.accesses ops
      .ok (r :: rs, mp)

end Memphy

/-- The same calls on an array of bytes: a read returns the last value written. -/
def arrayAccesses (m : ℕ → Byte) : List DevAccess → List (ℤ × Option Byte) × (ℕ → Byte)
  | [] => ([], m)
  | .read addr :: ops =>
      ((0, some (m addr)) :: (arrayAccesses m ops).1, (arrayAccesses m ops).2)
  | .write addr value :: ops =>
      ((0, none) :: (arrayAccesses (Function.update m addr value) ops).1,
        (arrayAccesses (Function.update m addr value) ops).2)

variable {mp : Memphy}

/-! ### The cursor -/

theorem Memphy.mvCsr_eq {a : ℕ} (ha : (a : ℤ) < mp.maxsz) (hint : mp.maxsz < 2 ^ 31) :
    mp.mvCsr a = { mp with cursor := a } := by
  have hiter : ∀ k : ℕ, k ≤ a → (fun c => (int32 (c + 1)).tmod mp.maxsz)^[k] 0 = (k : ℤ) := by
    intro k
    induction k with
    | zero => exact fun _ => rfl
    | succ k ih =>
        intro hk
        rw [Function.iterate_succ_apply', ih (by omega), int32_of_range (by omega) (by omega),
          Int.tmod_eq_of_lt (by omega) (by omega), Nat.cast_succ]
  have hmin : (min (a : ℤ) mp.maxsz).toNat = a := by omega
  unfold mvCsr
  rw [hmin, hiter a (Nat.le_refl a)]

theorem Memphy.seqRead_of_rdmflg (hr : mp.rdmflg = true) {a : ℕ} (ha : (a : ℤ) < mp.maxsz)
    (hint : mp.maxsz < 2 ^ 31) :
    mp.seqRead a = .ok (some (mp.storage a), { mp with cursor := a }) := by
  unfold seqRead
  rw [if_neg (by simp [hr]), require_pos ⟨by omega, ha⟩, ok_bind, Int.toNat_natCast,
    mvCsr_eq ha hint]

theorem Memphy.seqWrite_of_rdmflg (hr : mp.rdmflg = true) {a : ℕ} (ha : (a : ℤ) < mp.maxsz)
    (hint : mp.maxsz < 2 ^ 31) (v : Byte) : mp.seqWrite a v =
      .ok (0, { mp with cursor := a, storage := Function.update mp.storage a v }) := by
  unfold seqWrite
  rw [if_neg (by simp [hr]), require_pos ⟨by omega, ha⟩, ok_bind, Int.toNat_natCast,
    mvCsr_eq ha hint]

/-! ### The two kinds of devices -/

/-- A random-access device is an array of bytes. -/
theorem Memphy.accesses_of_rdmflg {ops : List DevAccess} : ∀ {mp : Memphy}, mp.rdmflg = true →
    (∀ op ∈ ops, (op.addr : ℤ) < mp.maxsz) → mp.accesses ops = .ok
      ((arrayAccesses mp.storage ops).1,
        { mp with storage := (arrayAccesses mp.storage ops).2 }) := by
  induction ops with
  | nil => exact fun _ _ => rfl
  | cons op ops ih =>
      intro mp hr hin
      have hrest : ∀ op ∈ ops, (op.addr : ℤ) < mp.maxsz :=
        fun op hop => hin op (List.mem_cons_of_mem _ hop)
      cases op with
      | read addr =>
          have ha : (addr : ℤ) < mp.maxsz := hin _ List.mem_cons_self
          rw [accesses, access, read_of_rdmflg hr ha]
          simp only [ok_bind, ih hr hrest, reduceCtorEq, if_false]
          rfl
      | write addr value =>
          have ha : (addr : ℤ) < mp.maxsz := hin _ List.mem_cons_self
          rw [accesses, access, write_of_rdmflg hr ha]
          have hstep := @ih { mp with storage := Function.update mp.storage addr value } hr hrest
          simp only [ok_bind, hstep]
          rfl

/-- A sequential device refuses every call. -/
theorem Memphy.accesses_of_not_rdmflg (hr : mp.rdmflg = false) (ops : List DevAccess) :
    mp.accesses ops = .ok (List.replicate ops.length (-1, none), mp) := by
  induction ops with
  | nil => rfl
  | cons op ops ih =>
      have hop : mp.access op = .ok ((-1, none), mp) := by
        cases op <;> simp [access, read, seqRead, write, seqWrite, hr]
      rw [accesses, hop]
      simp only [ok_bind, ih]
      rfl

theorem initMemphy_fields [Header] (mp : Memphy) (maxSize randomflg : ℤ) (fpNext₀ : List ℕ) :
    (initMemphy mp maxSize randomflg fpNext₀).storage = (fun _ => 0) ∧
      (initMemphy mp maxSize randomflg fpNext₀).maxsz = maxSize ∧
      (initMemphy mp maxSize randomflg fpNext₀).rdmflg = decide (randomflg ≠ 0) := by
  unfold initMemphy Memphy.format
  dsimp only
  split_ifs <;> exact ⟨rfl, rfl, rfl⟩

/-- The calls have the same results on both devices and leave the same bytes, and the cursor of the
sequential one is where it was last used. -/
def SameAccesses (seq rdm : Memphy) (ops : List DevAccess) : Prop :=
  ∃ rs seq' rdm', seq.accesses ops = .ok (rs, seq') ∧ rdm.accesses ops = .ok (rs, rdm') ∧
    seq'.storage = rdm'.storage ∧ ∀ op, ops.getLast? = some op → seq'.cursor = op.addr

theorem not_sameAccesses_cons {seq rdm : Memphy} (hs : seq.rdmflg = false) (hr : rdm.rdmflg = true)
    {op : DevAccess} {ops : List DevAccess}
    (hin : ∀ op' ∈ op :: ops, (op'.addr : ℤ) < rdm.maxsz) : ¬ SameAccesses seq rdm (op :: ops) := by
  rintro ⟨rs, seq', rdm', hseq, hrdm, _⟩
  rw [Memphy.accesses_of_not_rdmflg hs] at hseq
  rw [Memphy.accesses_of_rdmflg hr hin] at hrdm
  have hrs := (Prod.mk.inj (Except.ok.inj hseq)).1.trans (Prod.mk.inj (Except.ok.inj hrdm)).1.symm
  cases op with
  | read addr =>
      have hcode := congrArg Prod.fst (List.cons.inj hrs).1
      exact absurd hcode (by simp)
  | write addr value =>
      have hcode := congrArg Prod.fst (List.cons.inj hrs).1
      exact absurd hcode (by simp)

/-- **Sequential and random-access devices agree** on no call at all.  A random-access device is
right: it is an array of bytes. -/
theorem same_accesses_iff [Header] (mp mp' : Memphy) (fpNext₀ fpNext₀' : List ℕ) (maxSize : ℕ)
    (ops : List DevAccess) (hin : ∀ op ∈ ops, op.addr < maxSize) :
    (∃ rdm, (initMemphy mp' maxSize 1 fpNext₀').accesses ops =
      .ok ((arrayAccesses (fun _ => 0) ops).1, rdm) ∧
        rdm.storage = (arrayAccesses (fun _ => 0) ops).2) ∧
    (SameAccesses (initMemphy mp maxSize 0 fpNext₀) (initMemphy mp' maxSize 1 fpNext₀') ops ↔
      ops = []) := by
  obtain ⟨hst₀, _, hr₀⟩ := initMemphy_fields mp maxSize 0 fpNext₀
  obtain ⟨hst₁, hsz₁, hr₁⟩ := initMemphy_fields mp' maxSize 1 fpNext₀'
  have hin' : ∀ op ∈ ops, (op.addr : ℤ) < (initMemphy mp' maxSize 1 fpNext₀').maxsz := by
    intro op hop
    rw [hsz₁]
    exact_mod_cast hin op hop
  have hrdm := Memphy.accesses_of_rdmflg hr₁ hin'
  rw [hst₁] at hrdm
  refine ⟨⟨_, hrdm, rfl⟩, fun hsame => ?_, ?_⟩
  · cases ops with
    | nil => rfl
    | cons op ops => exact absurd hsame (not_sameAccesses_cons hr₀ hr₁ hin')
  · rintro rfl
    exact ⟨[], _, _, rfl, rfl, hst₀.trans hst₁.symm, by simp⟩

/-- A write and a read of address 0 of a device of 256 bytes. -/
def accessSample : List DevAccess := [.write 0 7, .read 0]

theorem same_accesses_iff_sample :
    (∃ rdm, (@initMemphy header22 ⟨fun _ => 0, 0, false, 0, []⟩ (256 : ℕ) 1 []).accesses
      accessSample = .ok ([(0, none), (0, some 7)], rdm)) ∧
    ¬ SameAccesses (@initMemphy header22 ⟨fun _ => 0, 0, false, 0, []⟩ (256 : ℕ) 0 [])
      (@initMemphy header22 ⟨fun _ => 0, 0, false, 0, []⟩ (256 : ℕ) 1 []) accessSample := by
  have hall := @same_accesses_iff header22 ⟨fun _ => 0, 0, false, 0, []⟩
    ⟨fun _ => 0, 0, false, 0, []⟩ [] [] 256 accessSample (by simp [accessSample, DevAccess.addr])
  obtain ⟨rdm, hrdm, _⟩ := hall.1
  exact ⟨⟨rdm, hrdm⟩, fun hsame => by cases hall.2.mp hsame⟩

/-- A read of address 0 fails on the sequential device alone. -/
theorem not_same_accesses :
    ¬ SameAccesses (@initMemphy header22 ⟨fun _ => 0, 0, false, 0, []⟩ (256 : ℕ) 0 [])
      (@initMemphy header22 ⟨fun _ => 0, 0, false, 0, []⟩ (256 : ℕ) 1 []) [.read 0] :=
  not_sameAccesses_cons (by decide) (by decide) (by decide)

end BtlOs
