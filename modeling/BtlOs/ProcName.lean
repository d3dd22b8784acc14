import BtlOs.Killall
import BtlOs.Access
import BtlOs.Bounds

/-! # The loop that reads the name (`__sys_killall`)

The loop reads the bytes of a region up to one that is -1.  No counter bounds it, and neither the
size of `proc_name` nor that of the region is looked at: it ends in both where `libread` delivers
a -1 early enough, and only there (`name_fits_iff`).  On pages in RAM these are the bytes of the
region.  What the system call goes on with is what the loop leaves in `proc_name`
(`name_read_iff`). -/

namespace BtlOs

open CLang Header

section

variable [Header]

/-! ### The loop -/

/-- The locals of the loop: `i`, `data` and the cells of `proc_name` that were written. -/
structure NameLoop where
  i : ℕ
  data : ℕ
  procName : ℕ → Option Byte
  c : Ctx

namespace NameLoop

/-- Before the loop. -/
def start (c : Ctx) : NameLoop := ⟨0, 0, fun _ => none, c⟩

variable (memrg : ℕ) (data₀ : ℕ → Byte)

/-- One pass. -/
def pass (s : NameLoop) : Exec NameLoop := do
  let (_, data, c) ← libread s.c memrg s.i (data₀ s.i)
  require (s.i < procNameSize)
  let cell := if data = uint32 (-1) then 0 else uint32ToByte data
  .ok ⟨s.i + 1, data, Function.update s.procName s.i (some cell), c⟩

/-- At most `n` passes. -/
def passes : ℕ → NameLoop → Exec NameLoop
  | 0, s => .ok s
  | n + 1, s =>
      if s.data = uint32 (-1) then .ok s
      else do
        let s ← s.pass memrg data₀
        passes n s

end NameLoop

/-- The bytes of the region that an id names; any other id names no byte. -/
def Ctx.regionSize (c : Ctx) (memrg : ℕ) : ℕ :=
  if SymId (int32 memrg) then
    (c.mm.symrgtbl (int32 memrg).toNat).rgEnd - (c.mm.symrgtbl (int32 memrg).toNat).rgStart
  else 0

/-- **The name ends and fits.**  The loop terminates, it wrote cells of `proc_name` only, read
offsets of the region only, and the last cell is `'\0'`. -/
def NameFits (c : Ctx) (memrg : ℕ) (data₀ : ℕ → Byte) : Prop :=
  ∃ n s, (NameLoop.start c).passes memrg data₀ n = .ok s ∧ s.data = uint32 (-1) ∧
    s.i ≤ procNameSize ∧ s.i ≤ c.regionSize memrg ∧ s.procName (s.i - 1) = some 0

/-- What `libread` delivers at `n` offsets from `i` on. -/
def readOffsets (memrg : ℕ) (data₀ : ℕ → Byte) : ℕ → ℕ → Ctx → Exec (List ℕ × Ctx)
  | _, 0, c => .ok ([], c)
  | i, n + 1, c => do
      let (_, data, c) ← libread c memrg i (data₀ i)
      let (rest, c) ← readOffsets memrg data₀ (i + 1) n c
      .ok (data :: rest, c)

/-- A -1 is delivered before the end of the region and of `proc_name`. -/
def Ctx.Terminated (c : Ctx) (memrg : ℕ) (data₀ : ℕ → Byte) : Prop :=
  ∃ n, n ≤ procNameSize ∧ n ≤ c.regionSize memrg ∧
    ∃ data c', readOffsets memrg data₀ 0 n c = .ok (data, c') ∧ uint32 (-1) ∈ data

variable {c c' : Ctx} {memrg : ℕ} {data₀ : ℕ → Byte}

namespace NameLoop

variable {s s' : NameLoop}

theorem pass_ok (h : s.pass memrg data₀ = .ok s') : s.i < procNameSize ∧ s'.i = s.i + 1 ∧
    (∃ st, libread s.c memrg s.i (data₀ s.i) = .ok (st, s'.data, s'.c)) ∧
      s'.procName = Function.update s.procName s.i
        (some (if s'.data = uint32 (-1) then 0 else uint32ToByte s'.data)) := by
  unfold pass at h
  obtain ⟨⟨st, data, c₁⟩, hread, h⟩ := bind_eq_ok.mp h
  obtain ⟨_, hlt, h⟩ := bind_eq_ok.mp h
  obtain rfl := Except.ok.inj h
  exact ⟨require_eq_ok.mp hlt, rfl, ⟨st, hread⟩, rfl⟩

theorem passes_of_end {n : ℕ} (hs : s.data = uint32 (-1)) : s.passes memrg data₀ n = .ok s := by
  cases n with
  | zero => rfl
  | succ n => rw [passes, if_pos hs]

theorem pass_of_libread {st : ℤ} {data : ℕ} {c₁ : Ctx} (hi : s.i < procNameSize)
    (h : libread s.c memrg s.i (data₀ s.i) = .ok (st, data, c₁)) :
    ∃ s', s.pass memrg data₀ = .ok s' ∧ s'.i = s.i + 1 ∧ s'.data = data ∧ s'.c = c₁ := by
  unfold pass
  rw [h, ok_bind]
  dsimp only
  rw [require_pos hi, ok_bind]
  exact ⟨_, rfl, rfl, rfl, rfl⟩

theorem readOffsets_of_passes {n : ℕ} (hs : s.data ≠ uint32 (-1))
    (h : s.passes memrg data₀ n = .ok s') (hs' : s'.data = uint32 (-1)) :
    s'.i ≤ procNameSize ∧ ∃ m, s'.i = s.i + m ∧ ∃ data c₁,
      readOffsets memrg data₀ s.i m s.c = .ok (data, c₁) ∧ uint32 (-1) ∈ data := by
  induction n generalizing s with
  | zero =>
      obtain rfl := Except.ok.inj h
      exact absurd hs' hs
  | succ n ih =>
      unfold passes at h
      rw [if_neg hs] at h
      obtain ⟨s₁, hpass, h⟩ := bind_eq_ok.mp h
      obtain ⟨hi, hi₁, ⟨st, hread⟩, _⟩ := pass_ok hpass
      by_cases hd : s₁.data = uint32 (-1)
      · rw [passes_of_end hd] at h
        obtain rfl := Except.ok.inj h
        refine ⟨by omega, 1, hi₁, [s₁.data], s₁.c, ?_, by simp [hd]⟩
        simp [readOffsets, hread]
      · obtain ⟨hle, m, hm, data, c₁, hrest, hmem⟩ := ih hd h
        refine ⟨hle, m + 1, by omega, s₁.data :: data, c₁, ?_, List.mem_cons_of_mem _ hmem⟩
        rw [hi₁] at hrest
        simp [readOffsets, hread, hrest]

theorem passes_of_readOffsets {m : ℕ} {data : List ℕ} {c₁ : Ctx} (hs : s.data ≠ uint32 (-1))
    (h : readOffsets memrg data₀ s.i m s.c = .ok (data, c₁)) (hmem : uint32 (-1) ∈ data)
    (hm : s.i + m ≤ procNameSize) : ∃ n s', s.passes memrg data₀ n = .ok s' ∧
      s'.data = uint32 (-1) ∧ s'.i ≤ s.i + m ∧ s'.procName (s'.i - 1) = some 0 := by
  induction m generalizing s data with
  | zero =>
      obtain ⟨rfl, _⟩ := Prod.mk.inj (Except.ok.inj h)
      cases hmem
  | succ m ih =>
      unfold readOffsets at h
      obtain ⟨⟨st, d, c₂⟩, hread, h⟩ := bind_eq_ok.mp h
      obtain ⟨⟨rest, c₃⟩, hrest, h⟩ := bind_eq_ok.mp h
      obtain ⟨rfl, rfl⟩ := Prod.mk.inj (Except.ok.inj h)
      obtain ⟨s₁, hpass, hi₁, rfl, rfl⟩ := pass_of_libread (by omega) hread
      by_cases hd : s₁.data = uint32 (-1)
      · refine ⟨1, s₁, ?_, hd, by omega, ?_⟩
        · simp [passes, hs, hpass]
        · rw [hi₁, (pass_ok hpass).2.2.2, Nat.add_sub_cancel, Function.update_self, if_pos hd]
      · have hmem' := (List.mem_cons.mp hmem).resolve_left (Ne.symm hd)
        rw [← hi₁] at hrest
        obtain ⟨n, s', hn, hend, hle, hcell⟩ := ih hd hrest hmem' (by omega)
        refine ⟨n + 1, s', ?_, hend, by omega, hcell⟩
        rw [passes, if_neg hs, hpass, ok_bind, hn]

end NameLoop

theorem nameFits_iff_terminated : NameFits c memrg data₀ ↔ c.Terminated memrg data₀ := by
  have hstart : (NameLoop.start c).data ≠ uint32 (-1) := show 0 ≠ uint32 (-1) by decide
  constructor
  · rintro ⟨n, s, h, hs, _, hsize, _⟩
    obtain ⟨hle, m, hm, hread⟩ := NameLoop.readOffsets_of_passes hstart h hs
    change s.i = 0 + m at hm
    exact ⟨m, by omega, by omega, hread⟩
  · rintro ⟨m, hm, hsize, data, c', hread, hmem⟩
    obtain ⟨n, s, h, hs, hle, hcell⟩ :=
      NameLoop.passes_of_readOffsets (s := NameLoop.start c) hstart hread hmem
        (show 0 + m ≤ procNameSize by omega)
    change s.i ≤ 0 + m at hle
    exact ⟨n, s, h, hs, by omega, by omega, hcell⟩

/-! ### The name that is read -/

theorem NameLoop.procName_of_passes {s s' : NameLoop} {n j : ℕ}
    (h : s.passes memrg data₀ n = .ok s') (hj : j < s.i) : s'.procName j = s.procName j := by
  induction n generalizing s with
  | zero =>
      obtain rfl := Except.ok.inj h
      rfl
  | succ n ih =>
      unfold passes at h
      split_ifs at h with hd
      · obtain rfl := Except.ok.inj h
        rfl
      · obtain ⟨s₁, hpass, h⟩ := bind_eq_ok.mp h
        obtain ⟨_, hi₁, _, hcell⟩ := pass_ok hpass
        rw [ih h (by omega), hcell, Function.update_of_ne hj.ne]

/-- Where the loop ends, the name is what the cells before the last one hold. -/
theorem NameLoop.readNameFrom_of_passes {s s' : NameLoop} {n : ℕ} (hs : s.data ≠ uint32 (-1))
    (h : s.passes memrg data₀ n = .ok s') (hs' : s'.data = uint32 (-1)) :
    ∃ name, readNameFrom memrg data₀ (procNameSize - s.i) s.i s.c = .ok (name, s'.c) ∧
      s'.i = s.i + name.length + 1 ∧ s'.procName (s.i + name.length) = some 0 ∧
        ∀ j (hj : j < name.length), s'.procName (s.i + j) = some name[j] := by
  induction n generalizing s with
  | zero =>
      obtain rfl := Except.ok.inj h
      exact absurd hs' hs
  | succ n ih =>
      unfold passes at h
      rw [if_neg hs] at h
      obtain ⟨s₁, hpass, h⟩ := bind_eq_ok.mp h
      obtain ⟨hi, hi₁, ⟨st, hread⟩, hlast⟩ := pass_ok hpass
      have hcells : procNameSize - s.i = procNameSize - s₁.i + 1 := by omega
      rw [hcells]
      by_cases hd : s₁.data = uint32 (-1)
      · rw [passes_of_end hd] at h
        obtain rfl := Except.ok.inj h
        refine ⟨[], ?_, hi₁, ?_, by simp⟩
        · simp [readNameFrom, hread, hd]
        · simp [hlast, hd]
      · obtain ⟨name, hname, hlen, hzero, hcell⟩ := ih hd h
        have hfirst : s'.procName s.i = some (uint32ToByte s₁.data) := by
          rw [procName_of_passes h (by omega), hlast, Function.update_self, if_neg hd]
        refine ⟨uint32ToByte s₁.data :: name, ?_, ?_, ?_, fun j hj => ?_⟩
        · rw [hi₁] at hname
          rw [hi₁, readNameFrom, hread, ok_bind]
          simp only [if_neg hd, hname, ok_bind]
        · rw [List.length_cons]
          omega
        · rw [hi₁] at hzero
          rw [List.length_cons, show s.i + (name.length + 1) = s.i + 1 + name.length by omega, hzero]
        · cases j with
          | zero => exact hfirst
          | succ j =>
              have hj' : j < name.length := by simpa using hj
              have := hcell j hj'
              rw [hi₁] at this
              rw [show s.i + (j + 1) = s.i + 1 + j by omega, this]
              rfl

theorem NameLoop.passes_of_readNameFrom {s : NameLoop} {k : ℕ} {name : List Byte}
    (hs : s.data ≠ uint32 (-1)) (hk : s.i + k = procNameSize)
    (h : readNameFrom memrg data₀ k s.i s.c = .ok (name, c')) :
    ∃ n s', s.passes memrg data₀ n = .ok s' ∧ s'.data = uint32 (-1) := by
  induction k generalizing s name with
  | zero =>
      obtain ⟨_, _, h⟩ := bind_eq_ok.mp h
      cases h
  | succ k ih =>
      obtain ⟨⟨st, data, c₁⟩, hread, h⟩ := bind_eq_ok.mp h
      obtain ⟨s₁, hpass, hi₁, rfl, rfl⟩ := pass_of_libread (by omega) hread
      by_cases hd : s₁.data = uint32 (-1)
      · refine ⟨1, s₁, ?_, hd⟩
        simp [passes, hs, hpass]
      · simp only [if_neg hd] at h
        obtain ⟨⟨rest, c₂⟩, hrest, h⟩ := bind_eq_ok.mp h
        obtain ⟨rfl, rfl⟩ := Prod.mk.inj (Except.ok.inj h)
        rw [← hi₁] at hrest
        obtain ⟨n, s', hn, hend⟩ := ih hd (by omega) hrest
        refine ⟨n + 1, s', ?_, hend⟩
        rw [passes, if_neg hs, hpass, ok_bind, hn]

/-- **The name that `killall` looks for.**  It is read where the loop ends inside `proc_name`, and it
is what the cells hold up to the `'\0'` that the loop has written last. -/
theorem name_read_iff (c : Ctx) (memrg : ℕ) (data₀ : ℕ → Byte) (name : List Byte) (c' : Ctx) :
    readNameFrom memrg data₀ procNameSize 0 c = .ok (name, c') ↔
      ∃ n s, (NameLoop.start c).passes memrg data₀ n = .ok s ∧ s.data = uint32 (-1) ∧ s.c = c' ∧
        s.i = name.length + 1 ∧ s.procName name.length = some 0 ∧
          ∀ j (hj : j < name.length), s.procName j = some name[j] := by
  have hstart : (NameLoop.start c).data ≠ uint32 (-1) := show 0 ≠ uint32 (-1) by decide
  have hread : ∀ {n s}, (NameLoop.start c).passes memrg data₀ n = .ok s → s.data = uint32 (-1) →
      ∃ name₁, readNameFrom memrg data₀ procNameSize 0 c = .ok (name₁, s.c) ∧
        s.i = name₁.length + 1 ∧ s.procName name₁.length = some 0 ∧
          ∀ j (hj : j < name₁.length), s.procName j = some name₁[j] := by
    intro n s h hs
    simpa [NameLoop.start] using NameLoop.readNameFrom_of_passes hstart h hs
  constructor
  · intro h
    obtain ⟨n, s, hpasses, hs⟩ := NameLoop.passes_of_readNameFrom (s := NameLoop.start c) hstart
      (Nat.zero_add _) h
    obtain ⟨name₁, h₁, hcells⟩ := hread hpasses hs
    obtain ⟨rfl, rfl⟩ := Prod.mk.inj (Except.ok.inj (h.symm.trans h₁))
    exact ⟨n, s, hpasses, hs, rfl, hcells⟩
  · rintro ⟨n, s, hpasses, hs, rfl, hi, -, hcells⟩
    obtain ⟨name₁, h₁, hi₁, -, hcells₁⟩ := hread hpasses hs
    have hlen : name.length = name₁.length := by omega
    have hname : name = name₁ := by
      refine List.ext_getElem hlen fun j hj hj₁ => ?_
      exact Option.some.inj ((hcells j hj).symm.trans (hcells₁ j hj₁))
    rw [hname, h₁]

/-! ### Pages in RAM -/

/-- The page table gives the address a byte of the RAM. -/
structure Ctx.Loaded (c : Ctx) (addr : ℤ) : Prop where
  lt : pagingPgn addr < pagingMaxPgn
  present : pagingPagePresent (c.mm.pgd (pagingPgn addr)) = true
  nonneg : 0 ≤ phyAddr (pagingFpn (c.mm.pgd (pagingPgn addr))) (pagingOffst addr)
  bound : phyAddr (pagingFpn (c.mm.pgd (pagingPgn addr))) (pagingOffst addr) < c.dev.mram.maxsz

instance (c : Ctx) (addr : ℤ) : Decidable (c.Loaded addr) :=
  decidable_of_iff (pagingPgn addr < pagingMaxPgn ∧
      pagingPagePresent (c.mm.pgd (pagingPgn addr)) = true ∧
      0 ≤ phyAddr (pagingFpn (c.mm.pgd (pagingPgn addr))) (pagingOffst addr) ∧
      phyAddr (pagingFpn (c.mm.pgd (pagingPgn addr))) (pagingOffst addr) < c.dev.mram.maxsz)
    ⟨fun ⟨hlt, hp, h₀, h₁⟩ => ⟨hlt, hp, h₀, h₁⟩, fun ⟨hlt, hp, h₀, h₁⟩ => ⟨hlt, hp, h₀, h₁⟩⟩

theorem pgGetval_loaded {addr : ℤ} (hrd : c.dev.mram.rdmflg = true) (h : c.Loaded addr) :
    pgGetval c addr =
      .ok (c.byteAt addr, { c with mm := enlistPgnNode c.mm (pagingPgn addr) }) := by
  have hpte : c.mm.pgdGet (pagingPgn addr) = .ok (c.mm.pgd (pagingPgn addr)) :=
    Mm.pgdGet_eq_ok.mpr ⟨h.lt, rfl⟩
  have hpage : pgGetpage c (pagingPgn addr) =
      .ok (some (pagingFpn (c.mm.pgd (pagingPgn addr))),
        { c with mm := enlistPgnNode c.mm (pagingPgn addr) }) := by
    unfold pgGetpage pgReturn
    rw [hpte, ok_bind, if_pos h.present]
    dsimp only
    rw [show (enlistPgnNode c.mm (pagingPgn addr)).pgdGet (pagingPgn addr) =
      .ok (c.mm.pgd (pagingPgn addr)) from hpte]
    rfl
  unfold pgGetval
  dsimp only
  rw [hpage, ok_bind]
  simp only [sysMemmap_ioRead, int32_phyAddr, Memphy.read_eq hrd h.nonneg h.bound, ok_bind]
  rw [if_neg (show ¬ (0 : ℤ) = -1 by decide), uint32ToByte_byteToUint32,
    Ctx.byteAt_of_pte h.present rfl]

/-- A read of a byte of the RAM delivers it. -/
theorem libread_loaded {i : ℕ} {b : Byte} (hlock : c.mmvmLock = false) (harea : OneArea c.mm)
    (hrd : c.dev.mram.rdmflg = true) (hid : SymId (int32 memrg)) (h : c.Loaded (c.addr memrg i))
    (hb : c.byteAt (c.addr memrg i) = some b) (d : Byte) :
    libread c memrg i d = .ok (0, byteToUint32 b,
      { c with mm := enlistPgnNode c.mm (pagingPgn (c.addr memrg i)) }) := by
  have hnamed : NamedRg (int32 memrg) := ⟨hid.1, hid.2.le⟩
  have hval : pgGetval { c with mmvmLock := true }
      (rgAddr (c.mm.symrgtbl (int32 memrg).toNat) (int32 i)) = .ok (c.byteAt (c.addr memrg i), _) :=
    pgGetval_loaded (c := { c with mmvmLock := true }) hrd
      ⟨h.lt, h.present, h.nonneg, h.bound⟩
  unfold libread
  rw [read_named hlock harea hnamed, Mm.symGet_eq_ok.mpr ⟨hid, rfl⟩, ok_bind, hval, hb]
  simp [Ctx.unlock, hlock]
  rfl

omit [Header] in
theorem byteToUint32_eq_iff {b : Byte} : byteToUint32 b = uint32 (-1) ↔ b = -1 := by
  revert b
  decide

theorem readOffsets_loaded {n : ℕ} (byte : ℕ → Byte) (hlock : c.mmvmLock = false)
    (harea : OneArea c.mm) (hrd : c.dev.mram.rdmflg = true) (hid : SymId (int32 memrg)) (i : ℕ)
    (h : ∀ j, i ≤ j → j < i + n →
      c.Loaded (c.addr memrg j) ∧ c.byteAt (c.addr memrg j) = some (byte j)) :
    ∃ c', readOffsets memrg data₀ i n c =
      .ok ((List.range' i n).map fun j => byteToUint32 (byte j), c') := by
  induction n generalizing i c with
  | zero => exact ⟨c, rfl⟩
  | succ n ih =>
      obtain ⟨hload, hbyte⟩ := h i le_rfl (by omega)
      have hread := libread_loaded hlock harea hrd hid hload hbyte (data₀ i)
      obtain ⟨c', hrest⟩ := ih
        (c := { c with mm := enlistPgnNode c.mm (pagingPgn (c.addr memrg i)) }) hlock harea hrd
        (i + 1) fun j hj hj' => by
          obtain ⟨hl, hb⟩ := h j (by omega) (by omega)
          exact ⟨⟨hl.lt, hl.present, hl.nonneg, hl.bound⟩, hb⟩
      refine ⟨c', ?_⟩
      simp [readOffsets, hread, hrest, List.range'_succ]

/-- On pages in RAM the condition is about the bytes of the region. -/
theorem terminated_iff_of_loaded (hlock : c.mmvmLock = false) (harea : OneArea c.mm)
    (hrd : c.dev.mram.rdmflg = true) (hload : ∀ i < procNameSize, i < c.regionSize memrg →
      c.Loaded (c.addr memrg i)) :
    c.Terminated memrg data₀ ↔ ∃ i < procNameSize, i < c.regionSize memrg ∧
      c.byteAt (c.addr memrg i) = some (-1) := by
  have hsym : ∀ {i}, i < c.regionSize memrg → SymId (int32 memrg) := by
    intro i hi
    unfold Ctx.regionSize at hi
    by_contra hno
    rw [if_neg hno] at hi
    exact Nat.not_lt_zero i hi
  have hsome : ∀ {i}, c.Loaded (c.addr memrg i) →
      c.byteAt (c.addr memrg i) = some ((c.byteAt (c.addr memrg i)).getD 0) := by
    intro i hi
    rw [Ctx.byteAt_of_pte hi.present rfl]
    rfl
  have hlist : ∀ n, n ≤ procNameSize → n ≤ c.regionSize memrg → 0 < n →
      ∃ c', readOffsets memrg data₀ 0 n c = .ok ((List.range' 0 n).map
        fun j => byteToUint32 ((c.byteAt (c.addr memrg j)).getD 0), c') := by
    intro n hn hsize hpos
    refine readOffsets_loaded _ hlock harea hrd (hsym (show 0 < _ by omega)) 0 fun j _ hj => ?_
    have hl := hload j (by omega) (by omega)
    exact ⟨hl, hsome hl⟩
  constructor
  · rintro ⟨n, hn, hsize, data, c', hread, hmem⟩
    rcases Nat.eq_zero_or_pos n with rfl | hpos
    · obtain ⟨rfl, _⟩ := Prod.mk.inj (Except.ok.inj hread)
      cases hmem
    · obtain ⟨c'', hread'⟩ := hlist n hn hsize hpos
      obtain ⟨rfl, _⟩ := Prod.mk.inj (Except.ok.inj (hread'.symm.trans hread))
      obtain ⟨j, hj, hb⟩ := List.mem_map.mp hmem
      rw [List.mem_range'_1] at hj
      have hl := hload j (by omega) (by omega)
      rw [byteToUint32_eq_iff] at hb
      refine ⟨j, by omega, by omega, ?_⟩
      rw [hsome hl, hb]
  · rintro ⟨i, hi, hsize, hb⟩
    obtain ⟨c', hread⟩ := hlist (i + 1) hi hsize (by omega)
    refine ⟨i + 1, hi, hsize, _, c', hread, ?_⟩
    refine List.mem_map.mpr ⟨i, List.mem_range'_1.mpr (by omega), ?_⟩
    rw [hb, byteToUint32_eq_iff]
    rfl

/-- **When the name ends and fits.**  The loop has no other bound than the -1: it ends inside
`proc_name` and inside the region exactly where `libread` delivers one before the end of both.  On
pages in RAM this is a byte of the region. -/
theorem name_fits_iff (c : Ctx) (memrg : ℕ) (data₀ : ℕ → Byte) :
    (NameFits c memrg data₀ ↔ c.Terminated memrg data₀) ∧
    (c.mmvmLock = false → OneArea c.mm → c.dev.mram.rdmflg = true →
      (∀ i < procNameSize, i < c.regionSize memrg → c.Loaded (c.addr memrg i)) →
      (NameFits c memrg data₀ ↔ ∃ i < procNameSize, i < c.regionSize memrg ∧
        c.byteAt (c.addr memrg i) = some (-1))) := by
  refine ⟨nameFits_iff_terminated, fun hlock harea hrd hload => ?_⟩
  rw [nameFits_iff_terminated]
  exact terminated_iff_of_loaded hlock harea hrd hload

end

/-! ### Runs on a small machine -/

theorem name_fits_iff_sample : ∃ s pr, (@memLts header22).Run boot22 nameEvents s ∧
    s.procs 0 = some pr ∧ @NameFits header22 (s.ctx pr) 1 (fun _ => 0) := by
  let := header22
  have hsome : (Lts.replay Sys.next boot22 nameEvents).any (fun s => (s.procs 0).any fun pr =>
      (s.ctx pr).mmvmLock = false ∧ (s.ctx pr).dev.mram.rdmflg = true ∧
      (∀ i < procNameSize, (s.ctx pr).Loaded ((s.ctx pr).addr 1 i)) ∧
      1 < (s.ctx pr).regionSize 1 ∧
      (s.ctx pr).byteAt ((s.ctx pr).addr 1 1) = some (-1)) = true := by
    decide +kernel
  obtain ⟨s, hs, hout⟩ := (Option.any_eq_true _ _).mp hsome
  obtain ⟨pr, hp, hout⟩ := (Option.any_eq_true _ _).mp hout
  obtain ⟨hlock, hrd, hload, hsize, hbyte⟩ := of_decide_eq_true hout
  have hrun : memLts.Run boot22 nameEvents s := Lts.Run.of_replay (fun _ _ _ => memStep_of_next) hs
  have harea := (Sane.of_run booted_boot22 hrun).area 0 pr hp
  refine ⟨s, pr, hrun, hp, ?_⟩
  exact ((name_fits_iff (s.ctx pr) 1 fun _ => 0).2 hlock harea hrd fun i hi _ => hload i hi).mpr
    ⟨1, by decide, hsize, hbyte⟩

/-- A region of 300 zeros holds no -1: the loop writes `proc_name[100]`. -/
theorem name_does_not_fit : ∃ s pr, (@memLts header22).Run boot22
    [loadBlank 0, .call 0 (.alloc 300 1) 0 none] s ∧ s.procs 0 = some pr ∧
      (@NameLoop.passes header22 1 (fun _ => 0) 101 (NameLoop.start (s.ctx pr))) =
        .error .undefined ∧
        ¬ @NameFits header22 (s.ctx pr) 1 (fun _ => 0) := by
  let := header22
  have hsome : (Lts.replay Sys.next boot22 [loadBlank 0, .call 0 (.alloc 300 1) 0 none]).any
      (fun s => (s.procs 0).any fun pr =>
      (s.ctx pr).mmvmLock = false ∧ (s.ctx pr).dev.mram.rdmflg = true ∧
      (∀ i < procNameSize, (s.ctx pr).Loaded ((s.ctx pr).addr 1 i) ∧
        (s.ctx pr).byteAt ((s.ctx pr).addr 1 i) ≠ some (-1)) ∧
      (NameLoop.start (s.ctx pr)).passes 1 (fun _ => 0) 101 matches .error .undefined) = true := by
    decide +kernel
  obtain ⟨s, hs, hout⟩ := (Option.any_eq_true _ _).mp hsome
  obtain ⟨pr, hp, hout⟩ := (Option.any_eq_true _ _).mp hout
  obtain ⟨hlock, hrd, hload, hpasses⟩ := of_decide_eq_true hout
  have hrun : memLts.Run boot22 [loadBlank 0, .call 0 (.alloc 300 1) 0 none] s :=
    Lts.Run.of_replay (fun _ _ _ => memStep_of_next) hs
  have harea := (Sane.of_run booted_boot22 hrun).area 0 pr hp
  have hstuck : (NameLoop.start (s.ctx pr)).passes 1 (fun _ => 0) 101 = .error .undefined := by
    split at hpasses
    · assumption
    · cases hpasses
  refine ⟨s, pr, hrun, hp, hstuck, fun hfits => ?_⟩
  have hend := nameFits_iff_terminated.mp hfits
  rw [terminated_iff_of_loaded hlock harea hrd fun i hi _ => (hload i hi).1] at hend
  obtain ⟨i, hi, _, hbyte⟩ := hend
  exact (hload i hi).2 hbyte

end BtlOs
