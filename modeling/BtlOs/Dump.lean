import BtlOs.PlainMemory
import BtlOs.Lib.Printf

/-! # What the memory system prints (`mm.c`, `mm-memphy.c`, `libmem.c`)

With `IODUMP` and `PAGETBL_DUMP` each `libread` and `libwrite` prints the operands of the call, the
page table of the process and the bytes of the RAM that are not 0.  These texts are all that a user
of the program sees of the memory, and they show it: from the output of a call its operands can be
read back, and with them the page table and every byte of the heap of the process. -/

namespace BtlOs

open CLang Header Stdio Printf Decoding

/-! ### The printing functions -/

/-- A line of `print_pgtbl`. -/
def pgtblLine (x : ℕ × Pte) : Text :=
  (printfZero 8 (4 * x.1) ++ chars ": ") ++ (printfx 8 x.2.toNat ++ chars "\n")

/-- A line of `MEMPHY_dump`. -/
def byteLine (x : ℕ × Byte) : Text :=
  chars "BYTE " ++ ((printfX 8 x.1 ++ chars ": ") ++ (printfD 0 x.2.toInt ++ chars "\n"))

def dumpHead : Text := chars "=============== PHYSICAL MEMORY DUMP ===================\n"

def dumpEnd : Text :=
  chars "====================PHYSICAL MEMORY DUMP END ============================\n"

namespace Memphy

variable (mp : Memphy)

/-- The addresses with a byte that is not 0, in the order of the loop, and the bytes. -/
def nonzero : List (ℕ × Byte) :=
  ((List.range mp.maxsz.toNat).filter fun addr => mp.storage addr ≠ 0).map fun addr =>
    (addr, mp.storage addr)

theorem mem_nonzero {x : ℕ × Byte} :
    x ∈ mp.nonzero ↔ x.1 < mp.maxsz.toNat ∧ mp.storage x.1 ≠ 0 ∧ mp.storage x.1 = x.2 := by
  obtain ⟨addr, b⟩ := x
  constructor
  · intro hmem
    obtain ⟨a, ha, he⟩ := List.mem_map.mp hmem
    obtain ⟨rfl, rfl⟩ := Prod.mk.inj he
    obtain ⟨hlt, hne⟩ := List.mem_filter.mp ha
    exact ⟨List.mem_range.mp hlt, of_decide_eq_true hne, rfl⟩
  · rintro ⟨hlt, hne, he⟩
    obtain rfl : mp.storage addr = b := he
    exact List.mem_map.mpr
      ⟨addr, List.mem_filter.mpr ⟨List.mem_range.mpr hlt, decide_eq_true hne⟩, rfl⟩

/-- Where the lines are the same, the bytes are: an address without a line has a 0. -/
theorem storage_of_nonzero {mp mp' : Memphy} (h : mp.nonzero = mp'.nonzero) {a : ℕ}
    (ha : a < mp.maxsz.toNat) (ha' : a < mp'.maxsz.toNat) : mp'.storage a = mp.storage a := by
  by_cases hzero : mp.storage a = 0
  · by_contra hne
    have hne' : mp'.storage a ≠ 0 := fun he => hne (he.trans hzero.symm)
    have hmem : (a, mp'.storage a) ∈ mp.nonzero := h ▸ mp'.mem_nonzero.mpr ⟨ha', hne', rfl⟩
    exact hne (mp.mem_nonzero.mp hmem).2.2.symm
  · have hmem : (a, mp.storage a) ∈ mp'.nonzero := h ▸ mp.mem_nonzero.mpr ⟨ha, hzero, rfl⟩
    exact (mp'.mem_nonzero.mp hmem).2.2

/-- `MEMPHY_dump`. -/
def dump : Text × ℤ := (dumpHead ++ (mp.nonzero.flatMap byteLine ++ dumpEnd), 0)

end Memphy

section

variable [Header]

/-- The loop of `print_pgtbl`: `n` pages from `pgit` on. -/
def pgtblLoop (mm : Mm) : ℕ → ℕ → Exec Text
  | 0, _ => .ok []
  | n + 1, pgit => do
      let pte ← mm.pgdGet pgit
      let rest ← pgtblLoop mm n (pgit + 1)
      .ok (pgtblLine (pgit, pte) ++ rest)

/-- `print_pgtbl` of the addresses from `start` to `last`; `2 ^ 32 - 1` stands for the end of
area 0. -/
def printPgtbl (mm : Mm) (start last : ℕ) : Exec (Text × ℤ) := do
  let last ← if last = 2 ^ 32 - 1 then do
      let curVma ← getVmaByNum mm 0
      let vma ← mm.area curVma
      .ok (uint32 vma.vmEnd)
    else .ok last
  let pgnStart := pagingPgn start
  let lines ← pgtblLoop mm (pagingPgn last - pgnStart) pgnStart
  .ok (chars "print_pgtbl: " ++ (printfD 0 (int32 start) ++ (chars " - " ++
    (printfD 0 (int32 last) ++ (chars "\n" ++ lines)))), 0)

/-- The function that prints. -/
inductive Printer where
  | libread
  | libwrite
deriving DecidableEq

/-- What it prints before the operands. -/
def Printer.head (debug : Bool) : Printer → Text
  | libread =>
      (if debug then chars "=========== PHYSICAL MEMORY AFTER READING ===========\n" else []) ++
        chars "read region="
  | libwrite =>
      (if debug then chars "=========== PHYSICAL MEMORY AFTER WRITING ===========\n" else []) ++
        chars "write region="

/-- What `libread` and `libwrite` print at their end, with `IODUMP` and `PAGETBL_DUMP`; `debug` is
whether `DEBUG` is defined. -/
def ioDump (debug : Bool) (c : Ctx) (fn : Printer) (region offset : ℕ) (data : Byte) :
    Exec Text := do
  let (table, _) ← printPgtbl c.mm 0 (2 ^ 32 - 1)
  .ok (fn.head debug ++ (printfD 0 (int32 region) ++ (chars " offset=" ++
    (printfD 0 (int32 offset) ++ (chars " value=" ++ (printfD 0 data.toInt ++ (chars "\n" ++
      (table ++ c.dev.mram.dump.1))))))))

end

/-! ### What a text shows -/

/-- The data of a text. -/
structure Shown where
  fn : Printer
  region : ℤ
  offset : ℤ
  value : ℤ
  last : ℤ
  table : List (ℕ × Pte)
  bytes : List (ℕ × Byte)

namespace Shown

/-- The fields in the order in which they are printed. -/
def fields (x : Shown) : Printer × ℤ × ℤ × ℤ × ℤ × List (ℕ × Pte) × List (ℕ × Byte) :=
  (x.fn, x.region, x.offset, x.value, x.last, x.table, x.bytes)

def text (debug : Bool) (x : Shown) : Text :=
  x.fn.head debug ++ ((printfD 0 x.region ++ chars " offset=") ++
    ((printfD 0 x.offset ++ chars " value=") ++
      ((printfD 0 x.value ++ chars "\nprint_pgtbl: 0 - ") ++ ((printfD 0 x.last ++ chars "\n") ++
        ((x.table.flatMap pgtblLine ++ dumpHead) ++ (x.bytes.flatMap byteLine ++ dumpEnd))))))

end Shown

theorem Printer.head_ne (debug : Bool) (r s : Text) :
    Printer.libread.head debug ++ r ≠ Printer.libwrite.head debug ++ s := by
  intro he
  cases debug <;> simp [Printer.head, chars] at he

theorem decodes_head (debug : Bool) :
    Decodes (fun _ : Printer => True) fun fn => fn.head debug := by
  intro fn fn' r s _ _ he
  obtain rfl : fn = fn' := by
    cases fn with
    | libread =>
        cases fn' with
        | libread => rfl
        | libwrite => exact absurd he (Printer.head_ne debug r s)
    | libwrite =>
        cases fn' with
        | libread => exact absurd he.symm (Printer.head_ne debug s r)
        | libwrite => rfl
  exact ⟨rfl, List.append_cancel_left he⟩

theorem decodes_pgtblLine : Decodes (fun _ : ℕ × Pte => True) pgtblLine := by
  have hpage : Decodes (fun _ : ℕ => True) fun pgit => printfZero 8 (4 * pgit) ++ chars ": " :=
    (decodes_printfZero 8 (by decide)).comap (fun pgit => 4 * pgit) (fun _ _ => trivial)
      fun _ _ _ _ he => Nat.eq_of_mul_eq_mul_left (by decide) he
  have hpte : Decodes (fun _ : Pte => True) fun pte => printfx 8 pte.toNat ++ chars "\n" :=
    (decodes_printfx 8 (by decide)).comap BitVec.toNat (fun _ _ => trivial)
      fun _ _ _ _ he => BitVec.eq_of_toNat_eq he
  exact (hpage.prod hpte).mono fun _ _ => ⟨trivial, trivial⟩

theorem decodes_byteLine : Decodes (fun _ : ℕ × Byte => True) byteLine := by
  have haddr : Decodes (fun _ : ℕ => True) fun addr => printfX 8 addr ++ chars ": " :=
    decodes_printfX 8 (by decide)
  have hbyte : Decodes (fun _ : Byte => True) fun b => printfD 0 b.toInt ++ chars "\n" :=
    (decodes_printfD 0 (by decide)).comap BitVec.toInt (fun _ _ => trivial)
      fun _ _ _ _ he => BitVec.eq_of_toInt_eq he
  exact ((haddr.prod hbyte).mono fun _ _ => ⟨trivial, trivial⟩).after (chars "BYTE ")

/-- A line of the page table starts with a digit. -/
theorem pgtblLine_ne_dumpHead (x : ℕ × Pte) (r s : Text) : pgtblLine x ++ r ≠ dumpHead ++ s := by
  intro he
  have hread : scanNumber (pgtblLine x ++ r) = (some ((4 * x.1 : ℕ) : ℤ),
      chars ": " ++ ((printfx 8 x.2.toNat ++ chars "\n") ++ r)) := by
    unfold pgtblLine
    rw [List.append_assoc, List.append_assoc]
    exact scanNumber_printfZero 8 _ (head_append (by decide) _)
  have hnone : (scanNumber (dumpHead ++ s)).1 = none := rfl
  rw [← he, hread] at hnone
  cases hnone

theorem byteLine_ne_dumpEnd (x : ℕ × Byte) (r s : Text) : byteLine x ++ r ≠ dumpEnd ++ s := by
  intro he
  have hhead := congrArg List.head? he
  simp [byteLine, dumpEnd, chars] at hhead

/-- **The texts can be read back.** -/
theorem decodes_text (debug : Bool) :
    Decodes (fun _ : Shown => True) fun x => x.text debug := by
  have htable : Decodes (fun _ : List (ℕ × Pte) => True) fun l => l.flatMap pgtblLine ++ dumpHead :=
    (decodes_pgtblLine.list fun x r s _ => pgtblLine_ne_dumpHead x r s).mono
      fun _ _ _ _ => trivial
  have hbytes : Decodes (fun _ : List (ℕ × Byte) => True) fun l => l.flatMap byteLine ++ dumpEnd :=
    (decodes_byteLine.list fun x r s _ => byteLine_ne_dumpEnd x r s).mono fun _ _ _ _ => trivial
  have hfields := (decodes_head debug).prod ((decodes_printfD 0 (t := chars " offset=")
    (by decide)).prod ((decodes_printfD 0 (t := chars " value=") (by decide)).prod
      ((decodes_printfD 0 (t := chars "\nprint_pgtbl: 0 - ") (by decide)).prod
        ((decodes_printfD 0 (t := chars "\n") (by decide)).prod (htable.prod hbytes)))))
  refine hfields.comap Shown.fields (fun _ _ => by simp) fun x y _ _ he => ?_
  cases x
  cases y
  simpa [Shown.fields] using he

/-! ### The text of a process -/

section

variable [Header]

theorem pgtblLoop_eq {mm : Mm} (n : ℕ) : ∀ pgit, pgit + n ≤ pagingMaxPgn →
    pgtblLoop mm n pgit =
      .ok (((List.range' pgit n).map fun g => (g, mm.pgd g)).flatMap pgtblLine) := by
  induction n with
  | zero => exact fun _ _ => rfl
  | succ n ih =>
      intro pgit hle
      rw [pgtblLoop, Mm.pgdGet_eq_ok.mpr ⟨by omega, rfl⟩, ok_bind, ih (pgit + 1) (by omega), ok_bind,
        List.range'_succ]
      rfl

/-- What is shown of a process. -/
def Ctx.shown (c : Ctx) (fn : Printer) (region offset : ℕ) (data : Byte) : Shown where
  fn := fn
  region := int32 region
  offset := int32 offset
  value := data.toInt
  last := heapEnd c.mm.mmap
  table := (List.range (heapEnd c.mm.mmap / pagingPagesz)).map fun g => (g, c.mm.pgd g)
  bytes := c.dev.mram.nonzero

section

variable [PageLaws]

theorem printPgtbl_eq {mm : Mm} {vma : VmArea} (h : HeapOk mm vma)
    (hmax : vma.vmEnd < pagingMaxPgn * pagingPagesz) (hint : vma.vmEnd < 2 ^ 31) :
    printPgtbl mm 0 (2 ^ 32 - 1) = .ok (chars "print_pgtbl: 0 - " ++ (printfD 0 vma.vmEnd ++
      (chars "\n" ++ ((List.range (vma.vmEnd / pagingPagesz)).map fun g =>
        (g, mm.pgd g)).flatMap pgtblLine)), 0) := by
  have hlast : uint32 vma.vmEnd = vma.vmEnd := by
    unfold uint32
    omega
  have hzero : pagingPgn 0 = 0 := by
    simpa using PageLaws.pgn 0 (by omega)
  have hpages : vma.vmEnd / pagingPagesz ≤ pagingMaxPgn :=
    Nat.div_le_of_le_mul (by rw [Nat.mul_comm]; exact hmax.le)
  unfold printPgtbl
  rw [if_pos rfl, h.getVmaByNum, ok_bind, h.area, ok_bind, ok_bind, hlast]
  dsimp only
  rw [PageLaws.pgn _ hmax, Nat.cast_zero, hzero, Nat.sub_zero, pgtblLoop_eq _ _ (by omega), ok_bind,
    int32_natCast hint, List.range_eq_range', int32_zero]
  rfl

theorem ioDump_eq {c : Ctx} {vma : VmArea} (h : HeapOk c.mm vma)
    (hmax : vma.vmEnd < pagingMaxPgn * pagingPagesz) (hint : vma.vmEnd < 2 ^ 31) (debug : Bool)
    (fn : Printer) (region offset : ℕ) (data : Byte) :
    ioDump debug c fn region offset data = .ok ((c.shown fn region offset data).text debug) := by
  have hnewline : chars "\nprint_pgtbl: 0 - " = chars "\n" ++ chars "print_pgtbl: 0 - " := rfl
  unfold ioDump
  rw [printPgtbl_eq h hmax hint, ok_bind]
  simp only [Ctx.shown, Shown.text, h.heapEnd, Memphy.dump, List.append_assoc, hnewline]

variable {n n' m m' : ℕ} {s₀ s s₀' s' : Sys} {M M' : Plain} {es es' : List Event} {p p' : ℕ}
  {pr pr' : Process}

theorem PlainInv.phys_lt (h : PlainInv n s M) (hp : s.procs p = some pr) {a : ℕ}
    (ha : a < heapEnd pr.mm.mmap) : phys pr.mm a < s.dev.mram.maxsz.toNat := by
  have hfpn : pagingFpn (pr.mm.pgd (a / pagingPagesz)) < n := by
    refine h.own_lt (p, a / pagingPagesz) _ ?_
    rw [own_of_proc hp, heapFrame_of_lt]
    exact lt_of_le_of_lt (Nat.div_mul_le_self a _) ha
  have hmod := Nat.mod_lt a pagesz_pos
  have hmul := Nat.mul_le_mul_right pagingPagesz (Nat.succ_le_of_lt hfpn)
  have hmaxsz := h.maxsz
  have hphys : phys pr.mm a < n * pagingPagesz := by
    unfold phys
    rw [Nat.succ_mul] at hmul
    omega
  have hcast : ((n * pagingPagesz : ℕ) : ℤ) ≤ s.dev.mram.maxsz := by exact_mod_cast hmaxsz
  omega

/-- With fewer than `PAGING_MAX_PGN` frames each call prints its text. -/
theorem PlainInv.ioDump (h : PlainInv n s M) (hM : n < pagingMaxPgn) (hp : s.procs p = some pr)
    (debug : Bool) (fn : Printer) (region offset : ℕ) (data : Byte) :
    ioDump debug (s.ctx pr) fn region offset data =
      .ok (((s.ctx pr).shown fn region offset data).text debug) := by
  obtain ⟨vma, hok, hroom⟩ := h.heap.heap p pr hp
  have hend : vma.vmEnd ≤ n * pagingPagesz := le_trans (Nat.le_add_right _ _) hroom
  have hbytes := h.bytes
  have hmul := Nat.mul_lt_mul_of_pos_right hM pagesz_pos
  exact ioDump_eq hok (hend.trans_lt hmul) (hend.trans_lt hbytes) debug fn region offset data

/-- The heaps of two processes have the same pages, and the same bytes in their frames. -/
structure SameHeap (s : Sys) (M : Plain) (p : ℕ) (pr : Process) (s' : Sys) (M' : Plain) (p' : ℕ)
    (pr' : Process) : Prop where
  heapEnd : heapEnd pr'.mm.mmap = heapEnd pr.mm.mmap
  pgd : ∀ g, g * pagingPagesz < BtlOs.heapEnd pr.mm.mmap → pr'.mm.pgd g = pr.mm.pgd g
  byte : ∀ a < BtlOs.heapEnd pr.mm.mmap,
    s'.dev.mram.storage (phys pr'.mm a) = s.dev.mram.storage (phys pr.mm a)
  /-- Regions in the same place have the same last writes. -/
  lastWrite : ∀ regIndex b b' offset w w', M p regIndex = some b → M' p' regIndex = some b' →
    (pr'.mm.symrgtbl regIndex).rgStart = (pr.mm.symrgtbl regIndex).rgStart →
      offset < b.size → offset < b'.size → M.lastWrite p regIndex offset = some w →
        M'.lastWrite p' regIndex offset = some w' → w' = w

theorem PlainInv.sameHeap (h : PlainInv n s M) (h' : PlainInv n' s' M') (hp : s.procs p = some pr)
    (hp' : s'.procs p' = some pr') (hlast : heapEnd pr'.mm.mmap = heapEnd pr.mm.mmap)
    (hpgd : ∀ g, g * pagingPagesz < heapEnd pr.mm.mmap → pr'.mm.pgd g = pr.mm.pgd g)
    (hbytes : s.dev.mram.nonzero = s'.dev.mram.nonzero) : SameHeap s M p pr s' M' p' pr' := by
  have hbyte : ∀ a < heapEnd pr.mm.mmap,
      s'.dev.mram.storage (phys pr'.mm a) = s.dev.mram.storage (phys pr.mm a) := by
    intro a ha
    have hphys : phys pr'.mm a = phys pr.mm a := by
      unfold phys
      rw [hpgd _ (lt_of_le_of_lt (Nat.div_mul_le_self a _) ha)]
    have hlt' := h'.phys_lt hp' (hlast ▸ ha)
    rw [hphys] at hlt' ⊢
    exact Memphy.storage_of_nonzero hbytes (h.phys_lt hp ha) hlt'
  refine ⟨hlast, hpgd, hbyte, fun regIndex b b' offset w w' hb hb' hstart hoff hoff' hw hw' => ?_⟩
  have hdata : b.data offset = some w := by simpa [Plain.lastWrite, hb] using hw
  have hdata' : b'.data offset = some w' := by simpa [Plain.lastWrite, hb'] using hw'
  have hsame := hbyte _ (h.addr_lt hp hb hoff)
  rw [h.data p pr regIndex b offset w hp hb hoff hdata, ← hstart,
    h'.data p' pr' regIndex b' offset w' hp' hb' hoff' hdata'] at hsame
  exact hsame

/-- **The text of a call shows the memory.**  In all states that processes reach by calls inside
their contract, on one machine or on two: where two outputs that begin with the texts of two calls
are the same, the calls have the same operands, and their processes the same heap. -/
theorem dump_shows_memory [PteLaws] (hM : n < pagingMaxPgn) (hfpn : FpnFits n)
    (hM' : n' < pagingMaxPgn) (hfpn' : FpnFits n') (h₀ : Booted n m s₀) (h₀' : Booted n' m' s₀')
    (hr : plainLts.Run (s₀, Plain.empty) es (s, M))
    (hr' : plainLts.Run (s₀', Plain.empty) es' (s', M')) (hp : s.procs p = some pr)
    (hp' : s'.procs p' = some pr') (debug : Bool) (fn fn' : Printer)
    (region offset region' offset' : ℕ) (data data' : Byte) :
    ∃ t t', ioDump debug (s.ctx pr) fn region offset data = .ok t ∧
      ioDump debug (s'.ctx pr') fn' region' offset' data' = .ok t' ∧
      ∀ r r', t ++ r = t' ++ r' → fn = fn' ∧ int32 region = int32 region' ∧
        int32 offset = int32 offset' ∧ data = data' ∧ SameHeap s M p pr s' M' p' pr' ∧ r = r' := by
  have h := PlainInv.of_run hM.le hfpn h₀ hr
  have h' := PlainInv.of_run hM'.le hfpn' h₀' hr'
  refine ⟨_, _, h.ioDump hM hp debug fn region offset data,
    h'.ioDump hM' hp' debug fn' region' offset' data', fun r r' he => ?_⟩
  obtain ⟨hshown, hrest⟩ := decodes_text debug _ _ r r' trivial trivial he
  obtain ⟨hfn, hregion, hoffset, hvalue, hlast, htable, hbytes⟩ := Shown.mk.inj hshown
  have hlast : heapEnd pr'.mm.mmap = heapEnd pr.mm.mmap := by exact_mod_cast hlast.symm
  refine ⟨hfn, hregion, hoffset, BitVec.eq_of_toInt_eq hvalue,
    h.sameHeap h' hp hp' hlast (fun g hg => ?_) hbytes, hrest⟩
  have hlt : g < heapEnd pr.mm.mmap / pagingPagesz := by
    obtain ⟨vma, hok, _⟩ := h.heap.heap p pr hp
    rw [hok.heapEnd] at hg ⊢
    exact Nat.lt_of_mul_lt_mul_right (a := pagingPagesz)
      (by rwa [Nat.div_mul_cancel hok.aligned])
  have hmem : (g, pr.mm.pgd g) ∈ (List.range (heapEnd pr'.mm.mmap / pagingPagesz)).map
      fun g => (g, pr'.mm.pgd g) := by
    refine htable ▸ ?_
    exact List.mem_map.mpr ⟨g, List.mem_range.mpr hlt, rfl⟩
  obtain ⟨g', _, he⟩ := List.mem_map.mp hmem
  obtain ⟨rfl, hpte⟩ := Prod.mk.inj he
  exact hpte

end

end

/-- The writes of two processes in another order, without the one that is overwritten. -/
def plainSample' : List Event :=
  plainSample.take 4 ++ [.call 1 (.write 9 1 5) 0 none, .call 0 (.write 7 1 5) 0 none]

/-- After both runs the text of a read is the same. -/
theorem dump_shows_memory_sample : ∃ s M pr s' M' pr',
    (@plainLts header22).Run (boot22, Plain.empty) plainSample (s, M) ∧
      (@plainLts header22).Run (boot22, Plain.empty) plainSample' (s', M') ∧
        s.procs 0 = some pr ∧ s'.procs 0 = some pr' ∧
          @SameHeap header22 s M 0 pr s' M' 0 pr' := by
  let := header22
  let := header22_pageLaws
  let := header22_pteLaws
  let next := Lts.guarded (Lts.nextGhost Sys.next fun _ M e => Plain.next M e) InContract
  have hnext : ∀ {es s M}, Lts.replay next (boot22, Plain.empty) es = some (s, M) →
      plainLts.Run (boot22, Plain.empty) es (s, M) := fun h =>
    Lts.Run.of_replay_guarded (Lts.withGhost_of_nextGhost fun _ _ _ => memStep_of_next) h
  have hsome : ((Lts.replay next (boot22, Plain.empty) plainSample).any fun x =>
      (Lts.replay next (boot22, Plain.empty) plainSample').any fun x' =>
        (x.1.procs 0).any fun pr => (x'.1.procs 0).any fun pr' =>
          (ioDump true (x.1.ctx pr) .libread 1 5 7).toOption =
            (ioDump true (x'.1.ctx pr') .libread 1 5 7).toOption) = true := by
    decide +kernel
  obtain ⟨⟨s, M⟩, hs, hx⟩ := (Option.any_eq_true _ _).mp hsome
  obtain ⟨⟨s', M'⟩, hs', hx⟩ := (Option.any_eq_true _ _).mp hx
  obtain ⟨pr, hp, hx⟩ := (Option.any_eq_true _ _).mp hx
  obtain ⟨pr', hp', hx⟩ := (Option.any_eq_true _ _).mp hx
  obtain ⟨t, t', ht, ht', hshows⟩ := dump_shows_memory (by decide) (by decide) (by decide)
    (by decide) booted_boot22 booted_boot22 (hnext hs) (hnext hs') hp hp' true .libread .libread
    1 5 1 5 7 7
  have he : t = t' := by
    have := of_decide_eq_true hx
    rw [ht, ht'] at this
    exact Option.some.inj this
  obtain ⟨_, _, _, _, hsame, _⟩ := hshows [] [] (congrArg (· ++ []) he)
  exact ⟨s, M, pr, s', M', pr', hnext hs, hnext hs', hp, hp', hsame⟩

end BtlOs
