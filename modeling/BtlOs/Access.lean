import BtlOs.Keeps
import BtlOs.Ownership
import BtlOs.PlainMemory

/-! # What a read or a write reports

`__read` and `__write` return 0 without a look at the result of `pg_getval` and `pg_setval`, so
the access may not have happened.  It has not where the page is neither in RAM nor exchangeable
for a page of RAM, because no swap frame is free.

The only accesses that are refused are those of an id outside the symbol table: neither the region
nor the offset is looked at. -/

namespace BtlOs

open CLang Header Segments TokenPool Table

section

variable [Header]

/-- The byte at an address, where the page table gives one. -/
def Ctx.byteAt (c : Ctx) (addr : ℤ) : Option Byte :=
  if pagingPagePresent (c.mm.pgd (pagingPgn addr)) = true then
    some (c.dev.mram.storage
      (phyAddr (pagingFpn (c.mm.pgd (pagingPgn addr))) (pagingOffst addr)).toNat)
  else none

/-- The page is in RAM, or a swap frame is free for the victim that makes room for it. -/
def Ctx.Fetchable (c : Ctx) (pgn : ℕ) : Prop :=
  pagingPagePresent (c.mm.pgd pgn) = true ∨ c.dev.mswp.freeFpList ≠ []

instance (c : Ctx) (pgn : ℕ) : Decidable (c.Fetchable pgn) := inferInstanceAs (Decidable (_ ∨ _))

variable {c c' : Ctx} {addr : ℤ}

/-! ### The page -/

theorem PageStep.rdmflg {g : ℕ} {r : Option ℕ} (hs : PageStep c g r c') :
    c'.dev.mram.rdmflg = c.dev.mram.rdmflg := by
  cases hs with
  | hit _ => rfl
  | full _ _ _ => rfl
  | evict _ _ _ _ _ => rfl

theorem PageStep.eq_none_iff {g : ℕ} {r : Option ℕ} (hs : PageStep c g r c') :
    r = none ↔ ¬ c.Fetchable g := by
  unfold Ctx.Fetchable
  cases hs with
  | hit hp => simp [hp]
  | full hp _ hfree => simp [hp, hfree]
  | evict _ _ hfree _ _ => simp [hfree]

theorem PageStep.pgd_some [PteLaws] {g fpn : ℕ} (hs : PageStep c g (some fpn) c') :
    pagingPagePresent (c'.mm.pgd g) = true ∧ pagingFpn (c'.mm.pgd g) = fpn := by
  cases hs with
  | hit hp => exact ⟨hp, rfl⟩
  | @evict vic swpfpn rest swprest ram swp _ _ _ _ _ =>
      refine ⟨?_, rfl⟩
      show pagingPagePresent (evictPgd c g vic swpfpn g) = true
      unfold evictPgd
      rw [Function.update_self, present_pteSetFpn]

theorem PageStep.pgd_none {g : ℕ} (hs : PageStep c g none c') :
    pagingPagePresent (c'.mm.pgd g) = false := by
  cases hs with
  | full hp _ _ => exact hp

theorem Ctx.byteAt_of_pte {fpn : ℕ} (hp : pagingPagePresent (c.mm.pgd (pagingPgn addr)) = true)
    (hf : pagingFpn (c.mm.pgd (pagingPgn addr)) = fpn) :
    c.byteAt addr = some (c.dev.mram.storage (phyAddr fpn (pagingOffst addr)).toNat) := by
  unfold byteAt
  rw [if_pos hp, hf]

theorem Ctx.byteAt_of_absent (hp : pagingPagePresent (c.mm.pgd (pagingPgn addr)) = false) :
    c.byteAt addr = none := by
  unfold byteAt
  rw [if_neg (by simp [hp])]

theorem pgGetval_of_rdmflg {data : Option Byte} (hrd : c.dev.mram.rdmflg = true)
    (h : pgGetval c addr = .ok (data, c')) : ∃ r, PageStep c (pagingPgn addr) r c' ∧
      data = r.map fun fpn => c'.dev.mram.storage (phyAddr fpn (pagingOffst addr)).toNat := by
  obtain ⟨r, hstep, ⟨rfl, rfl | hseq⟩ | ⟨fpn, rfl, rfl⟩⟩ := pgGetval_ok h
  · exact ⟨none, hstep, rfl⟩
  · rw [hstep.rdmflg, hrd] at hseq
    cases hseq
  · exact ⟨some fpn, hstep, rfl⟩

theorem pgSetval_of_rdmflg {st : ℤ} {value : Byte} (hrd : c.dev.mram.rdmflg = true)
    (h : pgSetval c addr value = .ok (st, c')) : ∃ r c₁, PageStep c (pagingPgn addr) r c₁ ∧
      (r = none ∧ st = -1 ∧ c' = c₁ ∨ ∃ fpn, r = some fpn ∧ st = 0 ∧
        c' = c₁.poke (phyAddr fpn (pagingOffst addr)).toNat value) := by
  obtain ⟨r, c₁, hstep, ⟨rfl, rfl, rfl | hseq⟩ | ⟨fpn, rfl, rfl, _, rfl⟩⟩ := pgSetval_ok h
  · exact ⟨none, _, hstep, .inl ⟨rfl, rfl, rfl⟩⟩
  · rw [hstep.rdmflg, hrd] at hseq
    cases hseq
  · exact ⟨some fpn, c₁, hstep, .inr ⟨fpn, rfl, rfl, rfl⟩⟩

section bytes

variable [PteLaws]

/-- `pg_getval` gives the byte at the address, and fails where the page cannot be fetched. -/
theorem pgGetval_byteAt {data : Option Byte} (hrd : c.dev.mram.rdmflg = true)
    (h : pgGetval c addr = .ok (data, c')) :
    c'.byteAt addr = data ∧ (data = none ↔ ¬ c.Fetchable (pagingPgn addr)) := by
  obtain ⟨r, hstep, rfl⟩ := pgGetval_of_rdmflg hrd h
  rw [Option.map_eq_none_iff, hstep.eq_none_iff]
  refine ⟨?_, Iff.rfl⟩
  cases r with
  | none => exact Ctx.byteAt_of_absent hstep.pgd_none
  | some fpn => exact Ctx.byteAt_of_pte hstep.pgd_some.1 hstep.pgd_some.2

theorem pgSetval_byteAt {st : ℤ} {value : Byte} (hrd : c.dev.mram.rdmflg = true)
    (h : pgSetval c addr value = .ok (st, c')) :
    st = 0 ∧ c'.byteAt addr = some value ∧ c.Fetchable (pagingPgn addr) ∨
      st = -1 ∧ c'.byteAt addr = none ∧ ¬ c.Fetchable (pagingPgn addr) := by
  obtain ⟨r, c₁, hstep, ⟨rfl, rfl, rfl⟩ | ⟨fpn, rfl, rfl, rfl⟩⟩ := pgSetval_of_rdmflg hrd h
  · exact .inr ⟨rfl, Ctx.byteAt_of_absent hstep.pgd_none, hstep.eq_none_iff.mp rfl⟩
  · refine .inl ⟨rfl, ?_, ?_⟩
    · rw [Ctx.byteAt_of_pte (c := c₁.poke _ value) hstep.pgd_some.1 hstep.pgd_some.2,
        Ctx.poke_storage, Function.update_self]
    · by_contra hno
      cases hstep.eq_none_iff.mpr hno

end bytes

/-! ### The calls -/

/-- The region is refused and the lock is kept, or the result of `pg_getval` is dropped. -/
theorem libread_ok {source offset val : ℕ} {data₀ : Byte} {st : ℤ} (harea : OneArea c.mm)
    (h : libread c source offset data₀ = .ok (st, val, c')) :
    (¬ NamedRg (int32 source) ∧ st = -1 ∧ c' = { c with mmvmLock := true }) ∨
    (NamedRg (int32 source) ∧ st = 0 ∧ ∃ data c₁,
      pgGetval { c with mmvmLock := true } (c.addr source offset) = .ok (data, c₁) ∧
        val = byteToUint32 (data.getD data₀) ∧ c' = c₁.unlock) := by
  obtain ⟨data, hread, rfl⟩ := libread_eq_ok h
  have hlock : c.mmvmLock = false := (read_ok hread).1
  by_cases hrg : NamedRg (int32 source)
  · rw [read_named hlock harea hrg] at hread
    obtain ⟨_, hsym, hread⟩ := bind_eq_ok.mp hread
    obtain ⟨_, rfl⟩ := Mm.symGet_eq_ok.mp hsym
    obtain ⟨⟨data', c₂⟩, hval, hread⟩ := bind_eq_ok.mp hread
    obtain ⟨rfl, rfl, rfl⟩ := by simpa using hread
    exact .inr ⟨hrg, rfl, data', c₂, hval, rfl, rfl⟩
  · rw [read_not_named hlock harea hrg] at hread
    obtain ⟨hst, hread⟩ := Prod.mk.inj (Except.ok.inj hread)
    obtain ⟨_, hc⟩ := Prod.mk.inj hread
    exact .inl ⟨hrg, hst.symm, hc.symm⟩

theorem libwrite_ok {destination offset : ℕ} {data : Byte} {st : ℤ} (harea : OneArea c.mm)
    (h : libwrite c data destination offset = .ok (st, c')) :
    (¬ NamedRg (int32 destination) ∧ st = -1 ∧ c' = { c with mmvmLock := true }) ∨
    (NamedRg (int32 destination) ∧ st = 0 ∧ ∃ st' c₁,
      pgSetval { c with mmvmLock := true } (c.addr destination offset) data = .ok (st', c₁) ∧
        c' = c₁.unlock) := by
  unfold libwrite at h
  have hlock : c.mmvmLock = false := (write_ok h).1
  by_cases hrg : NamedRg (int32 destination)
  · rw [write_named hlock harea hrg] at h
    obtain ⟨_, hsym, h⟩ := bind_eq_ok.mp h
    obtain ⟨_, rfl⟩ := Mm.symGet_eq_ok.mp hsym
    obtain ⟨⟨st', c₂⟩, hval, h⟩ := bind_eq_ok.mp h
    obtain ⟨rfl, rfl⟩ := by simpa using h
    exact .inr ⟨hrg, rfl, st', c₂, hval, rfl⟩
  · rw [write_not_named hlock harea hrg] at h
    obtain ⟨hst, hc⟩ := Prod.mk.inj (Except.ok.inj h)
    exact .inl ⟨hrg, hst.symm, hc.symm⟩

/-! ### Success means that the access happened -/

/-- A read that returned 0 returned the byte at its address, and it did not return 0 where
`pg_getval` fails. -/
structure ReadHonest (c : Ctx) (source offset : ℕ) (st : ℤ) (val : ℕ) (c' : Ctx) : Prop where
  byte : st = 0 → (c'.byteAt (c.addr source offset)).map byteToUint32 = some val
  failed : (∃ c₁, pgGetval { c with mmvmLock := true } (c.addr source offset) = .ok (none, c₁)) →
    st ≠ 0

/-- A write that returned 0 stored the byte at its address, and it did not return 0 where
`pg_setval` fails. -/
structure WriteHonest (c : Ctx) (data : Byte) (destination offset : ℕ) (st : ℤ) (c' : Ctx) :
    Prop where
  byte : st = 0 → c'.byteAt (c.addr destination offset) = some data
  failed : (∃ c₁, pgSetval { c with mmvmLock := true } (c.addr destination offset) data =
    .ok (-1, c₁)) → st ≠ 0

/-- The id is refused, or the page of the access can be fetched. -/
def Honored (c : Ctx) (rgid offset : ℕ) : Prop :=
  NamedRg (int32 rgid) → c.Fetchable (pagingPgn (c.addr rgid offset))

theorem readHonest_iff [PteLaws] {source offset val : ℕ} {data₀ : Byte} {st : ℤ}
    (hrd : c.dev.mram.rdmflg = true) (harea : OneArea c.mm)
    (h : libread c source offset data₀ = .ok (st, val, c')) :
    ReadHonest c source offset st val c' ↔ Honored c source offset := by
  rcases libread_ok harea h with ⟨hrg, rfl, rfl⟩ | ⟨hrg, rfl, data, c₁, hval, rfl, rfl⟩
  · constructor
    · exact fun _ hnamed => absurd hnamed hrg
    · exact fun _ => ⟨fun he => absurd he (by decide), fun _ => by decide⟩
  · obtain ⟨hbyte, hfail⟩ := pgGetval_byteAt (c := { c with mmvmLock := true }) hrd hval
    have hunlock : c₁.unlock.byteAt (c.addr source offset) = data := hbyte
    cases data with
    | none =>
        have hno : ¬ c.Fetchable (pagingPgn (c.addr source offset)) := hfail.mp rfl
        exact ⟨fun hh => absurd rfl (hh.failed ⟨c₁, hval⟩), fun hok => absurd (hok hrg) hno⟩
    | some b =>
        constructor
        · intro _ _
          by_contra hno
          cases hfail.mpr hno
        · refine fun _ => ⟨fun _ => ?_, ?_⟩
          · rw [hunlock]
            rfl
          · rintro ⟨c₂, hnone⟩
            rw [hval] at hnone
            cases hnone

theorem writeHonest_iff [PteLaws] {destination offset : ℕ} {data : Byte} {st : ℤ}
    (hrd : c.dev.mram.rdmflg = true) (harea : OneArea c.mm)
    (h : libwrite c data destination offset = .ok (st, c')) :
    WriteHonest c data destination offset st c' ↔ Honored c destination offset := by
  rcases libwrite_ok harea h with ⟨hrg, rfl, rfl⟩ | ⟨hrg, rfl, st', c₁, hval, rfl⟩
  · constructor
    · exact fun _ hnamed => absurd hnamed hrg
    · exact fun _ => ⟨fun he => absurd he (by decide), fun _ => by decide⟩
  · rcases pgSetval_byteAt (c := { c with mmvmLock := true }) hrd hval with
      ⟨rfl, hbyte, hfetch⟩ | ⟨rfl, _, hno⟩
    · refine ⟨fun _ _ => hfetch, fun _ => ⟨fun _ => hbyte, ?_⟩⟩
      rintro ⟨c₂, hfail⟩
      rw [hval] at hfail
      cases hfail
    · exact ⟨fun hh => absurd rfl (hh.failed ⟨c₁, hval⟩), fun hok => absurd (hok hrg) hno⟩

/-- **Success is reported only for accesses that happened** exactly where the id is refused or the
page can be fetched: in every reachable state, for all operands. -/
theorem access_honest_iff [PteLaws] {n m : ℕ} {s₀ s : Sys} {es : List Event}
    (h₀ : Booted n m s₀) (hr : memLts.Run s₀ es s) {p : ℕ} {pr : Process}
    (hp : s.procs p = some pr) :
    (∀ source offset data₀ st val c, libread (s.ctx pr) source offset data₀ = .ok (st, val, c) →
      (ReadHonest (s.ctx pr) source offset st val c ↔ Honored (s.ctx pr) source offset)) ∧
    ∀ data destination offset st c, libwrite (s.ctx pr) data destination offset = .ok (st, c) →
      (WriteHonest (s.ctx pr) data destination offset st c ↔
        Honored (s.ctx pr) destination offset) := by
  have hsane := Sane.of_run h₀ hr
  have harea : OneArea (s.ctx pr).mm := hsane.area p pr hp
  exact ⟨fun _ _ _ _ _ _ h => readHonest_iff hsane.ram harea h,
    fun _ _ _ _ _ h => writeHonest_iff hsane.ram harea h⟩

/-! ### What is refused -/

/-- Heap calls in range, and reads and writes of any offset that name a region of the symbol table
and replace no page. -/
def HeapOrHit (s : Sys) : Event → Prop
  | .call p (.read source offset data₀) st val =>
      Calls (fun c cl => cl.Named ∧ NoEvict c cl) s (.call p (.read source offset data₀) st val)
  | .call p (.write data destination offset) st val =>
      Calls (fun c cl => cl.Named ∧ NoEvict c cl) s
        (.call p (.write data destination offset) st val)
  | e => InHeapRange s e

/-- The same memory after another history of page accesses, with another content of the RAM. -/
def Ctx.touched (c : Ctx) (fifoPgn : List ℕ) (storage : ℕ → Byte) : Ctx :=
  { c with
    mm := { c.mm with fifoPgn }
    dev := { c.dev with mram := c.dev.mram.withStorage storage } }

theorem PageStep.touched {g : ℕ} {r : Option ℕ} (hs : PageStep c g r c')
    (hno : pagingPagePresent (c.mm.pgd g) = true ∨ c.dev.mswp.freeFpList = []) :
    ∃ fifoPgn, c' = c.touched fifoPgn c.dev.mram.storage := by
  cases hs with
  | hit _ => exact ⟨_, rfl⟩
  | full _ _ _ => exact ⟨_, rfl⟩
  | evict hp _ hfree _ _ =>
      rw [hp, hfree] at hno
      simp at hno

section frames

variable {n m : ℕ} {s₀ s s' : Sys} {es : List Event} {p : ℕ} {pr : Process}

theorem PlainInv.touched (h : PlainInv n s Plain.empty) (hp : s.procs p = some pr)
    (fifoPgn : List ℕ) (storage : ℕ → Byte) :
    PlainInv n (s.commit p ((s.ctx pr).touched fifoPgn storage)) Plain.empty := by
  obtain ⟨vma, hok, hroom⟩ := h.heap.heap p pr hp
  have hok' : HeapOk ((s.ctx pr).touched fifoPgn storage).mm vma :=
    ⟨hok.mmap, hok.vmId, hok.sbrk, hok.aligned, hok.free, hok.free_le, hok.live, hok.live_le,
      hok.live_free, hok.live_live, hok.mapped⟩
  exact
    { heap := h.heap.commit h.heap.lock le_rfl hok' hroom
      rdmflg := h.rdmflg
      maxsz := h.maxsz
      maxsz_int := h.maxsz_int
      unique := unique_commit h.unique hp fun _ _ hr => hr
      free_lt := h.free_lt
      own_lt := bound_commit h.own_lt hp fun _ _ hr => .inl hr
      live := by simp [Plain.empty]
      data := by simp [Plain.empty] }

variable [PageLaws] [PteLaws]

omit [PageLaws] [PteLaws] in
theorem PlainInv.region (h : PlainInv n s Plain.empty) (hp : s.procs p = some pr)
    {id offset : ℕ} (hid : id < pagingMaxSymtblSz)
    (hoff : (pr.mm.symrgtbl id).rgStart + offset < (pr.mm.symrgtbl id).rgEnd) :
    PlainInv n s (Plain.empty.set p (Function.update (fun _ => none) id
      (some ⟨(pr.mm.symrgtbl id).rgEnd - (pr.mm.symrgtbl id).rgStart, fun _ => none⟩))) := by
  have hblock : ∀ q regIndex b, Plain.empty.set p (Function.update (fun _ => none) id
      (some ⟨(pr.mm.symrgtbl id).rgEnd - (pr.mm.symrgtbl id).rgStart, fun _ => none⟩))
        q regIndex = some b → q = p ∧ regIndex = id ∧
          b = ⟨(pr.mm.symrgtbl id).rgEnd - (pr.mm.symrgtbl id).rgStart, fun _ => none⟩ := by
    intro q regIndex b hb
    by_cases hq : q = p
    · subst hq
      rw [Plain.set_self] at hb
      rcases update_eq_some.mp hb with ⟨rfl, hv⟩ | ⟨_, hv⟩
      · exact ⟨rfl, rfl, (Option.some.inj hv).symm⟩
      · cases hv
    · rw [Plain.set_of_ne _ _ hq] at hb
      cases hb
  refine ⟨h.heap, h.rdmflg, h.maxsz, h.maxsz_int, h.unique, h.free_lt, h.own_lt, ?_, ?_⟩
  · intro q regIndex b hb
    obtain ⟨rfl, rfl, rfl⟩ := hblock q regIndex b hb
    exact ⟨pr, hp, hid, by simp only; omega⟩
  · intro q qr regIndex b _ w _ hb _ hw
    obtain ⟨_, _, rfl⟩ := hblock q regIndex b hb
    cases hw

end frames

instance (s : Sys) : ∀ e, Decidable (HeapOrHit s e)
  | .call p (.read source offset data₀) st val => inferInstanceAs (Decidable
      (Calls (fun c cl => cl.Named ∧ NoEvict c cl) s (.call p (.read source offset data₀) st val)))
  | .call p (.write data destination offset) st val => inferInstanceAs (Decidable
      (Calls (fun c cl => cl.Named ∧ NoEvict c cl) s
        (.call p (.write data destination offset) st val)))
  | .call p (.alloc size regIndex) st val => inferInstanceAs (Decidable
      (InHeapRange s (.call p (.alloc size regIndex) st val)))
  | .call p (.free regIndex) st val => inferInstanceAs (Decidable
      (InHeapRange s (.call p (.free regIndex) st val)))
  | .call p (.memmap regs) st val => inferInstanceAs (Decidable
      (InHeapRange s (.call p (.memmap regs) st val)))
  | .load p mm₀ pgd₀ activeMswpId => inferInstanceAs (Decidable
      (InHeapRange s (.load p mm₀ pgd₀ activeMswpId)))
  | .release p => inferInstanceAs (Decidable (InHeapRange s (.release p)))

end

/-! ### Runs on a small machine -/

/-- Two regions in two pages; the first is written outside its bounds. -/
def twoRegions : List Event :=
  [loadBlank 0, .call 0 (.alloc 300 1) 0 none, .call 0 (.alloc 100 2) 0 none,
    .call 0 (.write 9 1 450) 0 none]

theorem run_twoRegions22 {P : Sys → Prop} [DecidablePred P]
    (h : (Lts.replay (Lts.guarded (@Sys.next header22) (@HeapOrHit header22)) boot22
      twoRegions).any (fun s => (s.procs 0).isSome ∧ P s) = true) :
    ∃ s pr, ((@memLts header22).restrict (@HeapOrHit header22)).Run boot22 twoRegions s ∧
      s.procs 0 = some pr ∧ P s := by
  let := header22
  obtain ⟨s, hs, hP⟩ := (Option.any_eq_true _ _).mp h
  obtain ⟨hproc, hP⟩ := of_decide_eq_true hP
  obtain ⟨pr, hp⟩ := Option.isSome_iff_exists.mp hproc
  exact ⟨s, pr, Lts.Run.of_replay_guarded (fun _ _ _ => memStep_of_next) hs, hp, hP⟩

theorem access_honest_iff_sample : ∃ s pr c, (@memLts header22).Run boot22 twoRegions s ∧
    s.procs 0 = some pr ∧ @libwrite header22 (s.ctx pr) 7 1 10 = .ok (0, c) ∧
      @WriteHonest header22 (s.ctx pr) 7 1 10 0 c := by
  let := header22
  let := header22_pteLaws
  obtain ⟨s, pr, hrun, hp, hout⟩ := run_twoRegions22
    (P := fun s => (s.procs 0).all fun pr =>
      pagingPagePresent (pr.mm.pgd (pagingPgn ((s.ctx pr).addr 1 10))) = true ∧
      (libwrite (s.ctx pr) 7 1 10).toOption.any fun r => r.1 = 0) (by decide +kernel)
  rw [hp, Option.all_some, decide_eq_true_eq] at hout
  obtain ⟨⟨st, c⟩, hwrite, hst⟩ := exists_ok_of_any hout.2
  obtain rfl : st = 0 := of_decide_eq_true hst
  exact ⟨s, pr, c, hrun.of_restrict, hp, hwrite,
    ((access_honest_iff booted_boot22 hrun.of_restrict hp).2 _ _ _ _ _ hwrite).mpr
      fun _ => .inl hout.1⟩

/-- Two accesses outside the region use up the two swap frames; the third, a write, returns 0 and
stores nothing. -/
theorem access_not_honest : ∃ s pr c, (@memLts header22).Run boot22 [loadBlank 0,
    .call 0 (.alloc 512 1) 0 none, .call 0 (.read 1 512 0) 0 (some 0),
    .call 0 (.read 1 768 0) 0 (some 0)] s ∧ s.procs 0 = some pr ∧
      @libwrite header22 (s.ctx pr) 7 1 1024 = .ok (0, c) ∧
        ¬ @WriteHonest header22 (s.ctx pr) 7 1 1024 0 c := by
  let := header22
  have hsome : (Lts.replay Sys.next boot22 [loadBlank 0, .call 0 (.alloc 512 1) 0 none,
      .call 0 (.read 1 512 0) 0 (some 0), .call 0 (.read 1 768 0) 0 (some 0)]).any (fun s =>
        (s.procs 0).any fun pr => (libwrite (s.ctx pr) 7 1 1024).toOption.any fun r =>
          r.1 = 0 ∧ r.2.byteAt ((s.ctx pr).addr 1 1024) ≠ some 7) = true := by
    decide +kernel
  obtain ⟨s, hs, hout⟩ := (Option.any_eq_true _ _).mp hsome
  obtain ⟨pr, hp, hout⟩ := (Option.any_eq_true _ _).mp hout
  obtain ⟨⟨st, c⟩, hw, hbyte⟩ := exists_ok_of_any hout
  obtain ⟨hst, hbyte⟩ := of_decide_eq_true hbyte
  obtain rfl : st = 0 := hst
  exact ⟨s, pr, c, Lts.Run.of_replay (fun _ _ _ => memStep_of_next) hs, hp, hw,
    fun hh => hbyte (hh.byte rfl)⟩

end BtlOs
