import BtlOs.Bounds
import BtlOs.Lib.Arrivals

/-! # Page replacement

`pg_getpage` takes the victim out of `fifo_pgn` before it knows whether there is a swap frame for
it, and does not look at the result of `find_victim_page`: an access that cannot bring its page
into RAM is never undone (`fault_not_undone`).

`fifo_pgn` gets a node for every page that is mapped and for every access.  It is the queue of the
pages in RAM in the order in which they were brought there as long as every access brings its page
into RAM and no page is mapped that is there already (`KeepsFifo`). -/

namespace BtlOs

open CLang Header Table Arrivals

section

variable [Header]

/-! ### A page that cannot be brought into RAM -/

/-- The access fails and leaves everything as it was. -/
def FaultUndone (c : Ctx) (g : ℕ) : Prop :=
  ∃ c', pgGetpage c g = .ok (none, c') ∧ c'.mm.pgd = c.mm.pgd ∧ c'.mm.fifoPgn = c.mm.fifoPgn ∧
    c'.dev.mram.freeFpList = c.dev.mram.freeFpList ∧
    c'.dev.mswp.freeFpList = c.dev.mswp.freeFpList ∧
    c'.dev.mram.storage = c.dev.mram.storage ∧ c'.dev.mswp.storage = c.dev.mswp.storage

variable {c c' : Ctx} {g : ℕ}

/-- With no page to replace, the entry of a page that `find_victim_page` did not return is read. -/
theorem pgGetpage_of_fifo_nil (habs : pagingPagePresent (c.mm.pgd g) = false)
    (hfifo : c.mm.fifoPgn = []) : pgGetpage c g = .error .undefined := by
  unfold pgGetpage Mm.pgdGet
  by_cases hlt : g < pagingMaxPgn
  · rw [require_pos hlt, ok_bind, ok_bind, habs, if_neg (by decide)]
    simp only [findVictimPage, hfifo, assigned]
    rfl
  · unfold require
    rw [if_neg hlt]
    rfl

/-- **A failed page fault is not undone.**  With no page to replace the call is undefined; with no
free swap frame it fails, and the page that was to be replaced is lost from the list. -/
theorem fault_not_undone (habs : pagingPagePresent (c.mm.pgd g) = false)
    (hnone : c.mm.fifoPgn = [] ∨ c.dev.mswp.freeFpList = []) :
    ¬ FaultUndone c g ∧ (c.mm.fifoPgn = [] → pgGetpage c g = .error .undefined) ∧
      ∀ r c', pgGetpage c g = .ok (r, c') →
        r = none ∧ ∃ vic, c.mm.fifoPgn = c'.mm.fifoPgn ++ [vic] := by
  have hlost : ∀ r c', pgGetpage c g = .ok (r, c') →
      r = none ∧ ∃ vic, c.mm.fifoPgn = c'.mm.fifoPgn ++ [vic] := by
    intro r c' he
    obtain ⟨_, hs⟩ := pgGetpage_ok he
    cases hs with
    | hit hpres =>
        rw [habs] at hpres
        cases hpres
    | full _ hfifo _ => exact ⟨rfl, _, hfifo⟩
    | evict _ hfifo hfree _ _ => simp [hfifo, hfree] at hnone
  refine ⟨?_, pgGetpage_of_fifo_nil habs, hlost⟩
  rintro ⟨c', he, _, hfifo, _⟩
  obtain ⟨_, vic, hvic⟩ := hlost none c' he
  rw [hfifo] at hvic
  simp at hvic

/-! ### What is in RAM -/

/-- The page is in RAM. -/
def Mm.InRam (mm : Mm) (g : ℕ) : Prop := Resident (mm.pgd g)

instance (mm : Mm) : DecidablePred mm.InRam :=
  fun g => inferInstanceAs (Decidable (Resident (mm.pgd g)))

/-- The page that an access brings into RAM. -/
def Ctx.fetched (c : Ctx) (g : ℕ) : List ℕ :=
  if pagingPagePresent (c.mm.pgd g) = false ∧ c.dev.mswp.freeFpList ≠ [] then [g] else []

/-- The pages that a call with the result `st` brings into RAM, in this order. -/
def Ctx.brought (c : Ctx) : Call → ℤ → List ℕ
  | .alloc size _, st =>
      match c.newPages (int32 size) with
      | some (a, k) => if st = 0 then List.range' a k else []
      | none => []
  | .read source offset _, st =>
      if st = 0 then c.fetched (pagingPgn (c.addr source offset)) else []
  | .write _ destination offset, st =>
      if st = 0 then c.fetched (pagingPgn (c.addr destination offset)) else []
  | .free _, _ => []
  | .memmap _, _ => []

/-- The call maps no page that is in RAM; an accessed page is not there and a swap frame is free
for the page that it replaces.  Calls of `SYSCALL 17` by the program itself are left out. -/
def KeepsFifo (c : Ctx) : Call → Prop
  | .alloc size _ => ∀ x ∈ c.newPages (int32 size), x.2 ≤ c.dev.mram.freeFpList.length →
      ∀ g ∈ List.range' x.1 x.2, ¬ c.mm.InRam g
  | .free _ => True
  | .read source offset _ => NamedRg (int32 source) →
      pagingPagePresent (c.mm.pgd (pagingPgn (c.addr source offset))) = false ∧
        c.dev.mswp.freeFpList ≠ []
  | .write _ destination offset => NamedRg (int32 destination) →
      pagingPagePresent (c.mm.pgd (pagingPgn (c.addr destination offset))) = false ∧
        c.dev.mswp.freeFpList ≠ []
  | .memmap _ => False

theorem inRam_evictPgd [PteLaws] {vic swpfpn : ℕ} (g' : ℕ) :
    Resident (evictPgd c g vic swpfpn g') ↔
      (Resident (c.mm.pgd g') ∧ g' ≠ vic) ∨ g' ∈ [g] := by
  rw [List.mem_singleton]
  by_cases he : g' = g
  · subst he
    simp [resident_evictPgd]
  · rw [evictPgd_of_ne he]
    split_ifs with hvic
    · subst hvic
      simp [not_resident_pteSetSwap, he]
    · simp [he, hvic]

/-! ### One call -/

variable {log : List ℕ} {cl : Call} {st : ℤ} {val : Option ℕ}

theorem PageStep.tracks [PteLaws] {r : Option ℕ} (h : Tracks log c.mm.InRam c.mm.fifoPgn)
    (hs : PageStep c g r c') (habs : pagingPagePresent (c.mm.pgd g) = false)
    (hfree : c.dev.mswp.freeFpList ≠ []) :
    Tracks (log ++ c.fetched g) c'.mm.InRam c'.mm.fifoPgn := by
  rw [Ctx.fetched, if_pos ⟨habs, hfree⟩]
  cases hs with
  | hit hpres =>
      rw [habs] at hpres
      cases hpres
  | full _ _ hnil => exact absurd hnil hfree
  | @evict vic swpfpn rest _ _ _ _ hfifo _ _ _ =>
      rw [hfifo] at h
      have hrest : Tracks log (fun g' => c.mm.InRam g' ∧ g' ≠ vic) rest :=
        h.leave fun _ => Iff.rfl
      refine hrest.arrive (List.nodup_singleton g) ?_ fun g' => inRam_evictPgd g'
      rintro g' hg' ⟨hres, _⟩
      obtain rfl := List.mem_singleton.mp hg'
      rw [hres.1] at habs
      cases habs

theorem AllocEnd.tracks [PteLaws] {vma : VmArea} {size regIndex : ℕ} {r : Option ℤ}
    (h : Tracks log c.mm.InRam c.mm.fifoPgn) (hend : AllocEnd c vma (int32 size) r c')
    (hnew : KeepsFifo c (.alloc size regIndex)) :
    Tracks (log ++ c.brought (.alloc size regIndex) (if r = none then -1 else 0))
      c'.mm.InRam c'.mm.fifoPgn := by
  unfold Ctx.brought
  cases hend with
  | fit hnone =>
      simp only [hnone, List.append_nil]
      exact h
  | oom hsome _ =>
      simp only [hsome, if_true, show ¬ (-1 : ℤ) = 0 by decide, if_false, List.append_nil]
      exact h
  | @grow a k addr l symrgtbl hsome hk =>
      have hlen : (c.dev.mram.freeFpList.take k).reverse.length = k := by simpa using hk
      simp only [hsome, reduceCtorEq, if_false, if_true]
      have hmem : ∀ g, Resident (mapPages c.mm.pgd a (c.dev.mram.freeFpList.take k).reverse g) ↔
          c.mm.InRam g ∨ g ∈ List.range' a k := by
        intro g
        rw [resident_mapPages, hlen]
        rfl
      have hfifo : ∀ mmap symrgtbl, ((c.withHeap mmap symrgtbl).grown a k).mm.fifoPgn =
          (List.range' a k).reverse ++ c.mm.fifoPgn := by
        intro mmap symrgtbl
        show (List.range' a (c.dev.mram.freeFpList.take k).reverse.length).reverse ++ _ = _
        rw [hlen]
        rfl
      rw [hfifo]
      exact h.arrive List.nodup_range' (hnew _ hsome hk) hmem

theorem Ctx.tracks_access [PteLaws] (h : Tracks log c.mm.InRam c.mm.fifoPgn)
    (hcall : c.call cl = .ok (st, val, c')) (hg : c.page cl = some g)
    (habs : pagingPagePresent (c.mm.pgd g) = false) (hfree : c.dev.mswp.freeFpList ≠ []) :
    Tracks (log ++ if st = 0 then c.fetched g else []) c'.mm.InRam c'.mm.fifoPgn := by
  rcases page_of_ok hcall hg with ⟨rfl, hmm⟩ | ⟨rfl, r, c₁, hs, hmm⟩
  · rw [hmm, if_neg (by decide), List.append_nil]
    exact h
  · rw [hmm, if_pos rfl]
    exact hs.tracks h habs hfree

theorem KeepsFifo.ne_memmap (h : KeepsFifo c cl) : ∀ regs, cl ≠ .memmap regs := by
  rintro regs rfl
  exact h

theorem Ctx.tracks [PteLaws] (harea : OneArea c.mm) (h : Tracks log c.mm.InRam c.mm.fifoPgn)
    (hkeeps : KeepsFifo c cl) (hcall : c.call cl = .ok (st, val, c')) :
    Tracks (log ++ c.brought cl st) c'.mm.InRam c'.mm.fifoPgn := by
  cases hlock : c.mmvmLock with
  | true =>
      rw [Ctx.call_locked hlock hkeeps.ne_memmap] at hcall
      cases hcall
  | false =>
      by_cases hcl : cl.Named
      · cases cl with
        | alloc size regIndex =>
            obtain ⟨vma, hm, hid⟩ := harea
            obtain ⟨_, ha, rfl⟩ := Ctx.call_alloc_ok hcall
            exact (allocEnd_of_ok hm hid ha).2.tracks h hkeeps
        | free regIndex =>
            obtain ⟨_, mmap, symrgtbl, rfl⟩ := free_ok (Ctx.call_free_ok hcall)
            exact (List.append_nil log).symm ▸ h
        | read source offset data₀ =>
            obtain ⟨habs, hfree⟩ := hkeeps hcl
            have hg := c.page_read (getSymrgByid_of_named hcl) offset data₀
            exact c.tracks_access h hcall hg habs hfree
        | write data destination offset =>
            obtain ⟨habs, hfree⟩ := hkeeps hcl
            have hg := c.page_write (getSymrgByid_of_named hcl) data offset
            exact c.tracks_access h hcall hg habs hfree
        | memmap regs => exact absurd hkeeps id
      · -- the id is refused
        obtain ⟨val', he⟩ := Ctx.call_not_named hlock harea hcl
        rw [he] at hcall
        obtain ⟨rfl, hres⟩ := Prod.mk.inj (Except.ok.inj hcall)
        obtain ⟨_, rfl⟩ := Prod.mk.inj hres
        have hnil : c.brought cl (-1) = [] := by
          cases cl <;> simp [Ctx.brought, Call.Named] at hcl ⊢
        rw [hnil, List.append_nil]
        exact h

/-! ### The system -/

/-- The pages that each process brought into RAM since it was loaded, oldest first. -/
def nextBrought (s : Sys) (log : ℕ → List ℕ) : Event → ℕ → List ℕ
  | .call p cl st _ =>
      match s.procs p with
      | none => log
      | some pr => Function.update log p (log p ++ (s.ctx pr).brought cl st)
  | .load p _ _ _ => Function.update log p []
  | .release _ => log

/-- No entry of the table that a process is loaded with says that its page is in RAM. -/
def NoneInRam : Event → Prop
  | .call _ _ _ _ => True
  | .load _ _ pgd₀ _ => ∀ g, ¬ Resident (pgd₀ g)
  | .release _ => True

/-- The queues of all processes. -/
def FifoSys (s : Sys) (log : ℕ → List ℕ) : Prop :=
  ∀ p pr, s.procs p = some pr →
    OneArea pr.mm ∧ Tracks (log p) pr.mm.InRam pr.mm.fifoPgn

theorem FifoSys.step [PteLaws] {s s' : Sys} {log : ℕ → List ℕ} {e : Event} (h : FifoSys s log)
    (hs : MemStep s e s') (hkeeps : Calls KeepsFifo s e) (hload : NoneInRam e) :
    FifoSys s' (nextBrought s log e) := by
  have hother : ∀ p l q qr, q ≠ p → s.procs q = some qr →
      OneArea qr.mm ∧ Tracks (Function.update log p l q) qr.mm.InRam qr.mm.fifoPgn := by
    intro p l q qr hne hq
    rw [Function.update_of_ne hne]
    exact h q qr hq
  cases hs with
  | @call p pr cl st val c hp hc =>
      obtain ⟨harea, htracks⟩ := h p pr hp
      have hlog : nextBrought s log (.call p cl st val) =
          Function.update log p (log p ++ (s.ctx pr).brought cl st) := by
        simp [nextBrought, hp]
      rw [hlog]
      apply forall_enter
      · rw [Function.update_self]
        refine ⟨(Ctx.kept_of_ok (c := s.ctx pr) harea hc).area harea, ?_⟩
        exact Ctx.tracks (c := s.ctx pr) harea htracks (hkeeps pr hp) hc
      · exact hother p _
  | @load p mm₀ pgd₀ activeMswpId _ =>
      apply forall_enter
      · rw [nextBrought, Function.update_self]
        exact ⟨⟨_, rfl, rfl⟩, Tracks.nil hload⟩
      · exact hother p _
  | release _ => exact forall_remove h

/-- **First in, first out.**  In every state that is reached by calls that keep the queue:
`fifo_pgn` has the pages in RAM, each once, in the order in which they were last brought there, the
latest first, and where a page is in RAM the victim is the page that is there for the longest. -/
theorem fifo_replacement [PteLaws] {s₀ s : Sys} {log : ℕ → List ℕ} {es : List Event}
    (h₀ : ∀ p, s₀.procs p = none)
    (hr : ((memLts.withGhost nextBrought).restrict
      fun x e => Calls KeepsFifo x.1 e ∧ NoneInRam e).Run (s₀, fun _ => []) es (s, log))
    {p : ℕ} {pr : Process} (hp : s.procs p = some pr) :
    pr.mm.fifoPgn.Nodup ∧ (∀ g, g ∈ pr.mm.fifoPgn ↔ Resident (pr.mm.pgd g)) ∧
    pr.mm.fifoPgn.reverse = (log p).dedup.filter (fun g => Resident (pr.mm.pgd g)) ∧
    ∀ g, Resident (pr.mm.pgd g) → ∃ vic mm', findVictimPage pr.mm = (some vic, mm') ∧
      Resident (pr.mm.pgd vic) ∧ ∃ before after, log p = before ++ vic :: after ∧ vic ∉ after ∧
        ∀ g', Resident (pr.mm.pgd g') → g' ≠ vic → g' ∈ after := by
  have h : FifoSys s log := by
    refine hr.invariant (I := fun x => FifoSys x.1 x.2) ?_ fun p pr hp => by simp [h₀] at hp
    rintro ⟨s, log⟩ e ⟨s', log'⟩ h ⟨⟨hs, rfl⟩, hkeeps, hload⟩
    exact h.step hs hkeeps hload
  obtain ⟨_, htracks⟩ := h p pr hp
  refine ⟨htracks.nodup, fun g => htracks.mem_queue, htracks.reverse, fun g hg => ?_⟩
  have hmem : g ∈ pr.mm.fifoPgn := htracks.mem_queue.mpr hg
  obtain ⟨rest, vic, hfifo⟩ :=
    (List.eq_nil_or_concat' pr.mm.fifoPgn).resolve_left (List.ne_nil_of_mem hmem)
  rw [hfifo] at htracks
  exact ⟨vic, _, findVictimPage_eq hfifo, htracks.oldest⟩

instance (c : Ctx) : ∀ cl, Decidable (KeepsFifo c cl)
  | .alloc size _ => decidable_of_iff ((c.newPages (int32 size)).all (fun x =>
      x.2 ≤ c.dev.mram.freeFpList.length → ∀ g ∈ List.range' x.1 x.2, ¬ c.mm.InRam g) = true) (by
    simp only [Option.all_eq_true, decide_eq_true_eq]
    rfl)
  | .free _ => inferInstanceAs (Decidable True)
  | .read source _ _ => inferInstanceAs (Decidable (NamedRg (int32 source) → _ ∧ _))
  | .write _ destination _ => inferInstanceAs (Decidable (NamedRg (int32 destination) → _ ∧ _))
  | .memmap _ => inferInstanceAs (Decidable False)

end

/-- Two replacements take the two swap frames. -/
def fullSample : List Event :=
  [loadBlank 0, .call 0 (.alloc 256 1) 0 none, .call 0 (.read 1 256 0) 0 (some 0),
    .call 0 (.read 1 512 0) 0 (some 0)]

theorem run_fullSample : ∃ s pr c', (@memLts header22).Run boot22 fullSample s ∧
    s.procs 0 = some pr ∧ @pagingPagePresent header22 (pr.mm.pgd 3) = false ∧
      s.dev.mswp.freeFpList = [] ∧ @pgGetpage header22 (s.ctx pr) 3 = .ok (none, c') ∧
        pr.mm.fifoPgn = [2] ∧ c'.mm.fifoPgn = [] := by
  let := header22
  have hsome : (Lts.replay Sys.next boot22 fullSample).any (fun s => (s.procs 0).any fun pr =>
      pagingPagePresent (pr.mm.pgd 3) = false ∧ s.dev.mswp.freeFpList = [] ∧
        pr.mm.fifoPgn = [2] ∧ (pgGetpage (s.ctx pr) 3).toOption.any fun r =>
          r.1 = none ∧ r.2.mm.fifoPgn = []) = true := by
    decide +kernel
  obtain ⟨s, hs, hout⟩ := (Option.any_eq_true _ _).mp hsome
  obtain ⟨pr, hp, hout⟩ := (Option.any_eq_true _ _).mp hout
  obtain ⟨habs, hfree, hfifo, hpage⟩ := of_decide_eq_true hout
  obtain ⟨⟨r, c'⟩, hpage, hr⟩ := exists_ok_of_any hpage
  obtain ⟨rfl, hnil⟩ : r = none ∧ c'.mm.fifoPgn = [] := of_decide_eq_true hr
  exact ⟨s, pr, c', Lts.Run.of_replay (fun _ _ _ => memStep_of_next) hs, hp, habs, hfree,
    hpage, hfifo, hnil⟩

theorem fault_not_undone_sample : ∃ s pr, (@memLts header22).Run boot22 fullSample s ∧
    s.procs 0 = some pr ∧ ¬ @FaultUndone header22 (s.ctx pr) 3 := by
  let := header22
  obtain ⟨s, pr, c', hrun, hp, habs, hfree, _⟩ := run_fullSample
  exact ⟨s, pr, hrun, hp, (fault_not_undone (c := s.ctx pr) habs (.inr hfree)).1⟩

/-- The access fails for want of a swap frame, and the page in RAM is gone from the list. -/
theorem fault_loses_victim : ∃ s pr, (@memLts header22).Run boot22 fullSample s ∧
    s.procs 0 = some pr ∧ @pagingPagePresent header22 (pr.mm.pgd 3) = false ∧
      s.dev.mswp.freeFpList = [] ∧ ¬ @FaultUndone header22 (s.ctx pr) 3 := by
  let := header22
  obtain ⟨s, pr, c', hrun, hp, habs, hfree, hpage, hfifo, hnil⟩ := run_fullSample
  refine ⟨s, pr, hrun, hp, habs, hfree, ?_⟩
  rintro ⟨c'', he, _, hsame, _⟩
  rw [hpage] at he
  obtain ⟨_, rfl⟩ := Prod.mk.inj (Except.ok.inj he)
  rw [hnil] at hsame
  exact absurd (hsame.trans hfifo) (by decide)

/-- Two pages are mapped, and a read beyond them takes the frame of the older one. -/
def fifoSample : List Event :=
  [loadBlank 0, .call 0 (.alloc 512 1) 0 none, .call 0 (.read 1 512 0) 0 (some 0)]

theorem fifo_replacement_sample : ∃ s log pr,
    (((@memLts header22).withGhost (@nextBrought header22)).restrict fun x e =>
      @Calls (@KeepsFifo header22) x.1 e ∧ @NoneInRam header22 e).Run (boot22, fun _ => [])
        fifoSample (s, log) ∧
    s.procs 0 = some pr ∧ pr.mm.fifoPgn = [2, 1] ∧ log 0 = [0, 1, 2] ∧
      ∀ g, g ∈ pr.mm.fifoPgn ↔ @Resident header22 (pr.mm.pgd g) := by
  let := header22
  let := header22_pteLaws
  have hsome : (Lts.replay (Lts.guarded (Lts.nextGhost Sys.next nextBrought)
      fun x e => Calls KeepsFifo x.1 e) (boot22, fun _ => []) fifoSample).any (fun x =>
        (x.1.procs 0).any fun pr => pr.mm.fifoPgn = [2, 1] ∧ x.2 0 = [0, 1, 2]) = true := by
    decide +kernel
  obtain ⟨⟨s, log⟩, hs, hout⟩ := (Option.any_eq_true _ _).mp hsome
  obtain ⟨pr, hp, hout⟩ := (Option.any_eq_true _ _).mp hout
  obtain ⟨hfifo, hlog⟩ := of_decide_eq_true hout
  have hrun : ((memLts.withGhost nextBrought).restrict fun x e =>
      Calls KeepsFifo x.1 e).Run (boot22, fun _ => []) fifoSample (s, log) :=
    Lts.Run.of_replay_guarded (Lts.withGhost_of_nextGhost fun _ _ _ => memStep_of_next) hs
  have hrun' := hrun.restrict_and (Q := NoneInRam)
    (by simp [fifoSample, loadBlank, NoneInRam, Resident])
  exact ⟨s, log, pr, hrun', hp, hfifo, hlog, (fifo_replacement (fun _ => rfl) hrun' hp).2.1⟩

/-- A read of a page in RAM enlists it again, so that after it is replaced it is the next victim. -/
theorem fifo_not_replacement : ∃ s pr, (@memLts header22).Run boot22 [loadBlank 0,
    .call 0 (.alloc 256 1) 0 none, .call 0 (.read 1 0 0) 0 (some 0),
    .call 0 (.read 1 256 0) 0 (some 0)] s ∧ s.procs 0 = some pr ∧
      pr.mm.fifoPgn = [1, 0] ∧ (findVictimPage pr.mm).1 = some 0 ∧
        ¬ @Resident header22 (pr.mm.pgd 0) := by
  let := header22
  have hsome : (Lts.replay Sys.next boot22 [loadBlank 0, .call 0 (.alloc 256 1) 0 none,
      .call 0 (.read 1 0 0) 0 (some 0), .call 0 (.read 1 256 0) 0 (some 0)]).any (fun s =>
        (s.procs 0).any fun pr => pr.mm.fifoPgn = [1, 0] ∧ (findVictimPage pr.mm).1 = some 0 ∧
          ¬ Resident (pr.mm.pgd 0)) = true := by
    decide +kernel
  obtain ⟨s, hs, hout⟩ := (Option.any_eq_true _ _).mp hsome
  obtain ⟨pr, hp, hout⟩ := (Option.any_eq_true _ _).mp hout
  exact ⟨s, pr, Lts.Run.of_replay (fun _ _ _ => memStep_of_next) hs, hp, of_decide_eq_true hout⟩

end BtlOs
