import BtlOs.Killall

/-! # The lock of the memory library

`__alloc` and `__free` release `mmvm_lock` on every exit.  `__read` and `__write` do so behind the
test of the region id and of the area; where the test refuses, they return with the lock held, and
the next call of any process waits for it.  The area is always there, so the id decides.

`lock_step` says this of one step: the lock is free after it exactly where it was free before and
the step names its region. -/

namespace BtlOs

open CLang Header

section

variable [Header]

/-! ### One call -/

/-- The call waits for no lock, and where it returns, the lock is released. -/
def Releases (c : Ctx) (cl : Call) : Prop :=
  Ends Undefined (fun r => r.2.2.mmvmLock = false) (c.call cl)

/-- The same for the reads of `killall`. -/
def KillallReleases (c : Ctx) (memrg : ℕ) : Prop :=
  ∀ data₀, Ends Undefined (fun r => r.2.mmvmLock = false) (readName c memrg data₀)

variable {c : Ctx}

theorem releases_iff (hlock : c.mmvmLock = false) (harea : OneArea c.mm) (cl : Call) :
    Releases c cl ↔ cl.Named := by
  constructor
  · intro h
    by_contra hcl
    obtain ⟨val, hret⟩ := Ctx.call_not_named hlock harea hcl
    have hfree : true = false := h.of_ok hret
    cases hfree
  · exact fun hcl => (Ctx.ends_call hlock harea hcl).mono fun r hr => hr.lock.trans hlock

/-! ### The reads of `killall` -/

theorem ends_readNameFrom {memrg : ℕ} (hrg : NamedRg (int32 memrg)) (data₀ : ℕ → Byte) (n : ℕ) :
    ∀ (i : ℕ) {c : Ctx}, c.mmvmLock = false → OneArea c.mm →
      Ends Undefined (fun r => Keeps c r.2) (readNameFrom memrg data₀ n i c) := by
  induction n with
  | zero =>
      intro i c hlock harea
      refine (ends_libread hlock harea hrg i (data₀ i)).bind fun _ _ _ => ?_
      exact .error rfl
  | succ n ih =>
      intro i c hlock harea
      refine (ends_libread hlock harea hrg i (data₀ i)).bind ?_
      rintro ⟨st, data, c₁⟩ _ hc₁
      dsimp only at hc₁ ⊢
      split_ifs
      · exact .ok hc₁
      · refine (ih (i + 1) (hc₁.lock.trans hlock) (hc₁.area harea)).bind ?_
        rintro ⟨name, c₂⟩ _ hc₂
        exact .ok (hc₁.trans hc₂)

theorem ends_readName (hlock : c.mmvmLock = false) (harea : OneArea c.mm) {memrg : ℕ}
    (hrg : NamedRg (int32 memrg)) (data₀ : ℕ → Byte) :
    Ends Undefined (fun r => Keeps c r.2) (readName c memrg data₀) := by
  refine (ends_readNameFrom hrg data₀ procNameSize 0 hlock harea).bind ?_
  rintro ⟨name, c₁⟩ _ hc₁
  exact .ok hc₁

/-- The first read of an id that is not accepted keeps the lock, and the second waits for it. -/
theorem readName_not_named (hlock : c.mmvmLock = false) (harea : OneArea c.mm) {memrg : ℕ}
    (hrg : ¬ NamedRg (int32 memrg)) :
    readName c memrg (fun _ => 0) = .error .deadlock := by
  have hfirst : libread c memrg 0 0 = .ok (-1, 0, { c with mmvmLock := true }) := by
    simp only [libread, read_not_named hlock harea hrg]
    rfl
  have hsecond : libread { c with mmvmLock := true } memrg 1 0 = .error .deadlock := by
    unfold libread read
    rfl
  have hloop : readNameFrom memrg (fun _ => 0) (98 + 1 + 1) 0 c = .error .deadlock := by
    rw [readNameFrom, hfirst, ok_bind]
    show (if 0 = uint32 (-1) then _ else _) = _
    rw [if_neg (by decide), readNameFrom, hsecond]
    rfl
  show readNameFrom memrg (fun _ => 0) (98 + 1 + 1) 0 c >>= _ = _
  rw [hloop]
  rfl

theorem killallReleases_iff (hlock : c.mmvmLock = false) (harea : OneArea c.mm) (memrg : ℕ) :
    KillallReleases c memrg ↔ NamedRg (int32 memrg) := by
  constructor
  · intro h
    by_contra hrg
    have hwait : Undefined .deadlock := (h _).of_error (readName_not_named hlock harea hrg)
    cases hwait
  · exact fun hrg data₀ =>
      (ends_readName hlock harea hrg data₀).mono fun r hr => hr.lock.trans hlock

/-! ### Runs -/

/-- A step that reads or writes names its region. -/
def Event.Named : Event → Prop
  | .call _ cl _ _ => cl.Named
  | .load _ _ _ _ => True
  | .release _ => True

instance : ∀ e : Event, Decidable e.Named
  | .call _ cl _ _ => inferInstanceAs (Decidable cl.Named)
  | .load _ _ _ _ => inferInstanceAs (Decidable True)
  | .release _ => inferInstanceAs (Decidable True)

theorem lock_step {s s' : Sys} {e : Event} (h : Sane s) (hs : MemStep s e s') :
    s'.mmvmLock = false ↔ s.mmvmLock = false ∧ e.Named := by
  cases hs with
  | @call p pr cl st val c hp hc =>
      have harea : OneArea (s.ctx pr).mm := h.area p pr hp
      show c.mmvmLock = false ↔ s.mmvmLock = false ∧ cl.Named
      by_cases hlock : (s.ctx pr).mmvmLock = false
      · by_cases hcl : cl.Named
        · have hk := (Ctx.ends_call hlock harea hcl).of_ok hc
          exact ⟨fun _ => ⟨hlock, hcl⟩, fun _ => hk.lock.trans hlock⟩
        · obtain ⟨val', hret⟩ := Ctx.call_not_named hlock harea hcl
          obtain ⟨_, _, rfl⟩ := by simpa [hc] using hret
          simp [hcl]
      · -- only system call 17 returns while the lock is held
        have hmemmap : ∃ regs, cl = .memmap regs := by
          by_contra hne
          push Not at hne
          rw [Ctx.call_locked (by simpa using hlock) hne] at hc
          cases hc
        obtain ⟨regs, rfl⟩ := hmemmap
        obtain ⟨⟨_, _, _⟩, hm, hc⟩ := bind_eq_ok.mp hc
        obtain ⟨_, _, rfl⟩ := by simpa using hc
        have hk := (ends_sysMemmap _ regs).of_ok hm
        rw [hk.lock]
        exact ⟨fun hfree => absurd hfree hlock, fun hfree => absurd hfree.1 hlock⟩
  | load _ _ _ _ => exact ⟨fun hfree => ⟨hfree, trivial⟩, And.left⟩
  | release _ => exact ⟨fun hfree => ⟨hfree, trivial⟩, And.left⟩

variable {n m : ℕ} {s₀ s : Sys} {es : List Event}

theorem lock_free_iff (h₀ : Booted n m s₀) (hr : memLts.Run s₀ es s) :
    s.mmvmLock = false ↔ ∀ e ∈ es, e.Named := by
  induction hr with
  | nil => exact ⟨fun _ _ hmem => absurd hmem List.not_mem_nil, fun _ => h₀.lock⟩
  | snoc hrun hs ih =>
      rw [lock_step (Sane.of_run h₀ hrun) hs, ih]
      simp [or_imp, forall_and]

/-- **The lock is released** in every run whose reads and writes name regions that
`get_symrg_byid` accepts, and in no other: there every call of every process, and the reading loop
of `killall`, releases it exactly where it names such a region. -/
theorem lock_released (h₀ : Booted n m s₀) (hr : memLts.Run s₀ es s) :
    (s.mmvmLock = false ↔ ∀ e ∈ es, e.Named) ∧
    ((∀ e ∈ es, e.Named) → ∀ p pr, s.procs p = some pr →
      (∀ cl, Releases (s.ctx pr) cl ↔ cl.Named) ∧
      ∀ memrg, KillallReleases (s.ctx pr) memrg ↔ NamedRg (int32 memrg)) := by
  have hfree := lock_free_iff h₀ hr
  refine ⟨hfree, fun hnamed p pr hp => ?_⟩
  have hlock : (s.ctx pr).mmvmLock = false := hfree.mpr hnamed
  have harea : OneArea (s.ctx pr).mm := (Sane.of_run h₀ hr).area p pr hp
  exact ⟨releases_iff hlock harea, killallReleases_iff hlock harea⟩

end

/-! ### Runs on a small machine -/

theorem lock_released_sample : ∃ s pr, (@memLts header22).Run boot22 nameEvents s ∧
    s.procs 0 = some pr ∧ s.mmvmLock = false ∧ @KillallReleases header22 (s.ctx pr) 1 := by
  let := header22
  obtain ⟨s, pr, _, hrun, hp, _⟩ := name_sample
  obtain ⟨hfree, hcalls⟩ := lock_released booted_boot22 hrun
  have hnamed : ∀ e ∈ nameEvents, e.Named := by decide
  exact ⟨s, pr, hrun, hp, hfree.mpr hnamed, ((hcalls hnamed 0 pr hp).2 1).mpr (by decide)⟩

/-- A read of the id 31 returns with the lock held, and the process waits for it at its next
call. -/
theorem lock_not_released : ∃ s pr, (@memLts header22).Run boot22 [loadBlank 0,
    .call 0 (.read 31 0 0) (-1) (some 0)] s ∧ s.procs 0 = some pr ∧ s.mmvmLock = true ∧
      @Ctx.call header22 (s.ctx pr) (.alloc 1 1) = .error .deadlock := by
  let := header22
  have hsome : (Lts.replay Sys.next boot22 [loadBlank 0,
      .call 0 (.read 31 0 0) (-1) (some 0)]).any (fun s => (s.procs 0).isSome) = true := by
    decide +kernel
  obtain ⟨s, hs, hproc⟩ := (Option.any_eq_true _ _).mp hsome
  obtain ⟨pr, hp⟩ := Option.isSome_iff_exists.mp hproc
  have hrun := Lts.Run.of_replay (A := memLts) (fun _ _ _ => memStep_of_next) hs
  have hheld : s.mmvmLock = true := by
    rw [← Bool.not_eq_false, lock_free_iff booted_boot22 hrun]
    intro hnamed
    have hread : NamedRg (int32 31) := hnamed (.call 0 (.read 31 0 0) (-1) (some 0)) (by simp)
    exact absurd hread (by decide)
  exact ⟨s, pr, hrun, hp, hheld, Ctx.call_locked hheld fun _ he => by cases he⟩

end BtlOs
