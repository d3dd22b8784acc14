import BtlOs.System
import BtlOs.Lib.TokenPool

/-! # Frames and their holders

Frames are the tokens of `TokenPool`, the pages of all processes their holders.  What a page holds
is read off the memory map of its process by a reading `f`: the frame that a `PRESENT` entry
resolves to, the swap frame of a `SWAPPED` entry, or the frame of a page below `vm_end`.

The lemmas say what the steps of the system do to a reading, whichever it is. -/

namespace BtlOs

open CLang Header TokenPool Table

/-- The frame that the page `k.2` of the process `k.1` holds. -/
def Sys.own (f : Mm → ℕ → Option ℕ) (s : Sys) (k : ℕ × ℕ) : Option ℕ :=
  (s.procs k.1).bind fun pr => f pr.mm k.2

section

variable {f : Mm → ℕ → Option ℕ} {s : Sys} {p : ℕ} {pr : Process} {c : Ctx}

theorem own_eq_some {k : ℕ × ℕ} {r : ℕ} :
    s.own f k = some r ↔ ∃ pr, s.procs k.1 = some pr ∧ f pr.mm k.2 = some r :=
  Option.bind_eq_some_iff

theorem own_of_proc (hp : s.procs p = some pr) (g : ℕ) : s.own f (p, g) = f pr.mm g := by
  simp [Sys.own, hp]

theorem own_commit_self (g : ℕ) : (s.commit p c).own f (p, g) = f c.mm g := by
  simp [Sys.own, Sys.commit]

theorem own_commit_of_ne {k : ℕ × ℕ} (hne : k.1 ≠ p) : (s.commit p c).own f k = s.own f k := by
  simp [Sys.own, Sys.commit, hne]

/-- The holdings when the pages of process `p` hold `u`. -/
def Sys.ownWith (f : Mm → ℕ → Option ℕ) (s : Sys) (p : ℕ) (u : ℕ → Option ℕ) (k : ℕ × ℕ) :
    Option ℕ :=
  if k.1 = p then u k.2 else s.own f k

theorem own_commit : (s.commit p c).own f = s.ownWith f p (f c.mm) := by
  funext k
  obtain ⟨q, g⟩ := k
  by_cases hne : q = p
  · subst hne
    simp [Sys.ownWith, own_commit_self]
  · simp only [Sys.ownWith, hne, if_false]
    exact own_commit_of_ne hne

theorem ownWith_self (hp : s.procs p = some pr) : s.ownWith f p (f pr.mm) = s.own f := by
  funext k
  obtain ⟨q, g⟩ := k
  by_cases hne : q = p
  · subst hne
    simp [Sys.ownWith, own_of_proc hp]
  · simp [Sys.ownWith, hne]

theorem ownWith_update (u : ℕ → Option ℕ) (g : ℕ) (x : Option ℕ) :
    s.ownWith f p (Function.update u g x) = Function.update (s.ownWith f p u) (p, g) x := by
  funext k
  obtain ⟨q, h⟩ := k
  simp only [Sys.ownWith, Function.update_apply, Prod.mk.injEq]
  by_cases hq : q = p <;> by_cases hg : h = g <;> simp [hq, hg]

theorem ownWith_giveAll : ∀ (gs frames : List ℕ) (u : ℕ → Option ℕ),
    s.ownWith f p (giveAll u gs frames) =
      giveAll (s.ownWith f p u) (gs.map (Prod.mk p)) frames
  | [], _, _ => by simp [giveAll]
  | _ :: _, [], _ => by simp [giveAll]
  | g :: gs, fpn :: frames, u => by
      rw [List.map_cons, giveAll, giveAll, ownWith_giveAll gs frames, ownWith_update]

theorem own_commit_cases {k : ℕ × ℕ} {r : ℕ} (h : (s.commit p c).own f k = some r) :
    k.1 = p ∧ f c.mm k.2 = some r ∨ k.1 ≠ p ∧ s.own f k = some r := by
  by_cases hne : k.1 = p
  · obtain ⟨q, g⟩ := k
    obtain rfl := hne
    rw [own_commit_self] at h
    exact .inl ⟨rfl, h⟩
  · rw [own_commit_of_ne hne] at h
    exact .inr ⟨hne, h⟩

theorem unique_commit {pool : List ℕ} (h : Unique pool (s.own f)) (hp : s.procs p = some pr)
    (hf : ∀ g r, f c.mm g = some r → f pr.mm g = some r) : Unique pool ((s.commit p c).own f) := by
  apply h.mono
  intro k r hk
  rcases own_commit_cases hk with ⟨rfl, hr⟩ | ⟨_, hr⟩
  · rw [own_of_proc hp]
    exact hf k.2 r hr
  · exact hr

/-- A call that gives the first `n` free frames to the pages from `a` on. -/
theorem unique_commit_grown {pool : List ℕ} {a n : ℕ} (h : Unique pool (s.own f))
    (hp : s.procs p = some pr) (hn : n ≤ pool.length)
    (hnew : ∀ i (hi : i < (pool.take n).reverse.length) r, f c.mm (a + i) = some r →
      r = (pool.take n).reverse[i])
    (hold : ∀ g, g < a ∨ a + n ≤ g → ∀ r, f c.mm g = some r → f pr.mm g = some r) :
    Unique (pool.drop n) ((s.commit p c).own f) := by
  have hlen : (pool.take n).reverse.length = n := by simpa using hn
  have hperm := h.of_perm (perm_take_reverse_append_drop n pool)
  refine hperm.grant ((List.range' a n).map (Prod.mk p)) (by simp [hn]) ?_ ?_ ?_
  · exact List.Nodup.map (Prod.mk_right_injective p) List.nodup_range'
  · intro i hk hr r hown
    simp only [List.getElem_map, List.getElem_range', own_commit_self, Nat.one_mul] at hown
    exact hnew i hr r hown
  · intro k hk r hown
    rcases own_commit_cases hown with ⟨rfl, hr⟩ | ⟨_, hr⟩
    · rw [own_of_proc hp]
      refine hold k.2 ?_ r hr
      by_contra hin
      push Not at hin
      exact hk (List.mem_map.mpr ⟨k.2, List.mem_range'_1.mpr ⟨hin.1, hin.2⟩, rfl⟩)
    · exact hr

theorem bound_commit {P : ℕ → Prop} (h : ∀ k r, s.own f k = some r → P r)
    (hp : s.procs p = some pr) (hf : ∀ g r, f c.mm g = some r → f pr.mm g = some r ∨ P r) :
    ∀ k r, (s.commit p c).own f k = some r → P r := by
  intro k r hk
  rcases own_commit_cases hk with ⟨rfl, hr⟩ | ⟨_, hr⟩
  · cases hf k.2 r hr with
    | inl hold => exact h k r (own_eq_some.mpr ⟨pr, hp, hold⟩)
    | inr hnew => exact hnew
  · exact h k r hr

theorem own_of_update {x : Option Process} (hx : ∀ pr, x = some pr → ∀ g, f pr.mm g = none)
    (k : ℕ × ℕ) (r : ℕ)
    (hk : ({ s with procs := Function.update s.procs p x } : Sys).own f k = some r) :
    s.own f k = some r := by
  obtain ⟨pr, hp, hr⟩ := own_eq_some.mp hk
  cases update_eq_some.mp hp with
  | inl h =>
      rw [hx pr h.2] at hr
      cases hr
  | inr h => exact own_eq_some.mpr ⟨pr, h.2, hr⟩

theorem unique_update {pool : List ℕ} {x : Option Process} (h : Unique pool (s.own f))
    (hx : ∀ pr, x = some pr → ∀ g, f pr.mm g = none) :
    Unique pool (({ s with procs := Function.update s.procs p x } : Sys).own f) :=
  h.mono (own_of_update hx)

end

end BtlOs
