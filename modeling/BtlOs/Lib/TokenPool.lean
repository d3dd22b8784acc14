import Mathlib.Data.List.Nodup
import Mathlib.Data.List.Perm.Basic
import Mathlib.Data.Set.Card
import Mathlib.Logic.Function.Basic
import Mathlib.Algebra.BigOperators.Group.List.Basic

/-! # Tokens between a pool and their holders

Tokens of type `R` are either in a pool (a list) or held, at most one by each holder of type `K`
(`own : K → Option R`).

* `Unique pool own`: no token is at two places, the safety half of ownership.
* `Covers univ pool own`: no token of `univ` is lost, the conservation half.

Each elementary move of a token (`take` from the head of the pool, `move` between holders,
`drop`) has one lemma for each half; `takeAll` is the move of a list of tokens to a list of
holders.  `unique_iff_encard` is the reading of `Unique` as a multiset in which every token
occurs at most once. -/

namespace TokenPool

variable {K R : Type} [DecidableEq K]

/-- No token is at two places. -/
structure Unique (pool : List R) (own : K → Option R) : Prop where
  nodup : pool.Nodup
  notMem : ∀ {k r}, own k = some r → r ∉ pool
  inj : ∀ {k k' r}, own k = some r → own k' = some r → k = k'

/-- Every token of `univ` is somewhere. -/
def Covers (univ : R → Prop) (pool : List R) (own : K → Option R) : Prop :=
  ∀ r, univ r → r ∈ pool ∨ ∃ k, own k = some r

/-! ### Moves -/

omit [DecidableEq K] in
theorem Unique.of_perm {pool pool' : List R} {own : K → Option R} (h : Unique pool own)
    (hp : pool.Perm pool') : Unique pool' own where
  nodup := hp.nodup_iff.mp h.nodup
  notMem hk hr := h.notMem hk (hp.mem_iff.mpr hr)
  inj := h.inj

omit [DecidableEq K] in
theorem Unique.mono {pool : List R} {own own' : K → Option R} (h : Unique pool own)
    (hle : ∀ k r, own' k = some r → own k = some r) : Unique pool own' where
  nodup := h.nodup
  notMem hk := h.notMem (hle _ _ hk)
  inj hk hk' := h.inj (hle _ _ hk) (hle _ _ hk')

theorem Unique.take {r : R} {pool : List R} {own : K → Option R} (h : Unique (r :: pool) own)
    (k : K) : Unique pool (Function.update own k (some r)) where
  nodup := (List.nodup_cons.mp h.nodup).2
  notMem := by
    intro k' r' hk hr
    by_cases e : k' = k
    · subst e
      rw [Function.update_self, Option.some.injEq] at hk
      subst hk
      exact (List.nodup_cons.mp h.nodup).1 hr
    · rw [Function.update_of_ne e] at hk
      exact h.notMem hk (List.mem_cons_of_mem r hr)
  inj := by
    intro k₁ k₂ r' h₁ h₂
    by_cases e₁ : k₁ = k <;> by_cases e₂ : k₂ = k
    · rw [e₁, e₂]
    · subst e₁
      rw [Function.update_self, Option.some.injEq] at h₁
      rw [Function.update_of_ne e₂] at h₂
      exact absurd (h₁ ▸ List.mem_cons_self) (h.notMem h₂)
    · subst e₂
      rw [Function.update_self, Option.some.injEq] at h₂
      rw [Function.update_of_ne e₁] at h₁
      exact absurd (h₂ ▸ List.mem_cons_self) (h.notMem h₁)
    · rw [Function.update_of_ne e₁] at h₁
      rw [Function.update_of_ne e₂] at h₂
      exact h.inj h₁ h₂

/-- A token moves from one holder to another. -/
theorem Unique.move {pool : List R} {own : K → Option R} (h : Unique pool own) {k : K} {r : R}
    (hk : own k = some r) (k' : K) :
    Unique pool (Function.update (Function.update own k none) k' (some r)) := by
  have hr : Unique (r :: pool) (Function.update own k none) :=
    { nodup := List.nodup_cons.mpr ⟨h.notMem hk, h.nodup⟩
      notMem := by
        intro j s hj hs
        by_cases e : j = k
        · rw [e, Function.update_self] at hj
          cases hj
        · rw [Function.update_of_ne e] at hj
          rcases List.mem_cons.mp hs with rfl | hs
          · exact e (h.inj hj hk)
          · exact h.notMem hj hs
      inj := by
        intro i j s hi hj
        by_cases ei : i = k
        · rw [ei, Function.update_self] at hi
          cases hi
        · by_cases ej : j = k
          · rw [ej, Function.update_self] at hj
            cases hj
          · rw [Function.update_of_ne ei] at hi
            rw [Function.update_of_ne ej] at hj
            exact h.inj hi hj }
  exact hr.take k'

omit [DecidableEq K] in
theorem Covers.of_perm {univ : R → Prop} {pool pool' : List R} {own : K → Option R}
    (h : Covers univ pool own) (hp : pool.Perm pool') : Covers univ pool' own := by
  intro r hr
  cases h r hr with
  | inl hm => exact .inl (hp.mem_iff.mp hm)
  | inr hk => exact .inr hk

omit [DecidableEq K] in
theorem Covers.mono {univ : R → Prop} {pool : List R} {own own' : K → Option R}
    (h : Covers univ pool own) (hle : ∀ k r, own k = some r → own' k = some r) :
    Covers univ pool own' := by
  intro r hr
  rcases h r hr with hm | ⟨k, hk⟩
  · exact .inl hm
  · exact .inr ⟨k, hle k r hk⟩

theorem Covers.take {univ : R → Prop} {r : R} {pool : List R} {own : K → Option R}
    (h : Covers univ (r :: pool) own) {k : K} (hk : own k = none) :
    Covers univ pool (Function.update own k (some r)) := by
  intro r' hr'
  rcases h r' hr' with hm | ⟨k', hk'⟩
  · rcases List.mem_cons.mp hm with rfl | hm
    · exact .inr ⟨k, Function.update_self ..⟩
    · exact .inl hm
  · have e : k' ≠ k := by
      rintro rfl
      rw [hk] at hk'
      cases hk'
    exact .inr ⟨k', by rw [Function.update_of_ne e, hk']⟩

theorem Covers.move {univ : R → Prop} {pool : List R} {own : K → Option R}
    (h : Covers univ pool own) {k k' : K} {r : R} (hk : own k = some r) (hk' : own k' = none) :
    Covers univ pool (Function.update (Function.update own k none) k' (some r)) := by
  intro r' hr'
  rcases h r' hr' with hm | ⟨j, hj⟩
  · exact .inl hm
  · have e : j ≠ k' := by
      rintro rfl
      rw [hk'] at hj
      cases hj
    by_cases ej : j = k
    · subst ej
      rw [hk, Option.some.injEq] at hj
      subst hj
      exact .inr ⟨k', Function.update_self ..⟩
    · exact .inr ⟨j, by rw [Function.update_of_ne e, Function.update_of_ne ej, hj]⟩

/-! ### Moving a list of tokens to a list of holders -/

/-- The `i`-th holder of `ks` receives the `i`-th token of `rs`. -/
def giveAll (own : K → Option R) : List K → List R → K → Option R
  | k :: ks, r :: rs => giveAll (Function.update own k (some r)) ks rs
  | _, _ => own

theorem giveAll_of_notMem {k : K} (ks : List K) (rs : List R) (own : K → Option R)
    (h : k ∉ ks) : giveAll own ks rs k = own k := by
  induction ks generalizing rs own with
  | nil => rfl
  | cons k' ks ih =>
      cases rs with
      | nil => rfl
      | cons r rs =>
          rw [List.mem_cons, not_or] at h
          rw [giveAll, ih _ _ h.2, Function.update_of_ne h.1]

theorem Unique.giveAll : ∀ (ks : List K) (rs : List R) {pool : List R} {own : K → Option R},
    ks.length = rs.length → Unique (rs ++ pool) own → Unique pool (giveAll own ks rs)
  | [], [], _, _, _, h => h
  | k :: ks, r :: rs, _, _, hl, h => by
      rw [List.cons_append] at h
      exact Unique.giveAll ks rs (by simpa using hl) (h.take k)

theorem Covers.giveAll {univ : R → Prop} : ∀ (ks : List K) (rs : List R) {pool : List R}
    {own : K → Option R}, ks.length = rs.length → ks.Nodup → (∀ k ∈ ks, own k = none) →
    Covers univ (rs ++ pool) own → Covers univ pool (giveAll own ks rs)
  | [], [], _, _, _, _, _, h => h
  | k :: ks, r :: rs, _, _, hl, hnd, hfree, h => by
      rw [List.cons_append] at h
      obtain ⟨hk, hnd'⟩ := List.nodup_cons.mp hnd
      refine Covers.giveAll ks rs (by simpa using hl) hnd' ?_
        (h.take (hfree k List.mem_cons_self))
      intro k' hk'
      have e : k' ≠ k := by
        rintro rfl
        exact hk hk'
      rw [Function.update_of_ne e]
      exact hfree k' (List.mem_cons_of_mem k hk')

theorem giveAll_getElem : ∀ (ks : List K) (rs : List R) (own : K → Option R) {i : ℕ}
    (hk : i < ks.length) (hr : i < rs.length), ks.Nodup → giveAll own ks rs ks[i] = some rs[i]
  | k :: ks, r :: rs, own, 0, _, _, hnd => by
      obtain ⟨hk, _⟩ := List.nodup_cons.mp hnd
      simp only [giveAll, List.getElem_cons_zero]
      rw [giveAll_of_notMem ks rs _ hk, Function.update_self]
  | k :: ks, r :: rs, own, i + 1, hk, hr, hnd => by
      simp only [giveAll, List.getElem_cons_succ]
      exact giveAll_getElem ks rs _ _ _ (List.nodup_cons.mp hnd).2

omit [DecidableEq K] in
theorem perm_take_reverse_append_drop (n : ℕ) (pool : List R) :
    pool.Perm ((pool.take n).reverse ++ pool.drop n) :=
  calc pool = pool.take n ++ pool.drop n := (List.take_append_drop n pool).symm
    _ |>.Perm ((pool.take n).reverse ++ pool.drop n) :=
      (List.reverse_perm (pool.take n)).symm.append_right _

/-- A table `own'` in which the holders `ks` have at most the tokens they were given, and every
other holder at most what it had. -/
theorem Unique.grant {rs pool : List R} {own own' : K → Option R}
    (h : Unique (rs ++ pool) own) (ks : List K) (hl : ks.length = rs.length) (hnd : ks.Nodup)
    (hnew : ∀ i (hk : i < ks.length) (hr : i < rs.length) r, own' ks[i] = some r → r = rs[i])
    (hold : ∀ k, k ∉ ks → ∀ r, own' k = some r → own k = some r) : Unique pool own' := by
  apply (Unique.giveAll ks rs hl h).mono
  intro k r hk
  by_cases hm : k ∈ ks
  · obtain ⟨i, hi, rfl⟩ := List.getElem_of_mem hm
    rw [giveAll_getElem ks rs own hi (hl ▸ hi) hnd, hnew i hi (hl ▸ hi) r hk]
  · rw [giveAll_of_notMem ks rs own hm]
    exact hold k hm r hk

/-! ### Multiplicity -/

omit [DecidableEq K] in
/-- `Unique` says that every token occurs at most once among the pool and the holders. -/
theorem unique_iff_encard [DecidableEq R] {pool : List R} {own : K → Option R} :
    Unique pool own ↔ ∀ r, (pool.count r : ℕ∞) + {k | own k = some r}.encard ≤ 1 := by
  constructor
  · intro h r
    by_cases hr : r ∈ pool
    · have hempty : {k | own k = some r} = ∅ := by
        ext k
        simp only [Set.mem_ofPred_eq, Set.mem_empty_iff_false, iff_false]
        exact fun hk => h.notMem hk hr
      rw [hempty, Set.encard_empty, add_zero, List.count_eq_one_of_mem h.nodup hr, Nat.cast_one]
    · rw [List.count_eq_zero_of_not_mem hr, Nat.cast_zero, zero_add, Set.encard_le_one_iff]
      exact fun k k' hk hk' => h.inj hk hk'
  · intro h
    refine ⟨List.nodup_iff_count_le_one.mpr fun r => ?_, fun {k r} hk hr => ?_,
      fun {k k' r} hk hk' => ?_⟩
    · have := le_trans le_self_add (h r)
      exact_mod_cast this
    · have h1 : (1 : ℕ∞) ≤ {k | own k = some r}.encard :=
        Set.one_le_encard_iff_nonempty.mpr ⟨k, hk⟩
      have h2 : (1 : ℕ∞) ≤ (pool.count r : ℕ∞) := by
        exact_mod_cast List.count_pos_iff.mpr hr
      have h3 := le_trans (add_le_add h2 h1) (h r)
      exact absurd h3 (by decide)
    · have := le_trans le_add_self (h r)
      exact Set.encard_le_one_iff.mp this k k' hk hk'

end TokenPool
