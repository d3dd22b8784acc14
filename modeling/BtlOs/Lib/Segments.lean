import Mathlib.Data.List.Pairwise
import Mathlib.Order.Lattice
import Mathlib.Data.List.Perm.Basic

/-! # Separated lists of segments

A list of segments `lo s ≤ a < hi s` over a linear order is `Separated` when every segment is
non-empty and each one ends strictly before the next one begins: ascending, disjoint and without
two segments that touch.  `Cover` is the set of the points of the list.

The rules are those of a free list: separated lists are closed under sublists, a segment may be
put between two parts of a list that it keeps apart from (`Separated.insert`), and the segment
taken out of a list is apart from the rest (`Separated.apart`).  A separated list is the only one
with its points (`Separated.ext`). -/

namespace Segments

variable {S α : Type} [LinearOrder α] (lo hi : S → α)

/-- The segments neither overlap nor touch. -/
def Apart (s t : S) : Prop := hi s < lo t ∨ hi t < lo s

/-- The point `a` lies in the segment `s`. -/
def Inside (s : S) (a : α) : Prop := lo s ≤ a ∧ a < hi s

/-- The points of a list of segments. -/
def Cover (l : List S) (a : α) : Prop := ∃ s ∈ l, Inside lo hi s a

structure Separated (l : List S) : Prop where
  nonempty : ∀ s ∈ l, lo s < hi s
  gaps : l.Pairwise (fun s t => hi s < lo t)

variable {lo hi} {l l₁ l₂ : List S} {s t : S}

theorem separated_nil : Separated lo hi ([] : List S) := ⟨by simp, .nil⟩

theorem separated_cons : Separated lo hi (s :: l) ↔
    lo s < hi s ∧ (∀ t ∈ l, hi s < lo t) ∧ Separated lo hi l := by
  constructor
  · rintro ⟨hne, hg⟩
    obtain ⟨h₁, h₂⟩ := List.pairwise_cons.mp hg
    exact ⟨hne s List.mem_cons_self, h₁, fun t ht => hne t (List.mem_cons_of_mem s ht), h₂⟩
  · rintro ⟨h₁, h₂, h₃⟩
    exact ⟨List.forall_mem_cons.mpr ⟨h₁, h₃.nonempty⟩, List.pairwise_cons.mpr ⟨h₂, h₃.gaps⟩⟩

theorem Separated.sublist (h : Separated lo hi l) (hs : l₁.Sublist l) : Separated lo hi l₁ :=
  ⟨fun s hm => h.nonempty s (hs.subset hm), h.gaps.sublist hs⟩

theorem Separated.apart (h : Separated lo hi (l₁ ++ s :: l₂)) :
    ∀ t ∈ l₁ ++ l₂, Apart lo hi s t := by
  intro t ht
  obtain ⟨_, h₂, h₁₂⟩ := List.pairwise_append.mp h.gaps
  cases List.mem_append.mp ht with
  | inl ht => exact .inr (h₁₂ t ht s List.mem_cons_self)
  | inr ht => exact .inl ((List.pairwise_cons.mp h₂).1 t ht)

/-- A segment may be put where it is after everything before it and before everything after. -/
theorem Separated.insert (h : Separated lo hi (l₁ ++ l₂)) (hs : lo s < hi s)
    (h₁ : ∀ t ∈ l₁, hi t < lo s) (h₂ : ∀ t ∈ l₂, hi s < lo t) :
    Separated lo hi (l₁ ++ s :: l₂) := by
  obtain ⟨g₁, g₂, g₁₂⟩ := List.pairwise_append.mp h.gaps
  refine ⟨?_, List.pairwise_append.mpr ⟨g₁, List.pairwise_cons.mpr ⟨h₂, g₂⟩, ?_⟩⟩
  · intro t ht
    cases List.mem_append.mp ht with
    | inl ht => exact h.nonempty t (List.mem_append_left l₂ ht)
    | inr ht =>
        rcases List.mem_cons.mp ht with rfl | ht
        · exact hs
        · exact h.nonempty t (List.mem_append_right l₁ ht)
  · intro t ht u hu
    rcases List.mem_cons.mp hu with rfl | hu
    · exact h₁ t ht
    · exact g₁₂ t ht u hu

/-! ### The points of a list -/

theorem cover_cons {a : α} : Cover lo hi (s :: l) a ↔ Inside lo hi s a ∨ Cover lo hi l a := by
  unfold Cover
  simp

theorem cover_append {a : α} :
    Cover lo hi (l₁ ++ l₂) a ↔ Cover lo hi l₁ a ∨ Cover lo hi l₂ a := by
  unfold Cover
  simp only [List.mem_append, or_and_right, exists_or]

theorem Cover.of_mem {a : α} (h : Inside lo hi s a) (hs : s ∈ l) : Cover lo hi l a := ⟨s, hs, h⟩

/-! ### Segments without a common point -/

/-- No point lies in two segments of the list, in whatever order they stand. -/
def Parted (lo hi : S → α) (l : List S) : Prop :=
  l.Pairwise fun s t => ∀ a, Inside lo hi s a → ¬ Inside lo hi t a

theorem Parted.not_inside (h : Parted lo hi l) {j k : ℕ} (hjk : j ≠ k) (hs : l[j]? = some s)
    (ht : l[k]? = some t) {a : α} (ha : Inside lo hi s a) : ¬ Inside lo hi t a := by
  obtain ⟨hj, rfl⟩ := List.getElem?_eq_some_iff.mp hs
  obtain ⟨hk, rfl⟩ := List.getElem?_eq_some_iff.mp ht
  intro hta
  cases Nat.lt_or_gt_of_ne hjk with
  | inl hlt => exact List.pairwise_iff_getElem.mp h j k hj hk hlt a ha hta
  | inr hgt => exact List.pairwise_iff_getElem.mp h k j hk hj hgt a hta ha

/-- A segment may be put in the place of another one where it meets none of the rest. -/
theorem Parted.set (h : Parted lo hi l) {k : ℕ} (hs : ∀ j t, j ≠ k → l[j]? = some t →
    ∀ a, Inside lo hi s a → ¬ Inside lo hi t a) : Parted lo hi (l.set k s) := by
  unfold Parted at h ⊢
  rw [List.pairwise_iff_getElem] at h ⊢
  intro i j hi hj hij
  rw [List.length_set] at hi hj
  rw [List.getElem_set, List.getElem_set]
  split_ifs with hik hjk hjk
  · omega
  · exact hs j _ (Ne.symm hjk) (List.getElem?_eq_getElem hj)
  · exact fun a ht hsa => hs i _ (Ne.symm hik) (List.getElem?_eq_getElem hi) a hsa ht
  · exact h i j hi hj hij

/-! ### A set of points has one separated list -/

theorem Separated.lo_le {a : α} (h : Separated lo hi (s :: l)) (ha : Cover lo hi (s :: l) a) :
    lo s ≤ a := by
  obtain ⟨hs, hgap, _⟩ := separated_cons.mp h
  rcases cover_cons.mp ha with ha | ⟨t, ht, ha⟩
  · exact ha.1
  · exact (hs.trans (hgap t ht)).le.trans ha.1

theorem Separated.cover_tail {a : α} (h : Separated lo hi (s :: l)) :
    Cover lo hi l a ↔ Cover lo hi (s :: l) a ∧ hi s < a := by
  obtain ⟨_, hgap, _⟩ := separated_cons.mp h
  rw [cover_cons]
  constructor
  · intro ha
    refine ⟨.inr ha, ?_⟩
    obtain ⟨t, ht, hin⟩ := ha
    exact lt_of_lt_of_le (hgap t ht) hin.1
  · rintro ⟨ha | ha, hlt⟩
    · exact absurd ha.2 (not_lt_of_gt hlt)
    · exact ha

/-- The point where the first segment ends is in a gap. -/
theorem Separated.not_cover_hi (h : Separated lo hi (s :: l)) : ¬ Cover lo hi (s :: l) (hi s) := by
  intro ha
  rcases cover_cons.mp ha with ha | ha
  · exact lt_irrefl _ ha.2
  · exact lt_irrefl _ (h.cover_tail.mp ha).2

theorem Separated.hi_le (h : Separated lo hi (s :: l)) (hlo : lo s = lo t)
    (hcov : ∀ a, Cover lo hi (t :: l₁) a → Cover lo hi (s :: l) a) : hi t ≤ hi s := by
  by_contra hlt
  refine h.not_cover_hi (hcov _ ?_)
  refine cover_cons.mpr (.inl ⟨?_, not_le.mp hlt⟩)
  rw [← hlo]
  exact (separated_cons.mp h).1.le

/-- **Canonical form.** -/
theorem Separated.ext (hinj : ∀ s t, lo s = lo t → hi s = hi t → s = t) (h : Separated lo hi l)
    (h' : Separated lo hi l₁) (hcov : ∀ a, Cover lo hi l a ↔ Cover lo hi l₁ a) : l = l₁ := by
  have hfirst : ∀ {l : List S} {s : S}, Separated lo hi (s :: l) → Cover lo hi (s :: l) (lo s) :=
    fun h => cover_cons.mpr (.inl ⟨le_rfl, (separated_cons.mp h).1⟩)
  have hnil : ∀ a, ¬ Cover lo hi ([] : List S) a := by
    rintro a ⟨s, hs, _⟩
    cases hs
  induction l generalizing l₁ with
  | nil =>
      cases l₁ with
      | nil => rfl
      | cons t l₁ => exact absurd ((hcov _).mpr (hfirst h')) (hnil _)
  | cons s l ih =>
      cases l₁ with
      | nil => exact absurd ((hcov _).mp (hfirst h)) (hnil _)
      | cons t l₁ =>
          have hlo : lo s = lo t :=
            le_antisymm (h.lo_le ((hcov _).mpr (hfirst h'))) (h'.lo_le ((hcov _).mp (hfirst h)))
          have hhi : hi s = hi t :=
            le_antisymm (h'.hi_le hlo.symm fun a => (hcov a).mp)
              (h.hi_le hlo fun a => (hcov a).mpr)
          obtain rfl := hinj s t hlo hhi
          congr 1
          apply ih (separated_cons.mp h).2.2 (separated_cons.mp h').2.2
          intro a
          rw [h.cover_tail, h'.cover_tail, hcov]

end Segments
