import BtlOs.Vma
import BtlOs.Lib.Segments

/-! # The free-region list

What the list walks of `libmem.c` compute on a separated list (ascending, non-empty nodes, none of
which touch): `enlist_vm_freerg_list` keeps it separated where the new region is apart from every
node, and the merging walk of `__free` makes the released region apart from every node that it
leaves in the list. -/

namespace BtlOs

open CLang Segments

/-- The addresses of a region. -/
abbrev VmRg.Inside (rg : VmRg) (a : ℕ) : Prop := Segments.Inside VmRg.rgStart VmRg.rgEnd rg a

/-- The addresses of a list of regions. -/
abbrev Covered (l : List VmRg) (a : ℕ) : Prop := Cover VmRg.rgStart VmRg.rgEnd l a

/-- Ascending, disjoint, without touching nodes. -/
abbrev SeparatedRg (l : List VmRg) : Prop := Separated VmRg.rgStart VmRg.rgEnd l

abbrev ApartRg (r t : VmRg) : Prop := Apart VmRg.rgStart VmRg.rgEnd r t

theorem inside_mk {b e a : ℕ} : (VmRg.mk b e).Inside a ↔ b ≤ a ∧ a < e := Iff.rfl

theorem apartRg_iff {r t : VmRg} : ApartRg r t ↔ r.rgEnd < t.rgStart ∨ t.rgEnd < r.rgStart :=
  Iff.rfl

/-! ### Insertion -/

theorem mem_enlistWalk {rg t : VmRg} {l : List VmRg} :
    t ∈ enlistWalk rg l ↔ t = rg ∨ t ∈ l := by
  induction l with
  | nil => simp [enlistWalk]
  | cons n next ih =>
      unfold enlistWalk
      split_ifs
      · simp
      · rw [List.mem_cons, ih, List.mem_cons]
        tauto

theorem separated_enlistWalk {rg : VmRg} (hrg : rg.rgStart < rg.rgEnd) {l : List VmRg}
    (hl : SeparatedRg l) (ha : ∀ t ∈ l, ApartRg rg t) : SeparatedRg (enlistWalk rg l) := by
  induction l with
  | nil => exact separated_cons.mpr ⟨hrg, by simp, separated_nil⟩
  | cons n next ih =>
      obtain ⟨hn, hgap, hnext⟩ := separated_cons.mp hl
      have han := ha n List.mem_cons_self
      unfold enlistWalk
      split_ifs with hge
      · -- every node of the list is after the new region
        have hlt : rg.rgEnd < n.rgStart := by
          cases han with
          | inl h => exact h
          | inr h => omega
        refine separated_cons.mpr ⟨hrg, ?_, hl⟩
        intro t ht
        rcases List.mem_cons.mp ht with rfl | ht
        · exact hlt
        · have := hgap t ht
          omega
      · have hkeep := ih hnext fun t ht => ha t (List.mem_cons_of_mem n ht)
        refine separated_cons.mpr ⟨hn, ?_, hkeep⟩
        intro t ht
        rcases mem_enlistWalk.mp ht with rfl | ht
        · cases han with
          | inl h => omega
          | inr h => exact h
        · exact hgap t ht

/-- The list after `enlist_vm_freerg_list`: an empty region is not inserted. -/
def enlist (rg : VmRg) (l : List VmRg) : List VmRg :=
  if rg.rgStart ≥ rg.rgEnd then l else enlistWalk rg l

theorem separated_enlist {rg : VmRg} {l : List VmRg} (hl : SeparatedRg l)
    (ha : ∀ t ∈ l, ApartRg rg t) : SeparatedRg (enlist rg l) := by
  unfold enlist
  split_ifs with h
  · exact hl
  · exact separated_enlistWalk (by omega) hl ha

theorem covered_enlist {rg : VmRg} {l : List VmRg} {a : ℕ} :
    Covered (enlist rg l) a ↔ rg.Inside a ∨ Covered l a := by
  unfold enlist
  split_ifs with h
  · have : ¬ rg.Inside a := by
      rintro ⟨h₁, h₂⟩
      omega
    tauto
  · unfold Covered Cover
    simp only [mem_enlistWalk, or_and_right, exists_or, exists_eq_left]

theorem rgEnd_le_of_covered {l : List VmRg} {b : ℕ} (hl : SeparatedRg l)
    (h : ∀ a, Covered l a → a < b) : ∀ t ∈ l, t.rgEnd ≤ b := by
  intro t ht
  have hne := hl.nonempty t ht
  have hlast : t.Inside (t.rgEnd - 1) := ⟨by omega, by omega⟩
  have := h _ (Cover.of_mem hlast ht)
  omega

/-! ### First fit -/

theorem firstFit_some {size : ℤ} {l : List VmRg} {n : VmRg} {rest : List VmRg}
    (h : firstFit size l = some (n, rest)) : ∃ l₁ l₂, l = l₁ ++ n :: l₂ ∧ rest = l₁ ++ l₂ ∧
      ulong size ≤ ulong ((n.rgEnd : ℤ) - n.rgStart) ∧
        ∀ t ∈ l₁, ulong ((t.rgEnd : ℤ) - t.rgStart) < ulong size := by
  induction l generalizing n rest with
  | nil => cases h
  | cons m next ih =>
      unfold firstFit at h
      split_ifs at h with hsz
      · obtain ⟨rfl, rfl⟩ := by simpa using h
        exact ⟨[], next, rfl, rfl, hsz, by simp⟩
      · obtain ⟨⟨n', rest'⟩, h', he⟩ := Option.map_eq_some_iff.mp h
        obtain ⟨rfl, rfl⟩ := by simpa using he
        obtain ⟨l₁, l₂, rfl, rfl, hs, hfirst⟩ := ih h'
        exact ⟨m :: l₁, l₂, rfl, rfl, hs, List.forall_mem_cons.mpr ⟨not_le.mp hsz, hfirst⟩⟩

theorem firstFit_none {size : ℤ} {l : List VmRg} (h : firstFit size l = none) :
    ∀ t ∈ l, ulong ((t.rgEnd : ℤ) - t.rgStart) < ulong size := by
  induction l with
  | nil => simp
  | cons m next ih =>
      unfold firstFit at h
      split_ifs at h with hsz
      exact List.forall_mem_cons.mpr ⟨not_le.mp hsz, ih (Option.map_eq_none_iff.mp h)⟩

section fit

variable {size : ℕ} {l : List VmRg} (hl : SeparatedRg l) (hulong : ∀ t ∈ l, t.rgEnd < 2 ^ 64)
  (hsz : size < 2 ^ 64)

include hl hulong hsz

/-- The comparison of `get_free_vmrg_area`, on addresses that are `unsigned long`s. -/
theorem ulong_le_iff {t : VmRg} (ht : t ∈ l) :
    ulong size ≤ ulong ((t.rgEnd : ℤ) - t.rgStart) ↔ t.rgStart + size ≤ t.rgEnd := by
  have hne := hl.nonempty t ht
  have hend := hulong t ht
  unfold ulong
  omega

theorem firstFit_split {rgit : VmRg} {rest : List VmRg} (h : firstFit size l = some (rgit, rest)) :
    ∃ l₁ l₂, l = l₁ ++ rgit :: l₂ ∧ rest = l₁ ++ l₂ ∧ rgit.rgStart + size ≤ rgit.rgEnd ∧
      ∀ t ∈ l₁, t.rgEnd < t.rgStart + size := by
  obtain ⟨l₁, l₂, he, hr, hfit, hfirst⟩ := firstFit_some h
  refine ⟨l₁, l₂, he, hr, (ulong_le_iff hl hulong hsz (by simp [he])).mp hfit, fun t ht => ?_⟩
  have hlt := hfirst t ht
  rw [← not_le, ulong_le_iff hl hulong hsz (by simp [he, ht])] at hlt
  exact not_le.mp hlt

theorem firstFit_isSome_iff :
    (firstFit size l).isSome ↔ ∃ t ∈ l, t.rgStart + size ≤ t.rgEnd := by
  cases h : firstFit size l with
  | none =>
      simp only [Option.isSome_none, Bool.false_eq_true, false_iff, not_exists, not_and]
      intro t ht
      rw [← ulong_le_iff hl hulong hsz ht]
      exact not_le.mpr (firstFit_none h t ht)
  | some x =>
      obtain ⟨l₁, l₂, he, _, hfit, _⟩ := firstFit_split hl hulong hsz h
      simp only [Option.isSome_some, true_iff]
      exact ⟨x.1, by simp [he], hfit⟩

end fit

section split

variable {rgit : VmRg} {l₁ l₂ : List VmRg} {size : ℕ} (h : SeparatedRg (l₁ ++ rgit :: l₂))

include h

/-- The rest of a node, put in its place. -/
theorem separated_fit : SeparatedRg (enlist ⟨rgit.rgStart + size, rgit.rgEnd⟩ (l₁ ++ l₂)) := by
  apply separated_enlist
  · exact h.sublist (List.Sublist.append_left (List.sublist_cons_self rgit l₂) l₁)
  · intro t ht
    have := apartRg_iff.mp (h.apart t ht)
    rw [apartRg_iff]
    show rgit.rgEnd < t.rgStart ∨ t.rgEnd < rgit.rgStart + size
    omega

/-- The list loses the bytes that were taken from the front of the node. -/
theorem covered_fit (hle : rgit.rgStart + size ≤ rgit.rgEnd) (a : ℕ) :
    Covered (enlist ⟨rgit.rgStart + size, rgit.rgEnd⟩ (l₁ ++ l₂)) a ↔
      Covered (l₁ ++ rgit :: l₂) a ∧ ¬ (rgit.rgStart ≤ a ∧ a < rgit.rgStart + size) := by
  have hout : Covered (l₁ ++ l₂) a → ¬ rgit.Inside a := by
    rintro ⟨t, ht, h₁, h₂⟩ ⟨h₃, h₄⟩
    have := apartRg_iff.mp (h.apart t ht)
    omega
  have hin : rgit.Inside a ↔ rgit.rgStart ≤ a ∧ a < rgit.rgEnd := Iff.rfl
  have hlist : Covered (l₁ ++ rgit :: l₂) a ↔ rgit.Inside a ∨ Covered (l₁ ++ l₂) a := by
    simp only [Covered, cover_append, cover_cons]
    tauto
  rw [covered_enlist, hlist, inside_mk]
  constructor
  · rintro (ha | ha)
    · exact ⟨.inl ⟨by omega, ha.2⟩, by omega⟩
    · refine ⟨.inr ha, fun hfront => hout ha ⟨hfront.1, by omega⟩⟩
  · rintro ⟨ha | ha, hback⟩
    · rw [hin] at ha
      exact .inl ⟨by omega, ha.2⟩
    · exact .inr ha

end split

/-! ### Merging -/

section merge

variable {r t : VmRg} {l : List VmRg}

/-- No node overlaps the region; the region may be empty. -/
def DisjointRg (r : VmRg) (l : List VmRg) : Prop :=
  ∀ t ∈ l, t.rgEnd ≤ r.rgStart ∨ r.rgEnd ≤ t.rgStart

/-- A region that no node touches is left as it is. -/
theorem mergeWalk_of_not_touch
    (h : ∀ t ∈ l, t.rgEnd ≠ r.rgStart ∧ t.rgStart ≠ r.rgEnd) : mergeWalk r l = (r, l) := by
  induction l with
  | nil => rfl
  | cons t next ih =>
      obtain ⟨h₁, h₂⟩ := h t List.mem_cons_self
      unfold mergeWalk
      rw [if_neg h₁, if_neg h₂, ih fun t ht => h t (List.mem_cons_of_mem _ ht)]

theorem mergeWalk_sublist (l : List VmRg) (r : VmRg) : (mergeWalk r l).2.Sublist l := by
  induction l generalizing r with
  | nil => exact List.Sublist.refl _
  | cons t next ih =>
      unfold mergeWalk
      split_ifs
      · exact (ih _).cons t
      · exact (ih _).cons t
      · exact (ih r).cons_cons t

/-- What is merged is the region and the nodes taken out, no byte more or less. -/
theorem covered_mergeWalk {a : ℕ} (hr : r.rgStart ≤ r.rgEnd)
    (hne : ∀ t ∈ l, t.rgStart < t.rgEnd) :
    (mergeWalk r l).1.Inside a ∨ Covered (mergeWalk r l).2 a ↔ r.Inside a ∨ Covered l a := by
  induction l generalizing r with
  | nil => exact Iff.rfl
  | cons t next ih =>
      have ht := hne t List.mem_cons_self
      have hne' := fun u hu => hne u (List.mem_cons_of_mem t hu)
      unfold mergeWalk
      split_ifs with h₁ h₂
      · have hle : t.rgStart ≤ r.rgEnd := by omega
        have hin : (VmRg.mk t.rgStart r.rgEnd).Inside a ↔ r.Inside a ∨ t.Inside a := by
          simp only [VmRg.Inside, Segments.Inside]
          omega
        rw [ih hle hne', hin, or_assoc, Covered, Covered, cover_cons]
      · have hle : r.rgStart ≤ t.rgEnd := by omega
        have hin : (VmRg.mk r.rgStart t.rgEnd).Inside a ↔ r.Inside a ∨ t.Inside a := by
          simp only [VmRg.Inside, Segments.Inside]
          omega
        rw [ih hle hne', hin, or_assoc, Covered, Covered, cover_cons]
      · have ih := ih hr hne'
        simp only [Covered, cover_cons] at ih ⊢
        tauto

theorem DisjointRg.tail (h : DisjointRg r (t :: l)) : DisjointRg r l :=
  fun u hu => h u (List.mem_cons_of_mem t hu)

theorem lt_rgStart_mergeWalk {b : ℕ} (h : b < r.rgStart) (hl : ∀ t ∈ l, b < t.rgStart) :
    b < (mergeWalk r l).1.rgStart := by
  induction l generalizing r with
  | nil => exact h
  | cons t next ih =>
      have hl' := fun u hu => hl u (List.mem_cons_of_mem t hu)
      unfold mergeWalk
      split_ifs
      · exact ih (hl t List.mem_cons_self) hl'
      · exact ih h hl'
      · exact ih h hl'

/-- The walk only extends the region. -/
theorem le_mergeWalk (hne : ∀ t ∈ l, t.rgStart < t.rgEnd) :
    (mergeWalk r l).1.rgStart ≤ r.rgStart ∧ r.rgEnd ≤ (mergeWalk r l).1.rgEnd := by
  induction l generalizing r with
  | nil => exact ⟨le_rfl, le_rfl⟩
  | cons t next ih =>
      have ht := hne t List.mem_cons_self
      have hne' := fun u hu => hne u (List.mem_cons_of_mem t hu)
      unfold mergeWalk
      split_ifs with h₁ h₂
      · obtain ⟨h₃, h₄⟩ := ih (r := ⟨t.rgStart, r.rgEnd⟩) hne'
        exact ⟨h₃.trans (h₁ ▸ ht.le), h₄⟩
      · obtain ⟨h₃, h₄⟩ := ih (r := ⟨r.rgStart, t.rgEnd⟩) hne'
        exact ⟨h₃, (h₂ ▸ ht.le : r.rgEnd ≤ t.rgEnd).trans h₄⟩
      · exact ih hne'

theorem apart_mergeWalk (hl : SeparatedRg l) (hr : r.rgStart ≤ r.rgEnd) (hd : DisjointRg r l) :
    ∀ t ∈ (mergeWalk r l).2, ApartRg (mergeWalk r l).1 t := by
  induction l generalizing r with
  | nil =>
      intro u hu
      cases hu
  | cons t next ih =>
      intro u hu
      obtain ⟨ht, hgap, hnext⟩ := separated_cons.mp hl
      have hdt := hd t List.mem_cons_self
      unfold mergeWalk at hu ⊢
      split_ifs at hu ⊢ with h₁ h₂
      · refine ih hnext (by show t.rgStart ≤ r.rgEnd; omega) ?_ u hu
        intro v hv
        have := hgap v hv
        have := hnext.nonempty v hv
        cases hd.tail v hv with
        | inl h => omega
        | inr h => exact .inr h
      · refine ih hnext (by show r.rgStart ≤ t.rgEnd; omega) ?_ u hu
        intro v hv
        exact .inr (hgap v hv).le
      · rcases List.mem_cons.mp hu with rfl | hu
        · cases hdt with
          | inl h => exact .inr (lt_rgStart_mergeWalk (by omega) hgap)
          | inr h =>
              rw [mergeWalk_of_not_touch]
              · exact .inl (show r.rgEnd < u.rgStart by omega)
              · intro v hv
                have := hgap v hv
                have := hnext.nonempty v hv
                omega
        · exact ih hnext hr hd.tail u hu

end merge

end BtlOs
