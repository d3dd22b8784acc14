import BtlOs.Limit
import BtlOs.Allocation

/-! # The lookup of an area (`get_vma_by_num`)

The loop goes to the first area whose id is not below `vmaid`, and returns it whatever its id is.
Its test for the end of the list stands before the step, so after the last area it reads the next
id through `NULL`. -/

namespace BtlOs

open CLang Header

/-- The ids ascend, as the `int`s that the loop compares. -/
def AscendingIds (l : List VmArea) : Prop := l.Pairwise fun s t => int32 s.vmId < int32 t.vmId

section

variable {mm : Mm} {vmaid : ℤ}

theorem getVmaByNumLoop_eq (l : List VmArea) : ∀ k, getVmaByNumLoop vmaid l k =
    match l.findIdx? fun vma => vmaid ≤ int32 vma.vmId with
    | none => .error .undefined
    | some i => .ok (some (i + k)) := by
  induction l with
  | nil => exact fun _ => rfl
  | cons pvma next ih =>
      intro k
      rw [getVmaByNumLoop, List.findIdx?_cons]
      by_cases hlt : int32 pvma.vmId < vmaid
      · rw [if_pos hlt, if_neg (by simpa using hlt), ih]
        cases next.findIdx? fun vma => vmaid ≤ int32 vma.vmId with
        | none => rfl
        | some i => simp [Nat.add_assoc, Nat.add_comm 1 k]
      · rw [if_neg hlt, if_pos (by simpa using hlt)]
        simp

theorem getVmaByNum_eq (hne : mm.mmap ≠ []) : getVmaByNum mm vmaid =
    match mm.mmap.findIdx? fun vma => vmaid ≤ int32 vma.vmId with
    | none => .error .undefined
    | some i => .ok (some i) := by
  unfold getVmaByNum
  split
  · contradiction
  · rename_i pvma next hmmap
    rw [getVmaByNumLoop_eq, ← hmmap]
    cases mm.mmap.findIdx? fun vma => vmaid ≤ int32 vma.vmId <;> rfl

/-- The id of an area leads to it. -/
theorem getVmaByNum_of_id (hids : AscendingIds mm.mmap) {k : ℕ} {vma : VmArea}
    (hk : mm.mmap[k]? = some vma) (hid : int32 vma.vmId = vmaid) :
    getVmaByNum mm vmaid = .ok (some k) := by
  obtain ⟨hlt, rfl⟩ := List.getElem?_eq_some_iff.mp hk
  have hfind : (mm.mmap.findIdx? fun vma => vmaid ≤ int32 vma.vmId) = some k := by
    rw [List.findIdx?_eq_some_iff_getElem]
    refine ⟨hlt, decide_eq_true hid.ge, fun j hj => ?_⟩
    have hbefore := List.pairwise_iff_getElem.mp hids j k (hj.trans hlt) hlt hj
    rw [hid] at hbefore
    simpa using hbefore
  rw [getVmaByNum_eq (List.ne_nil_of_mem (List.getElem_mem hlt)), hfind]

/-- An id that no area has leads through `NULL` or to another area. -/
theorem getVmaByNum_of_unknown (hne : mm.mmap ≠ [])
    (hid : ∀ vma ∈ mm.mmap, int32 vma.vmId ≠ vmaid) :
    ((∀ vma ∈ mm.mmap, int32 vma.vmId < vmaid) ∧ getVmaByNum mm vmaid = .error .undefined) ∨
    ∃ k vma, mm.mmap[k]? = some vma ∧ vmaid < int32 vma.vmId ∧
      getVmaByNum mm vmaid = .ok (some k) := by
  rw [getVmaByNum_eq hne]
  cases hfind : mm.mmap.findIdx? fun vma => vmaid ≤ int32 vma.vmId with
  | none =>
      rw [List.findIdx?_eq_none_iff] at hfind
      exact .inl ⟨fun vma hvma => not_le.mp (of_decide_eq_false (hfind vma hvma)), rfl⟩
  | some k =>
      obtain ⟨hk, hle, _⟩ := List.findIdx?_eq_some_iff_getElem.mp hfind
      have hne := hid _ (List.getElem_mem hk)
      exact .inr ⟨k, mm.mmap[k], List.getElem?_eq_getElem hk,
        lt_of_le_of_ne (of_decide_eq_true hle) hne.symm, rfl⟩

end

section

variable [Header] {c : Ctx} {vmaid : ℤ}

/-- **The lookup is exact**: it gives the area with the id, or `NULL` where there is none, and then
`inc_vma_limit` returns -1 and changes nothing. -/
structure LookupExact (c : Ctx) (vmaid : ℤ) : Prop where
  found : getVmaByNum c.mm vmaid =
    .ok (c.mm.mmap.findIdx? fun vma => (vma.vmId : ℤ) = vmaid)
  unknown : (∀ vma ∈ c.mm.mmap, (vma.vmId : ℤ) ≠ vmaid) →
    ∀ incSz, incVmaLimit c vmaid incSz = .ok (-1, c)

theorem incVmaLimit_nil (hnil : c.mm.mmap = []) (incSz : ℤ) :
    incVmaLimit c vmaid incSz = .ok (-1, c) := by
  have hnull : getVmaByNum c.mm vmaid = .ok none := by
    unfold getVmaByNum
    rw [hnil]
  unfold incVmaLimit getVmAreaNodeAtBrk
  rw [hnull]
  rfl

/-- **When the lookup is exact**: where there is no area, and for the ids of the areas. -/
theorem lookupExact_iff (hids : AscendingIds c.mm.mmap)
    (hint : ∀ vma ∈ c.mm.mmap, vma.vmId < 2 ^ 31) (vmaid : ℤ) :
    LookupExact c vmaid ↔ c.mm.mmap = [] ∨ ∃ vma ∈ c.mm.mmap, (vma.vmId : ℤ) = vmaid := by
  have hid : ∀ vma ∈ c.mm.mmap, int32 vma.vmId = vma.vmId := fun vma hvma =>
    int32_natCast (hint vma hvma)
  constructor
  · intro h
    by_contra hno
    obtain ⟨hne, hunknown⟩ := not_or.mp hno
    have hunknown' : ∀ vma ∈ c.mm.mmap, (vma.vmId : ℤ) ≠ vmaid := fun vma hvma he =>
      hunknown ⟨vma, hvma, he⟩
    have hfound := h.found
    rw [List.findIdx?_eq_none_iff.mpr fun vma hvma => decide_eq_false (hunknown' vma hvma)]
      at hfound
    rcases getVmaByNum_of_unknown hne fun vma hvma => hid vma hvma ▸ hunknown' vma hvma with
      ⟨_, hnull⟩ | ⟨k, vma, _, _, hother⟩
    · rw [hnull] at hfound
      cases hfound
    · rw [hother] at hfound
      cases hfound
  · rintro (hnil | ⟨vma, hvma, he⟩)
    · refine ⟨?_, fun _ => incVmaLimit_nil hnil⟩
      unfold getVmaByNum
      rw [hnil]
      rfl
    · obtain ⟨k, hk, rfl⟩ := List.mem_iff_getElem.mp hvma
      refine ⟨?_, fun hno => absurd he (hno _ hvma)⟩
      rw [getVmaByNum_of_id hids (List.getElem?_eq_getElem hk) ((hid _ hvma).trans he), eq_comm]
      refine congrArg Except.ok (List.findIdx?_eq_some_iff_getElem.mpr ⟨hk, decide_eq_true he, ?_⟩)
      intro j hj
      have hbefore := List.pairwise_iff_getElem.mp hids j k (hj.trans hk) hk hj
      rw [hid _ (List.getElem_mem _), hid _ hvma, he] at hbefore
      simpa using hbefore.ne

omit [Header] in
theorem lookupExact_iff_sample : @LookupExact header22 blankCtx 0 := by
  let := header22
  have hids : AscendingIds blankCtx.mm.mmap := List.pairwise_singleton _ _
  refine (lookupExact_iff hids ?_ 0).mpr (.inr ?_)
  · intro vma hvma
    obtain rfl := List.mem_singleton.mp hvma
    decide
  · exact ⟨_, List.mem_singleton_self _, rfl⟩

omit [Header] in
/-- The memory-map system call of a new process, with the id 1, reads through `NULL`; and of the
areas 0 and 2 the id 1 gives the second. -/
theorem not_lookupExact :
    AscendingIds blankCtx.mm.mmap ∧ getVmaByNum blankCtx.mm 1 = .error .undefined ∧
    @sysMemmap header22 blankCtx ⟨2, 1, 300⟩ = .error .undefined ∧
    ¬ @LookupExact header22 blankCtx 1 ∧
    getVmaByNum { blankMm with mmap := [⟨0, 0, 256, 256, []⟩, ⟨2, 512, 768, 768, []⟩] } 1 =
      .ok (some 1) := by
  let := header22
  have hnull : getVmaByNum blankCtx.mm 1 = .error .undefined := rfl
  refine ⟨List.pairwise_singleton _ _, hnull, ?_, ?_, rfl⟩
  · rfl
  · intro h
    have hfound := h.found
    rw [hnull] at hfound
    cases hfound

end

end BtlOs
