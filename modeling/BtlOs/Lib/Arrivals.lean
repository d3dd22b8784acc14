import Mathlib.Data.List.Dedup
import Mathlib.Data.List.Nodup

/-! # Queues in the order of arrival

Elements arrive and leave; `log` holds all arrivals, oldest first, and an element may arrive again
after it has left.  A queue that is served at its end `Tracks` the members if, read from its end,
it has the members in the order of their last arrivals, each once.

Arrivals at the front (`Tracks.arrive`) and a departure from the end (`Tracks.leave`) keep this,
and the end of the queue is then the member that has been one for the longest (`Tracks.oldest`). -/

namespace Arrivals

variable {α : Type} [DecidableEq α] {log new : List α}

theorem dedup_append_filter (log new : List α) :
    (log ++ new).dedup = log.dedup.filter (fun a => a ∉ new) ++ new.dedup := by
  induction log with
  | nil => simp
  | cons a log ih =>
      by_cases ha : a ∈ log
      · rw [List.cons_append, List.dedup_cons_of_mem (List.mem_append_left new ha),
          List.dedup_cons_of_mem ha, ih]
      · rw [List.dedup_cons_of_notMem ha]
        by_cases hnew : a ∈ new
        · rw [List.cons_append, List.dedup_cons_of_mem (List.mem_append_right log hnew), ih]
          simp [hnew]
        · have hout : a ∉ log ++ new := by simp [ha, hnew]
          rw [List.cons_append, List.dedup_cons_of_notMem hout, ih]
          simp [hnew]

/-- Everything after an element in the order of last arrivals arrived after its last arrival. -/
theorem exists_last_arrival {a : α} {l₁ l₂ : List α} (h : log.dedup = l₁ ++ a :: l₂) :
    ∃ before after, log = before ++ a :: after ∧ a ∉ after ∧ ∀ b ∈ l₂, b ∈ after := by
  induction log generalizing l₁ with
  | nil => simp at h
  | cons c log ih =>
      by_cases hc : c ∈ log
      · rw [List.dedup_cons_of_mem hc] at h
        obtain ⟨before, after, rfl, hout, hafter⟩ := ih h
        exact ⟨c :: before, after, rfl, hout, hafter⟩
      · rw [List.dedup_cons_of_notMem hc] at h
        cases l₁ with
        | nil =>
            obtain ⟨rfl, hl⟩ := List.cons.inj h
            refine ⟨[], log, rfl, hc, fun b hb => ?_⟩
            rw [← List.mem_dedup, hl]
            exact hb
        | cons d l₁ =>
            obtain ⟨_, hl⟩ := List.cons.inj h
            obtain ⟨before, after, rfl, hout, hafter⟩ := ih hl
            exact ⟨c :: before, after, rfl, hout, hafter⟩

/-- The queue has the members, the last arrival first. -/
structure Tracks (log : List α) (mem : α → Prop) [DecidablePred mem] (queue : List α) :
    Prop where
  reverse : queue.reverse = log.dedup.filter mem
  logged : ∀ a, mem a → a ∈ log

namespace Tracks

variable {mem mem' : α → Prop} [DecidablePred mem] [DecidablePred mem'] {queue rest : List α}
  {a : α}

theorem nil (hmem : ∀ a, ¬ mem a) : Tracks [] mem [] :=
  ⟨rfl, fun a ha => absurd ha (hmem a)⟩

theorem mem_queue (h : Tracks log mem queue) : a ∈ queue ↔ mem a := by
  rw [← List.mem_reverse, h.reverse, List.mem_filter, List.mem_dedup, decide_eq_true_eq]
  exact ⟨And.right, fun ha => ⟨h.logged a ha, ha⟩⟩

theorem nodup (h : Tracks log mem queue) : queue.Nodup := by
  rw [← List.nodup_reverse, h.reverse]
  exact (List.nodup_dedup log).filter _

theorem arrive (h : Tracks log mem queue) (hnew : new.Nodup) (hout : ∀ a ∈ new, ¬ mem a)
    (hmem : ∀ a, mem' a ↔ mem a ∨ a ∈ new) :
    Tracks (log ++ new) mem' (new.reverse ++ queue) := by
  constructor
  · rw [List.reverse_append, List.reverse_reverse, h.reverse, dedup_append_filter,
      List.filter_append, List.filter_filter, hnew.dedup]
    congr 1
    · apply List.filter_congr
      intro a _
      by_cases ha : a ∈ new
      · simp [ha, hout a ha]
      · simp [ha, hmem a]
    · rw [List.filter_eq_self.mpr]
      intro a ha
      simp [hmem a, ha]
  · intro a ha
    cases (hmem a).mp ha with
    | inl ha => exact List.mem_append_left new (h.logged a ha)
    | inr ha => exact List.mem_append_right log ha

theorem leave (h : Tracks log mem (rest ++ [a])) (hmem : ∀ b, mem' b ↔ mem b ∧ b ≠ a) :
    Tracks log mem' rest := by
  have hout : a ∉ rest := by
    have hnodup := h.nodup
    rw [List.nodup_append] at hnodup
    exact fun ha => hnodup.2.2 a ha a (by simp) rfl
  refine ⟨?_, fun b hb => h.logged b ((hmem b).mp hb).1⟩
  have hfilter : log.dedup.filter mem' = (log.dedup.filter mem).filter (fun b => b ≠ a) := by
    rw [List.filter_filter]
    apply List.filter_congr
    intro b _
    simp [hmem b, Bool.and_comm]
  rw [hfilter, ← h.reverse, List.reverse_append, List.reverse_singleton, List.singleton_append,
    List.filter_cons_of_neg (by simp)]
  rw [eq_comm, List.filter_eq_self]
  intro b hb
  have hb : b ∈ rest := List.mem_reverse.mp hb
  have hne : b ≠ a := by
    rintro rfl
    exact hout hb
  simpa using hne

/-- The end of the queue is a member, and every other member arrived after its last arrival. -/
theorem oldest (h : Tracks log mem (rest ++ [a])) : mem a ∧
    ∃ before after, log = before ++ a :: after ∧ a ∉ after ∧ ∀ b, mem b → b ≠ a → b ∈ after := by
  have hrev := h.reverse
  rw [List.reverse_append, List.reverse_singleton, List.singleton_append] at hrev
  obtain ⟨l₁, l₂, hl, hbefore, ha, _⟩ := List.filter_eq_cons_iff.mp hrev.symm
  obtain ⟨before, after, hlog, hout, hafter⟩ := exists_last_arrival hl
  refine ⟨by simpa using ha, before, after, hlog, hout, fun b hb hne => hafter b ?_⟩
  have hmem : b ∈ l₁ ++ a :: l₂ := by
    rw [← hl]
    exact List.mem_dedup.mpr (h.logged b hb)
  cases List.mem_append.mp hmem with
  | inl hmem => exact absurd (by simpa using hb) (hbefore b hmem)
  | inr hmem => exact (List.mem_cons.mp hmem).resolve_left hne

end Tracks

end Arrivals
