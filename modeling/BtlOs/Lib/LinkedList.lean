import Mathlib.Logic.Function.Basic
import Mathlib.Data.Nat.Notation

/-! # Linked lists in memory

A memory of nodes with a value and a link; an address without a node is not allocated.
`Chain h q l` says that following the links from `q` visits the values `l` and ends at the null
link.  A chain is determined by its start (`Chain.unique`), so a node is on no chain that it leads
to, and an assignment to that node, or its release, leaves the chain behind it alone
(`Chain.update`).

`Laid h ps` says that `ps` are the addresses of the nodes of a list, in order, for code that keeps
pointers into it. -/

namespace LinkedList

structure Node (α : Type) where
  val : α
  next : Option ℕ

/-- The nodes at the allocated addresses. -/
abbrev Memory (α : Type) := ℕ → Option (Node α)

variable {α : Type}

/-- `p->val = v`. -/
def setVal (h : Memory α) (p : ℕ) (v : α) : Memory α :=
  Function.update h p ((h p).map fun x => { x with val := v })

/-- `p->next = q`. -/
def setNext (h : Memory α) (p : ℕ) (q : Option ℕ) : Memory α :=
  Function.update h p ((h p).map fun x => { x with next := q })

/-- `free(p)`. -/
def free (h : Memory α) (p : ℕ) : Memory α := Function.update h p none

/-- From `q` the links visit the values and end. -/
inductive Chain (h : Memory α) : Option ℕ → List α → Prop
  | nil : Chain h none []
  | cons {p : ℕ} {x : Node α} {l : List α} : h p = some x → Chain h x.next l →
      Chain h (some p) (x.val :: l)

/-- Nodes that an allocator returns: distinct addresses with any contents. -/
structure Fresh (h : Memory α) where
  addr : ℕ → ℕ
  inj : Function.Injective addr
  node : ∀ i, ∃ x, h (addr i) = some x

variable {h : Memory α} {p : ℕ} {q : Option ℕ} {l m : List α} {x : Node α}

theorem setVal_self (hx : h p = some x) (v : α) : setVal h p v p = some ⟨v, x.next⟩ := by
  simp [setVal, hx]

theorem setNext_self (hx : h p = some x) (q : Option ℕ) : setNext h p q p = some ⟨x.val, q⟩ := by
  simp [setNext, hx]

theorem setVal_of_ne {r : ℕ} (hne : r ≠ p) (v : α) : setVal h p v r = h r :=
  Function.update_of_ne hne _ _

theorem setNext_of_ne {r : ℕ} (hne : r ≠ p) (q : Option ℕ) : setNext h p q r = h r :=
  Function.update_of_ne hne _ _

theorem Chain.of_some (hc : Chain h (some p) l) (hx : h p = some x) :
    ∃ rest, l = x.val :: rest ∧ Chain h x.next rest := by
  cases hc with
  | cons hy hrest =>
      obtain rfl := Option.some.inj (hx.symm.trans hy)
      exact ⟨_, rfl, hrest⟩

theorem Chain.of_nil (hc : Chain h q []) : q = none := by
  cases hc with
  | nil => rfl

theorem Chain.unique (hl : Chain h q l) (hm : Chain h q m) : l = m := by
  induction hl generalizing m with
  | nil =>
      cases hm with
      | nil => rfl
  | cons hx _ ih =>
      obtain ⟨rest, rfl, hrest⟩ := hm.of_some hx
      rw [ih hrest]

/-- A node with a longer chain is not on a shorter one. -/
theorem Chain.update (hl : Chain h q l) (hm : Chain h (some p) m) (hlt : l.length < m.length)
    (v : Option (Node α)) : Chain (Function.update h p v) q l := by
  induction hl with
  | nil => exact .nil
  | @cons r x rest hx hrest ih =>
      have hne : r ≠ p := by
        rintro rfl
        rw [hm.unique (.cons hx hrest)] at hlt
        exact Nat.lt_irrefl _ hlt
      refine .cons (by rw [Function.update_of_ne hne, hx]) (ih ?_)
      rw [List.length_cons] at hlt
      omega

/-- What is done to a node does not concern the chain behind it. -/
theorem Chain.update_head (hx : h p = some x) (hl : Chain h x.next l) (v : Option (Node α)) :
    Chain (Function.update h p v) x.next l :=
  hl.update (.cons hx hl) (by simp) v

/-! ### The addresses of a list -/

/-- The nodes at these addresses are linked in this order, and the last link is null. -/
structure Laid (h : Memory α) (ps : List ℕ) : Prop where
  nodup : ps.Nodup
  node : ∀ d p, ps[d]? = some p → ∃ x, h p = some x ∧ x.next = ps[d + 1]?

namespace Laid

variable {ps : List ℕ} {d : ℕ}

theorem nil : Laid h [] := ⟨List.nodup_nil, fun d p hp => by simp at hp⟩

theorem cons {h' : Memory α} (hl : Laid h ps) (hp : p ∉ ps) (hx : h' p = some x)
    (hnext : x.next = ps[0]?) (hsame : ∀ r ∈ ps, h' r = h r) : Laid h' (p :: ps) := by
  refine ⟨List.nodup_cons.mpr ⟨hp, hl.nodup⟩, fun d r hr => ?_⟩
  cases d with
  | zero =>
      obtain rfl : p = r := by simpa using hr
      exact ⟨x, hx, hnext⟩
  | succ d =>
      have hr : ps[d]? = some r := by simpa using hr
      obtain ⟨y, hy, hlink⟩ := hl.node d r hr
      exact ⟨y, (hsame r (List.mem_of_getElem? hr)).trans hy, hlink⟩

theorem setVal (hl : Laid h ps) (v : α) : Laid (setVal h p v) ps := by
  refine ⟨hl.nodup, fun d r hr => ?_⟩
  obtain ⟨y, hy, hlink⟩ := hl.node d r hr
  by_cases hp : r = p
  · subst hp
    exact ⟨_, setVal_self hy v, hlink⟩
  · exact ⟨y, (setVal_of_ne hp v).trans hy, hlink⟩

/-- The rest is still there when the head was freed. -/
theorem free (hl : Laid h (p :: ps)) : Laid (free h p) ps := by
  obtain ⟨hp, hnodup⟩ := List.nodup_cons.mp hl.nodup
  refine ⟨hnodup, fun d r hr => ?_⟩
  obtain ⟨y, hy, hlink⟩ := hl.node (d + 1) r (by simpa using hr)
  have hne : r ≠ p := by
    rintro rfl
    exact hp (List.mem_of_getElem? hr)
  exact ⟨y, (Function.update_of_ne hne _ _).trans hy, by simpa using hlink⟩

theorem idxOf (hl : Laid h ps) (hp : ps[d]? = some p) : ps.idxOf p = d := by
  obtain ⟨hlt, rfl⟩ := List.getElem?_eq_some_iff.mp hp
  exact hl.nodup.idxOf_getElem d hlt

end Laid

end LinkedList
