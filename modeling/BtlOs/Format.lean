import BtlOs.Memphy
import BtlOs.Lib.LinkedList

/-! # The free list in memory (`MEMPHY_format`, `MEMPHY_get_freefp`)

`Memphy.freeFpList` is a list; here it is the pointer that the source has, into a memory of nodes.
The nodes that `malloc` returns are distinct and have any contents, and so has `memphy_struct`
before `init_memphy`.  `Represents` connects the two levels. -/

namespace BtlOs

open CLang Header LinkedList

/-- `struct memphy_struct` with its pointer. -/
structure RawMemphy where
  storage : ℕ → Byte
  maxsz : ℤ
  rdmflg : Bool
  cursor : ℤ
  freeFpList : Option ℕ

/-- The device with its list. -/
def RawMemphy.withList (mp : RawMemphy) (l : List ℕ) : Memphy :=
  ⟨mp.storage, mp.maxsz, mp.rdmflg, mp.cursor, l⟩

/-- The device of the model that this one is. -/
def Represents (h : Memory ℕ) (mp : RawMemphy) (mp' : Memphy) : Prop :=
  Chain h mp.freeFpList mp'.freeFpList ∧ mp' = mp.withList mp'.freeFpList

/-- The loop of `MEMPHY_format`: the frames still to come, the next one, and `fst`. -/
def formatLoop (addr : ℕ → ℕ) : ℕ → ℕ → ℕ → Memory ℕ → Memory ℕ
  | 0, _, _, h => h
  | n + 1, iter, fst, h =>
      let newfst := addr iter
      let h := setVal h newfst iter
      let h := setNext h newfst none
      let h := setNext h fst (some newfst)
      formatLoop addr n (iter + 1) newfst h

namespace RawMemphy

variable (mp : RawMemphy)

/-- `MEMPHY_format`; `addr i` is what the `i`-th call of `malloc` returns. -/
def format (addr : ℕ → ℕ) (h : Memory ℕ) (pagesz : ℤ) : ℤ × RawMemphy × Memory ℕ :=
  let numfp := mp.maxsz.tdiv pagesz
  if numfp ≤ 0 then (-1, mp, h)
  else
    let fst := addr 0
    let h := setVal h fst 0
    (0, { mp with freeFpList := some fst }, formatLoop addr (numfp.toNat - 1) 1 fst h)

/-- `init_memphy`. -/
def init [Header] (addr : ℕ → ℕ) (h : Memory ℕ) (maxSize randomflg : ℤ) : RawMemphy × Memory ℕ :=
  let mp := { mp with storage := fun _ => 0, maxsz := maxSize }
  let (_, mp, h) := mp.format addr h pagingPagesz
  let mp := { mp with rdmflg := randomflg ≠ 0 }
  (if !mp.rdmflg then { mp with cursor := 0 } else mp, h)

/-- `MEMPHY_get_freefp`: `none` is the result `-1`. -/
def getFreefp (h : Memory ℕ) : Exec (Option ℕ × RawMemphy × Memory ℕ) :=
  match mp.freeFpList with
  | none => .ok (none, mp, h)
  | some fp => match h fp with
    | none => .error .undefined
    | some node => .ok (some node.val, { mp with freeFpList := node.next }, free h fp)

end RawMemphy

/-- A number of calls of `MEMPHY_get_freefp`. -/
def getFrames : ℕ → RawMemphy → Memory ℕ → Exec (List (Option ℕ) × RawMemphy × Memory ℕ)
  | 0, mp, h => .ok ([], mp, h)
  | n + 1, mp, h => do
      let (r, mp, h) ← mp.getFreefp h
      let (rs, mp, h) ← getFrames n mp h
      .ok (r :: rs, mp, h)

/-! ### The list -/

variable {h : Memory ℕ} {addr : ℕ → ℕ}

theorem formatLoop_of_ne {p : ℕ} (n : ℕ) {iter fst : ℕ} {h : Memory ℕ} (hfst : p ≠ fst)
    (haddr : ∀ i, iter ≤ i → p ≠ addr i) : formatLoop addr n iter fst h p = h p := by
  induction n generalizing iter fst h with
  | zero => rfl
  | succ n ih =>
      have hnew := haddr iter (Nat.le_refl iter)
      rw [formatLoop, ih hnew fun i hi => haddr i (by omega), setNext_of_ne hfst,
        setNext_of_ne hnew, setVal_of_ne hnew]

/-- From its last node on, the loop links the frames that are still to come and ends the list; the
old link of that node does not matter where there is one to come. -/
theorem chain_formatLoop (m : Fresh h) (n : ℕ) {iter v : ℕ} {y : Option ℕ} {g : Memory ℕ}
    (hg : ∀ i, iter < i → g (m.addr i) = h (m.addr i)) (hfst : g (m.addr iter) = some ⟨v, y⟩)
    (hy : n = 0 → y = none) :
    Chain (formatLoop m.addr n (iter + 1) (m.addr iter) g) (some (m.addr iter))
      (v :: List.range' (iter + 1) n) := by
  induction n generalizing iter v y g with
  | zero =>
      obtain rfl := hy rfl
      exact .cons hfst .nil
  | succ n ih =>
      have hne : ∀ {i j : ℕ}, i ≠ j → m.addr i ≠ m.addr j := fun hij he => hij (m.inj he)
      obtain ⟨x, hx⟩ := m.node (iter + 1)
      rw [← hg (iter + 1) (by omega)] at hx
      rw [formatLoop]
      generalize hdef : setNext (setNext (setVal g (m.addr (iter + 1)) (iter + 1))
        (m.addr (iter + 1)) none) (m.addr iter) (some (m.addr (iter + 1))) = g'
      have hnew : g' (m.addr (iter + 1)) = some ⟨iter + 1, none⟩ := by
        rw [← hdef, setNext_of_ne (hne (by omega)), setNext_self (setVal_self hx _)]
      have hold : g' (m.addr iter) = some ⟨v, some (m.addr (iter + 1))⟩ := by
        have hkeep : setNext (setVal g (m.addr (iter + 1)) (iter + 1)) (m.addr (iter + 1)) none
            (m.addr iter) = some ⟨v, y⟩ := by
          rw [setNext_of_ne (hne (by omega)), setVal_of_ne (hne (by omega)), hfst]
        rw [← hdef, setNext_self hkeep]
      have hrest : ∀ i, iter + 1 < i → g' (m.addr i) = h (m.addr i) := by
        intro i hi
        rw [← hdef, setNext_of_ne (hne (by omega)), setNext_of_ne (hne (by omega)),
          setVal_of_ne (hne (by omega)), hg i (by omega)]
      have hchain := ih hrest hnew fun _ => rfl
      have hhead : formatLoop m.addr n (iter + 1 + 1) (m.addr (iter + 1)) g' (m.addr iter) =
          some ⟨v, some (m.addr (iter + 1))⟩ := by
        rw [formatLoop_of_ne n (hne (by omega)) fun i hi => hne (by omega), hold]
      rw [List.range'_succ]
      exact .cons hhead hchain

section init

variable [Header]

/-- The number of frames of a device. -/
def numFrames (maxSize : ℕ) : ℕ := maxSize / pagingPagesz

theorem tdiv_pagesz (maxSize : ℕ) :
    (maxSize : ℤ).tdiv pagingPagesz = (numFrames maxSize : ℕ) := by
  rw [Int.tdiv_eq_ediv_of_nonneg (by omega)]
  rfl

theorem RawMemphy.init_freeFpList (mp : RawMemphy) (maxSize : ℕ) (randomflg : ℤ) :
    (mp.init addr h maxSize randomflg).1.freeFpList =
      if numFrames maxSize = 0 then mp.freeFpList else some (addr 0) := by
  have hz : ((numFrames maxSize : ℕ) : ℤ) ≤ 0 ↔ numFrames maxSize = 0 := by omega
  unfold init format
  simp only [tdiv_pagesz, hz]
  split_ifs <;> rfl

theorem RawMemphy.init_memory (mp : RawMemphy) (maxSize : ℕ) (randomflg : ℤ) :
    (mp.init addr h maxSize randomflg).2 = if numFrames maxSize = 0 then h else
      formatLoop addr (numFrames maxSize - 1) 1 (addr 0) (setVal h (addr 0) 0) := by
  have hz : ((numFrames maxSize : ℕ) : ℤ) ≤ 0 ↔ numFrames maxSize = 0 := by omega
  unfold init format
  simp only [tdiv_pagesz, hz, Int.toNat_natCast]
  split_ifs <;> rfl

theorem initMemphy_freeFpList (mp : RawMemphy) (old fpNext₀ : List ℕ) (maxSize : ℕ)
    (randomflg : ℤ) : (initMemphy (mp.withList old) maxSize randomflg fpNext₀).freeFpList =
      if numFrames maxSize = 0 then old
      else 0 :: if numFrames maxSize = 1 then fpNext₀
        else List.range' 1 (numFrames maxSize - 1) := by
  have hz : ((numFrames maxSize : ℕ) : ℤ) ≤ 0 ↔ numFrames maxSize = 0 := by omega
  unfold initMemphy Memphy.format
  simp only [RawMemphy.withList, tdiv_pagesz, hz, Int.toNat_natCast, formatFrom_eq,
    Nat.cast_eq_one]
  split_ifs <;> rfl

/-- What `init_memphy` leaves represents what it leaves in the model, where the links that it does
not set lead to lists. -/
theorem represents_init (m : Fresh h) (mp : RawMemphy) {old fpNext₀ : List ℕ} {x : Node ℕ}
    (hx : h (m.addr 0) = some x) (maxSize : ℕ) (randomflg : ℤ)
    (hold : numFrames maxSize = 0 → Chain h mp.freeFpList old)
    (hnext : numFrames maxSize = 1 → Chain h x.next fpNext₀) :
    Represents (mp.init m.addr h maxSize randomflg).2 (mp.init m.addr h maxSize randomflg).1
      (initMemphy (mp.withList old) maxSize randomflg fpNext₀) := by
  have hz : ((numFrames maxSize : ℕ) : ℤ) ≤ 0 ↔ numFrames maxSize = 0 := by omega
  refine ⟨?_, ?_⟩
  · rw [initMemphy_freeFpList, RawMemphy.init_freeFpList, RawMemphy.init_memory]
    by_cases h0 : numFrames maxSize = 0
    · simpa only [h0, if_true] using hold h0
    · simp only [h0, if_false]
      by_cases h1 : numFrames maxSize = 1
      · have hchain := hnext h1
        simp only [h1, if_true, Nat.sub_self, formatLoop]
        exact .cons (setVal_self hx 0) (hchain.update_head hx _)
      · have hcells : ∀ i, 0 < i → setVal h (m.addr 0) 0 (m.addr i) = h (m.addr i) := by
          intro i hi
          exact setVal_of_ne (fun he => absurd (m.inj he) (by omega)) _
        simp only [h1, if_false]
        exact chain_formatLoop m _ hcells (setVal_self hx 0) fun he => by omega
  · unfold RawMemphy.init RawMemphy.format initMemphy Memphy.format
    simp only [RawMemphy.withList, tdiv_pagesz, hz]
    split_ifs <;> rfl

/-- The list is exactly the frames in ascending order, each of them inside the storage, and so the
calls of `MEMPHY_get_freefp` return them and then fail. -/
structure Formatted (maxSize : ℕ) (mp : RawMemphy) (h : Memory ℕ) : Prop where
  list : Chain h mp.freeFpList (List.range (numFrames maxSize))
  gets : ∃ mp' h', getFrames (numFrames maxSize + 1) mp h =
    .ok ((List.range (numFrames maxSize)).map some ++ [none], mp', h')
  inside : ∀ f ∈ List.range (numFrames maxSize), ((f + 1) * pagingPagesz : ℕ) ≤ mp.maxsz

/-- The links that `init_memphy` does not set are null: that of the device where it has no frame,
and that of the first node where it is the only one. -/
def LinksEnded (m : Fresh h) (mp : RawMemphy) (maxSize : ℕ) : Prop :=
  (numFrames maxSize = 0 → mp.freeFpList = none) ∧
    (numFrames maxSize = 1 → ∀ x, h (m.addr 0) = some x → x.next = none)

omit [Header] in
/-- As many calls as there are frames in the list, and one more. -/
theorem getFrames_of_chain {l : List ℕ} : ∀ {mp : RawMemphy} {h : Memory ℕ},
    Chain h mp.freeFpList l → ∃ mp' h',
      getFrames (l.length + 1) mp h = .ok (l.map some ++ [none], mp', h') := by
  induction l with
  | nil =>
      intro mp h hc
      refine ⟨mp, h, ?_⟩
      simp [getFrames, RawMemphy.getFreefp, hc.of_nil]
  | cons f l ih =>
      intro mp h hc
      cases hp : mp.freeFpList with
      | none =>
          rw [hp] at hc
          cases hc
      | some p =>
          rw [hp] at hc
          cases hc with
          | @cons _ x _ hx hrest =>
              obtain ⟨mp', h', hgets⟩ :=
                @ih { mp with freeFpList := x.next } (free h p) (hrest.update_head hx none)
              have hget : mp.getFreefp h =
                  .ok (some x.val, { mp with freeFpList := x.next }, free h p) := by
                unfold RawMemphy.getFreefp
                simp only [hp, hx]
              refine ⟨mp', h', ?_⟩
              rw [List.length_cons, getFrames, hget]
              simp only [ok_bind, hgets]
              rfl

theorem chain_init_iff (m : Fresh h) (mp : RawMemphy) (maxSize : ℕ) (randomflg : ℤ) :
    Chain (mp.init m.addr h maxSize randomflg).2 (mp.init m.addr h maxSize randomflg).1.freeFpList
      (List.range (numFrames maxSize)) ↔ LinksEnded m mp maxSize := by
  obtain ⟨x, hx⟩ := m.node 0
  constructor
  · intro hc
    rw [RawMemphy.init_freeFpList, RawMemphy.init_memory] at hc
    refine ⟨fun h0 => ?_, fun h1 y hy => ?_⟩
    · simp only [h0, if_true] at hc
      exact hc.of_nil
    · obtain rfl := Option.some.inj (hx.symm.trans hy)
      simp only [h1, Nat.one_ne_zero, if_false, Nat.sub_self, formatLoop] at hc
      obtain ⟨rest, hrest, hnext⟩ := hc.of_some (setVal_self hx 0)
      obtain rfl : rest = [] := (List.cons.inj hrest).2.symm
      exact hnext.of_nil
  · rintro ⟨h0, h1⟩
    have hold : numFrames maxSize = 0 → Chain h mp.freeFpList [] := by
      intro he
      rw [h0 he]
      exact .nil
    have hnext : numFrames maxSize = 1 → Chain h x.next [] := by
      intro he
      rw [h1 he x hx]
      exact .nil
    have hrep := (represents_init m mp hx maxSize randomflg hold hnext).1
    have hlist : (initMemphy (mp.withList []) maxSize randomflg []).freeFpList =
        List.range (numFrames maxSize) := by
      rw [initMemphy_freeFpList, List.range_eq_range']
      cases hk : numFrames maxSize with
      | zero => rfl
      | succ k => cases k <;> simp [List.range'_succ]
    rwa [hlist] at hrep

/-- **When a device is formatted.**  For every size, and whatever the structure and the nodes
contained before. -/
theorem formatted_iff (m : Fresh h) (mp : RawMemphy) (maxSize : ℕ) (randomflg : ℤ) :
    Formatted maxSize (mp.init m.addr h maxSize randomflg).1
      (mp.init m.addr h maxSize randomflg).2 ↔ LinksEnded m mp maxSize := by
  rw [← chain_init_iff m mp maxSize randomflg]
  refine ⟨Formatted.list, fun hc => ⟨hc, ?_, fun f hf => ?_⟩⟩
  · have hgets := getFrames_of_chain hc
    rwa [List.length_range] at hgets
  · have hsize : (mp.init m.addr h maxSize randomflg).1.maxsz = maxSize := by
      unfold RawMemphy.init RawMemphy.format
      dsimp only
      split_ifs <;> rfl
    have hle : (f + 1) * pagingPagesz ≤ maxSize :=
      (Nat.mul_le_mul_right _ (List.mem_range.mp hf)).trans (Nat.div_mul_le_self _ _)
    rw [hsize]
    exact_mod_cast hle

end init

/-- A device of one page, where `malloc` left a link in the node. -/
theorem not_formatted : ∃ (h : Memory ℕ) (m : Fresh h) (mp : RawMemphy),
    ¬ @Formatted header22 256 (@RawMemphy.init mp header22 m.addr h (256 : ℕ) 1).1
      (@RawMemphy.init mp header22 m.addr h (256 : ℕ) 1).2 := by
  let m : Fresh fun _ => some (⟨0, some 0⟩ : Node ℕ) :=
    ⟨id, Function.injective_id, fun _ => ⟨_, rfl⟩⟩
  let mp : RawMemphy := ⟨fun _ => 0, 0, false, 0, none⟩
  refine ⟨_, m, mp, fun hf => ?_⟩
  have hends := (@chain_init_iff _ header22 m mp 256 1).mp (@Formatted.list header22 _ _ _ hf)
  have hnull := hends.2 (by decide) _ rfl
  cases hnull

end BtlOs
