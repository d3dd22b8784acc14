import BtlOs.Lib.ArrayList
import Mathlib.Data.Int.Notation

/-! # The process queues (`queue.c`)

A queue is an array of `MAX_QUEUE_SIZE` pointers and a size; the cells below the size hold
processes.  `enqueue` on a full queue returns without a result and without the process.
`dequeue_running` removes the first entry with the pid of its argument.

Each operation has one rule that says what it does to the list of the entries. -/

namespace BtlOs

/-- The constants of `sched.h` and `queue.h`. -/
class SchedHeader where
  maxPrio : ℕ
  maxQueueSize : ℕ

/-- Two priorities and queues of two processes, for concrete runs. -/
@[reducible] def sched22 : SchedHeader := ⟨2, 2⟩

open SchedHeader

/-- The fields of `struct pcb_t` that the scheduler and `killall` read. -/
structure Pcb where
  pid : ℕ
  prio : ℕ
  path : String
deriving DecidableEq, Repr

section

variable [SchedHeader]

/-- `struct queue_t`. -/
structure QueueT where
  proc : ℕ → Option Pcb
  size : ℕ
  size_le : size ≤ maxQueueSize
  cells : ∀ i < size, (proc i).isSome = true

namespace QueueT

variable (q : QueueT)

/-- The processes of a queue, in order. -/
def toList : List Pcb := ArrayList.toList q.proc q.size

theorem holds : ArrayList.Holds q.proc q.toList := (ArrayList.holds_toList q.cells).1

@[simp] theorem length_toList : q.toList.length = q.size := (ArrayList.holds_toList q.cells).2

/-- An array of `NULL` pointers, as every static queue is at first. -/
def zero : QueueT := ⟨fun _ => none, 0, Nat.zero_le _, fun _ hi => absurd hi (Nat.not_lt_zero _)⟩

/-- `q.size = 0`. -/
def clear : QueueT := ⟨q.proc, 0, Nat.zero_le _, fun _ hi => absurd hi (Nat.not_lt_zero _)⟩

/-- `empty`. -/
def empty : Bool := q.size = 0

/-- `enqueue` of a process. -/
def enqueue (proc : Pcb) : QueueT :=
  if h : maxQueueSize ≤ q.size then q
  else
    { proc := ArrayList.putLast q.proc q.size proc
      size := q.size + 1
      size_le := by omega
      cells := by
        intro i hi
        unfold ArrayList.putLast
        rw [Function.update_apply]
        split_ifs with he
        · rfl
        · exact q.cells i (by omega) }

/-- The loops of `dequeue` and of `dequeue_running` that close the gap at `i`. -/
def removeAt (i : ℕ) (hi : i < q.size) : QueueT where
  proc := ArrayList.removeAt q.proc q.size i
  size := q.size - 1
  size_le := by
    have := q.size_le
    omega
  cells := by
    intro j hj
    unfold ArrayList.removeAt
    rw [Function.update_of_ne (by omega), ArrayList.shift_apply]
    split_ifs
    · exact q.cells (j + 1) (by omega)
    · exact q.cells j (by omega)

/-- `dequeue`: the first process and the rest. -/
def dequeue : Option Pcb × QueueT :=
  if h : q.size = 0 then (none, q) else (q.proc 0, q.removeAt 0 (Nat.pos_of_ne_zero h))

/-- `dequeue_running`. -/
def dequeueRunning (proc : Pcb) : ℤ × QueueT :=
  match h : ArrayList.find q.proc (fun r => r.pid = proc.pid) 0 q.size with
  | none => (-1, q)
  | some i => (0, q.removeAt i (Nat.zero_add q.size ▸ ArrayList.find_lt q.size h))

variable {q}

theorem toList_of_holds {l : List Pcb} (h : ArrayList.Holds q.proc l) (hl : l.length = q.size) :
    q.toList = l := by
  unfold toList
  rw [← hl]
  exact h.toList_eq

@[simp] theorem toList_zero : zero.toList = [] := rfl

@[simp] theorem toList_clear : q.clear.toList = [] := rfl

theorem empty_eq_true : q.empty = true ↔ q.toList = [] := by
  rw [← List.length_eq_zero_iff, length_toList]
  simp [empty]

theorem toList_enqueue (proc : Pcb) : (q.enqueue proc).toList =
    if maxQueueSize ≤ q.size then q.toList else q.toList ++ [proc] := by
  unfold enqueue
  split_ifs with h
  · rfl
  · apply toList_of_holds
    · have hlast := q.holds.putLast proc
      rwa [length_toList] at hlast
    · simp

theorem toList_removeAt {i : ℕ} (hi : i < q.size) :
    (q.removeAt i hi).toList = q.toList.eraseIdx i := by
  have hlt : i < q.toList.length := by simpa using hi
  apply toList_of_holds
  · have hremove := q.holds.removeAt hlt
    rwa [length_toList] at hremove
  · rw [List.length_eraseIdx_of_lt hlt, length_toList]
    rfl

theorem dequeue_of_cons {proc : Pcb} {rest : List Pcb} (h : q.toList = proc :: rest) :
    ∃ q', q.dequeue = (some proc, q') ∧ q'.toList = rest := by
  have hsize : 0 < q.size := by
    rw [← q.length_toList, h]
    exact Nat.succ_pos _
  refine ⟨q.removeAt 0 hsize, ?_, ?_⟩
  · have hfirst : q.proc 0 = some proc := by
      rw [q.holds 0 (by simpa using hsize), h]
      rfl
    unfold dequeue
    rw [dif_neg (by omega), hfirst]
  · rw [toList_removeAt, h]
    rfl

theorem toList_dequeueRunning (proc : Pcb) :
    (q.dequeueRunning proc).2.toList = q.toList.eraseP fun r => r.pid = proc.pid := by
  have hfind := q.holds.find fun r => decide (r.pid = proc.pid)
  rw [length_toList] at hfind
  rw [List.eraseP_eq_eraseIdx]
  unfold dequeueRunning
  split
  · rename_i h
    rw [← hfind, h]
  · rename_i i h
    simp only [← hfind, h]
    exact toList_removeAt _

end QueueT

end

end BtlOs
