import Mathlib.Data.Int.ModEq
import Mathlib.Tactic.Linarith

/-! # Integers and stuck executions of C

The two pieces of C that a shallow embedding of a C program needs.

* **Machine integers.**  `int`, `uint32_t` and `unsigned long` are integers with an explicit
  conversion after every operation that may leave the range: `int32` is the two's complement
  reading of 32 bits, `uint32` and `ulong` reduce modulo `2 ^ 32` and `2 ^ 64`.
* **Stuck executions.**  A function that may step outside the defined behaviour of C (an index
  outside an array, a `NULL` dereference, a use of an unassigned local) or block forever returns
  `Exec α := Except Stuck α`.  A stuck execution has no next state.

`bind_eq_ok` peels a sequenced computation into its steps. -/

namespace CLang

/-- Conversion to `int`. -/
def int32 (x : ℤ) : ℤ := (x + 2 ^ 31) % 2 ^ 32 - 2 ^ 31

/-- Conversion to `uint32_t`. -/
def uint32 (x : ℤ) : ℕ := (x % 2 ^ 32).toNat

/-- Conversion to `unsigned long`. -/
def ulong (x : ℤ) : ℕ := (x % 2 ^ 64).toNat

theorem int32_of_range {x : ℤ} (h₀ : -2 ^ 31 ≤ x) (h₁ : x < 2 ^ 31) : int32 x = x := by
  unfold int32
  omega

theorem int32_natCast {n : ℕ} (h : n < 2 ^ 31) : int32 n = n :=
  int32_of_range (by omega) (by omega)

@[simp] theorem int32_zero : int32 0 = 0 := by
  unfold int32
  omega

theorem int32_range (x : ℤ) : -2 ^ 31 ≤ int32 x ∧ int32 x < 2 ^ 31 := by
  unfold int32
  omega

theorem int32_int32 (x : ℤ) : int32 (int32 x) = int32 x :=
  int32_of_range (int32_range x).1 (int32_range x).2

/-- A value passed through a `uint32_t` field is the same `int`. -/
theorem int32_uint32 (x : ℤ) : int32 (uint32 x) = int32 x := by
  unfold int32 uint32
  omega

theorem int32_ulong (x : ℤ) : int32 (ulong x) = int32 x := by
  unfold int32 ulong
  omega

theorem ulong_natCast {n : ℕ} (h : n < 2 ^ 64) : ulong n = n := by
  unfold ulong
  omega

/-! ### Stuck executions -/

/-- Why an execution has no next state: it left the defined behaviour of C, or it waits for a
lock that nobody will release. -/
inductive Stuck where
  | undefined
  | deadlock
deriving DecidableEq, Repr

/-- The outcome of a C function. -/
abbrev Exec (α : Type) := Except Stuck α

/-- Continue only where the behaviour is defined. -/
def require (p : Prop) [Decidable p] : Exec Unit :=
  if p then .ok () else .error .undefined

theorem bind_eq_ok {α β : Type} {x : Exec α} {f : α → Exec β} {b : β} :
    x >>= f = .ok b ↔ ∃ a, x = .ok a ∧ f a = .ok b := by
  cases x with
  | error e => simp [bind, Except.bind]
  | ok a => simp [bind, Except.bind]

theorem map_eq_ok {α β : Type} {x : Exec α} {f : α → β} {b : β} :
    f <$> x = .ok b ↔ ∃ a, x = .ok a ∧ f a = b := by
  cases x with
  | error e => simp [Functor.map, Except.map]
  | ok a => simp [Functor.map, Except.map]

theorem bind_returns {α β : Type} {x : Exec α} {f : α → Exec β} (hx : ∃ a, x = .ok a)
    (hf : ∀ a, x = .ok a → ∃ b, f a = .ok b) : ∃ b, x >>= f = .ok b := by
  obtain ⟨a, rfl⟩ := hx
  exact hf a rfl

@[simp] theorem ok_bind {α β : Type} (a : α) (f : α → Exec β) :
    (Except.ok a : Exec α) >>= f = f a := rfl

@[simp] theorem error_bind {α β : Type} (e : Stuck) (f : α → Exec β) :
    (Except.error e : Exec α) >>= f = .error e := rfl

theorem eq_ok_of_toOption {α : Type} {x : Exec α} {a : α} (h : x.toOption = some a) :
    x = .ok a := by
  cases x with
  | error e => cases h
  | ok b => exact congrArg Except.ok (Option.some.inj h)

/-- An execution that was computed to return returns. -/
theorem exists_ok_of_any {α : Type} {x : Exec α} {p : α → Bool} (h : x.toOption.any p = true) :
    ∃ a, x = .ok a ∧ p a = true := by
  obtain ⟨a, ha, hp⟩ := (Option.any_eq_true _ _).mp h
  exact ⟨a, eq_ok_of_toOption ha, hp⟩

theorem require_eq_ok {p : Prop} [Decidable p] {u : Unit} : require p = .ok u ↔ p := by
  unfold require
  split_ifs with h <;> simp [h]

theorem require_pos {p : Prop} [Decidable p] (h : p) : require p = .ok () :=
  require_eq_ok.mpr h

end CLang
