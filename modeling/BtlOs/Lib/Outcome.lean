import BtlOs.Lib.CLang

/-! # One execution and its postcondition

`Ends E Q x`: the execution `x` is stuck for a reason in `E`, or it returns a result in `Q`.  With
`E` the reason `undefined` it says that `x` never waits for a lock in vain.

The rules follow the shape of a function, one for each way to put executions together. -/

namespace CLang

variable {α β : Type}

inductive Ends (E : Stuck → Prop) (Q : α → Prop) : Exec α → Prop
  | ok {a : α} : Q a → Ends E Q (.ok a)
  | error {e : Stuck} : E e → Ends E Q (.error e)

namespace Ends

variable {E : Stuck → Prop} {Q : α → Prop} {S : β → Prop} {x : Exec α}

theorem mono {Q' : α → Prop} (h : Ends E Q x) (hQ : ∀ a, Q a → Q' a) : Ends E Q' x := by
  cases h with
  | ok ha => exact .ok (hQ _ ha)
  | error he => exact .error he

/-- The continuation may use that the first part has returned. -/
theorem bind {f : α → Exec β} (h : Ends E Q x) (hf : ∀ a, x = .ok a → Q a → Ends E S (f a)) :
    Ends E S (x >>= f) := by
  cases h with
  | ok ha => exact hf _ rfl ha
  | error he => exact .error he

theorem require {p : Prop} [Decidable p] (he : ¬ p → E .undefined) :
    Ends E (fun _ => p) (require p) := by
  unfold CLang.require
  split_ifs with h
  · exact .ok h
  · exact .error (he h)

theorem of_ok {a : α} (h : Ends E Q x) (hx : x = .ok a) : Q a := by
  subst hx
  cases h with
  | ok ha => exact ha

theorem of_error {e : Stuck} (h : Ends E Q x) (hx : x = .error e) : E e := by
  subst hx
  cases h with
  | error he => exact he

end Ends

end CLang
