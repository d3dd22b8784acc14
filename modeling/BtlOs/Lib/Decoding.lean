import Mathlib.Data.List.Basic

/-! # Texts that can be read back

`Decodes P f`: where a text starts with the image under `f` of a value that meets `P`, the value and
the rest of the text are known.  The rules build such texts from fields, one after the other
(`Decodes.prod`), and as lists up to an end mark (`Decodes.list`). -/

namespace Decoding

variable {α β γ : Type} {P : α → Prop} {Q : β → Prop} {f : α → List γ} {g : β → List γ}

/-- A text that starts with an image of `f` starts with no other. -/
def Decodes (P : α → Prop) (f : α → List γ) : Prop :=
  ∀ a b r s, P a → P b → f a ++ r = f b ++ s → a = b ∧ r = s

/-- The words over a class of characters end where the class does. -/
theorem append_inj_of_class {p : γ → Bool} {u v r s : List γ} {c d : γ}
    (hu : ∀ x ∈ u, p x = true) (hv : ∀ x ∈ v, p x = true) (hc : p c = false) (hd : p d = false)
    (h : u ++ c :: r = v ++ d :: s) : u = v ∧ c :: r = d :: s := by
  induction u generalizing v with
  | nil =>
      cases v with
      | nil => exact ⟨rfl, h⟩
      | cons x v =>
          obtain ⟨rfl, _⟩ := List.cons.inj h
          rw [hv c List.mem_cons_self] at hc
          cases hc
  | cons x u ih =>
      cases v with
      | nil =>
          obtain ⟨rfl, _⟩ := List.cons.inj h
          rw [hu x List.mem_cons_self] at hd
          cases hd
      | cons y v =>
          obtain ⟨rfl, hrest⟩ := List.cons.inj h
          obtain ⟨rfl, hr⟩ := ih (fun z hz => hu z (List.mem_cons_of_mem _ hz))
            (fun z hz => hv z (List.mem_cons_of_mem _ hz)) hrest
          exact ⟨rfl, hr⟩

namespace Decodes

theorem of_reader (read : List γ → Option (α × List γ))
    (h : ∀ a r, P a → read (f a ++ r) = some (a, r)) : Decodes P f := by
  intro a b r s ha hb he
  have hread := (h a r ha).symm.trans ((congrArg read he).trans (h b s hb))
  exact Prod.mk.inj (Option.some.inj hread)

/-- A field over a class of characters, and a literal that starts outside of it. -/
theorem of_class {p : γ → Bool} {t : List γ} (ht : t.head?.map p = some false)
    (hclass : ∀ a, P a → ∀ x ∈ f a, p x = true)
    (hinj : ∀ a b, P a → P b → f a = f b → a = b) : Decodes P fun a => f a ++ t := by
  intro a b r s ha hb he
  obtain ⟨c, hc, hcp⟩ := Option.map_eq_some_iff.mp ht
  obtain ⟨t, rfl⟩ := List.head?_eq_some_iff.mp hc
  simp only [List.append_assoc, List.cons_append] at he
  obtain ⟨hf, hrest⟩ := append_inj_of_class (hclass a ha) (hclass b hb) hcp hcp he
  exact ⟨hinj a b ha hb hf, List.append_cancel_left (List.cons.inj hrest).2⟩

theorem mono {P' : α → Prop} (h : Decodes P f) (hP : ∀ a, P' a → P a) : Decodes P' f :=
  fun a b r s ha hb => h a b r s (hP a ha) (hP b hb)

theorem after (h : Decodes P f) (t : List γ) : Decodes P fun a => t ++ f a := by
  intro a b r s ha hb he
  rw [List.append_assoc, List.append_assoc] at he
  exact h a b r s ha hb (List.append_cancel_left he)

theorem prod (hf : Decodes P f) (hg : Decodes Q g) :
    Decodes (fun x : α × β => P x.1 ∧ Q x.2) fun x => f x.1 ++ g x.2 := by
  intro x y r s hx hy he
  rw [List.append_assoc, List.append_assoc] at he
  obtain ⟨h₁, hrest⟩ := hf x.1 y.1 _ _ hx.1 hy.1 he
  obtain ⟨h₂, hrs⟩ := hg x.2 y.2 r s hx.2 hy.2 hrest
  exact ⟨Prod.ext h₁ h₂, hrs⟩

theorem comap (hf : Decodes P f) (k : β → α) (hP : ∀ b, Q b → P (k b))
    (hk : ∀ b b', Q b → Q b' → k b = k b' → b = b') : Decodes Q fun b => f (k b) := by
  intro b b' r s hb hb' he
  obtain ⟨hkb, hrs⟩ := hf (k b) (k b') r s (hP b hb) (hP b' hb') he
  exact ⟨hk b b' hb hb' hkb, hrs⟩

/-- A list up to an end mark that is the beginning of no element. -/
theorem list (hf : Decodes P f) {e : List γ} (hend : ∀ a r s, P a → f a ++ r ≠ e ++ s) :
    Decodes (fun l : List α => ∀ a ∈ l, P a) fun l => l.flatMap f ++ e := by
  intro l
  induction l with
  | nil =>
      intro m r s _ hm he
      cases m with
      | nil => exact ⟨rfl, List.append_cancel_left he⟩
      | cons b m =>
          simp only [List.flatMap_cons, List.append_assoc] at he
          exact absurd he.symm (hend b _ _ (hm b List.mem_cons_self))
  | cons a l ih =>
      intro m r s hl hm he
      cases m with
      | nil =>
          simp only [List.flatMap_cons, List.append_assoc] at he
          exact absurd he (hend a _ _ (hl a List.mem_cons_self))
      | cons b m =>
          simp only [List.flatMap_cons, List.append_assoc] at he
          obtain ⟨rfl, hrest⟩ := hf a b _ _ (hl a List.mem_cons_self) (hm b List.mem_cons_self) he
          obtain ⟨rfl, hrs⟩ := ih m r s (fun x hx => hl x (List.mem_cons_of_mem _ hx))
            (fun x hx => hm x (List.mem_cons_of_mem _ hx)) (by simpa using hrest)
          exact ⟨rfl, hrs⟩

end Decodes

end Decoding
