import Mathlib

/-! # Two programs in step

Rules for comparing two fallible computations that run side by side: both give
a result and the results are related, or both fail with the same error. Then two
lists that correspond element by element, and two rules over one list.
-/

namespace Lsof.Basis

open List

variable {ε ε' α β γ δ ι : Type}

/-- Both give a result, and these are related, or both fail, and `errorOf`
translates the error. -/
inductive InStep (errorOf : ε → ε') (rel : α → β → Prop) : Except ε α → Except ε' β → Prop where
  | ok {a : α} {b : β} (h : rel a b) : InStep errorOf rel (.ok a) (.ok b)
  | error (e : ε) : InStep errorOf rel (.error e) (.error (errorOf e))

namespace InStep

variable {errorOf : ε → ε'} {rel : α → β → Prop} {x : Except ε α} {y : Except ε' β}

theorem bind {rel' : γ → δ → Prop} {f : α → Except ε γ} {g : β → Except ε' δ}
    (h : InStep errorOf rel x y) (hfg : ∀ a b, rel a b → InStep errorOf rel' (f a) (g b)) :
    InStep errorOf rel' (x >>= f) (y >>= g) := by
  cases h with
  | ok hab => exact hfg _ _ hab
  | error e => exact .error e

theorem imp {rel' : α → β → Prop} (h : InStep errorOf rel x y)
    (himp : ∀ a b, rel a b → rel' a b) : InStep errorOf rel' x y := by
  cases h with
  | ok hab => exact .ok (himp _ _ hab)
  | error e => exact .error e

theorem and_right {p : β → Prop} (h : InStep errorOf rel x y) (hp : ∀ b, y = .ok b → p b) :
    InStep errorOf (fun a b => rel a b ∧ p b) x y := by
  cases h with
  | ok hab => exact .ok ⟨hab, hp _ rfl⟩
  | error e => exact .error e

theorem map_right {rel' : α → δ → Prop} {g : β → δ} (h : InStep errorOf rel x y)
    (hg : ∀ a b, rel a b → rel' a (g b)) : InStep errorOf rel' x (y >>= fun b => pure (g b)) := by
  cases h with
  | ok hab => exact .ok (hg _ _ hab)
  | error e => exact .error e

theorem foldlM {f : α → ι → Except ε α} {g : β → ι → Except ε' β} (inputs : List ι)
    (hstep : ∀ i ∈ inputs, ∀ a b, rel a b → InStep errorOf rel (f a i) (g b i)) {a : α} {b : β} (h : rel a b) :
    InStep errorOf rel (inputs.foldlM f a) (inputs.foldlM g b) := by
  induction inputs generalizing a b with
  | nil => exact .ok h
  | cons i rest ih =>
    rw [foldlM_cons, foldlM_cons]
    refine (hstep i mem_cons_self a b h).bind ?_
    intro a' b' h'
    exact ih (fun j hj => hstep j (mem_cons_of_mem _ hj)) h'

end InStep

theorem exists_mem_iff_of_forall₂ {rel : α → β → Prop} {p : α → Prop} {q : β → Prop}
    {as : List α} {bs : List β} (h : List.Forall₂ rel as bs)
    (hpq : ∀ a, ∀ b ∈ bs, rel a b → (p a ↔ q b)) : (∃ a ∈ as, p a) ↔ ∃ b ∈ bs, q b := by
  induction h with
  | nil => simp
  | @cons a b as bs hab _ ih =>
    have hrest := ih (fun a b hb => hpq a b (mem_cons_of_mem _ hb))
    simp [hpq a b mem_cons_self hab, hrest]

theorem exists_iff_exists_iff {p q : α → Prop} {xs : List α} :
    ((∃ x ∈ xs, p x) ↔ ∃ x ∈ xs, q x) ↔
      (∃ x ∈ xs, p x ∧ q x) ∨ ((∃ x ∈ xs, p x ∧ ¬ q x) ↔ ∃ x ∈ xs, q x ∧ ¬ p x) := by
  have hp : (∃ x ∈ xs, p x) ↔ (∃ x ∈ xs, p x ∧ q x) ∨ ∃ x ∈ xs, p x ∧ ¬ q x := by
    rw [← exists_or]
    apply exists_congr
    intro x
    tauto
  have hq : (∃ x ∈ xs, q x) ↔ (∃ x ∈ xs, p x ∧ q x) ∨ ∃ x ∈ xs, q x ∧ ¬ p x := by
    rw [← exists_or]
    apply exists_congr
    intro x
    tauto
  rw [hp, hq]
  by_cases hboth : ∃ x ∈ xs, p x ∧ q x
  · simp only [hboth, true_or]
  · simp only [hboth, false_or]

end Lsof.Basis
