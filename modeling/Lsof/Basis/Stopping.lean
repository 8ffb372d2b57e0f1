import Mathlib

/-! # Passes that an error may end

A step takes one element and may end the pass. What every step keeps is kept, and
where each step adds what it reads to a log, the log has what the elements up to
the end hold, in their order.
-/

namespace Lsof.Basis

open List

variable {σ α β ε : Type}

def foldUntil (step : σ → α → σ × Option ε) : List α → σ → σ × Option ε
  | [], st => (st, none)
  | a :: as, st =>
    match step st a with
    | (st, some e) => (st, some e)
    | (st, none) => foldUntil step as st

variable {step : σ → α → σ × Option ε}

theorem foldUntil_keeps {P : σ → Prop} (hstep : ∀ st a, P st → P (step st a).1) (as : List α) {st : σ} (h : P st) :
    P (foldUntil step as st).1 := by
  induction as generalizing st with
  | nil => exact h
  | cons a as ih =>
    have hnext := hstep st a h
    unfold foldUntil
    cases hs : step st a with
    | mk next error =>
      rw [hs] at hnext
      cases error with
      | some e => exact hnext
      | none => exact ih hnext

def Logs (step : σ → α → σ × Option ε) (log : σ → List β) (reads : α → List β) : Prop :=
  ∀ st a, log (step st a).1 <+: log st ++ reads a ∧ ((step st a).2 = none → log (step st a).1 = log st ++ reads a)

theorem foldUntil_logs {log : σ → List β} {reads : α → List β} (hstep : Logs step log reads) :
    Logs (fun st as => foldUntil step as st) log fun as => as.flatMap reads := by
  intro st as
  induction as generalizing st with
  | nil => simp [foldUntil]
  | cons a as ih =>
    have ha := hstep st a
    dsimp only at ih ⊢
    unfold foldUntil
    rw [flatMap_cons, ← append_assoc]
    cases hs : step st a with
    | mk next error =>
      rw [hs] at ha
      cases error with
      | some e => exact ⟨ha.1.trans (prefix_append _ _), nofun⟩
      | none =>
        rw [← ha.2 rfl]
        exact ih next

/-- What the steps of a pass put out, up to the one that ends it. -/
def outputsUntil (step : σ → α → σ × Option ε) (out : σ → α → List β) : List α → σ → List β
  | [], _ => []
  | a :: as, st =>
    out st a ++
      match step st a with
      | (_, some _) => []
      | (st, none) => outputsUntil step out as st

/-- Both go on in related states, or both end. -/
inductive Alike {σ τ ε δ : Type} (R : σ → τ → Prop) : σ × Option ε → τ × Option δ → Prop where
  | goes {s : σ} {t : τ} (h : R s t) : Alike R (s, none) (t, none)
  | ends (s : σ) (t : τ) (e : ε) (d : δ) : Alike R (s, some e) (t, some d)

section Alike

variable {τ γ δ : Type} {step' : τ → γ → τ × Option δ} {R : σ → τ → Prop} {S : α → γ → Prop}

theorem Alike.isSome_eq {r : σ × Option ε} {r' : τ × Option δ} (h : Alike R r r') : r.2.isSome = r'.2.isSome := by
  cases h with
  | goes h => rfl
  | ends s t e d => rfl

theorem Alike.related {r : σ × Option ε} {r' : τ × Option δ} (h : Alike R r r') (hgoes : r'.2 = none) :
    R r.1 r'.1 := by
  cases h with
  | goes h => exact h
  | ends s t e d => cases hgoes

variable {as : List α} {cs : List γ}

theorem foldUntil_alike (hstep : ∀ s t a c, R s t → S a c → Alike R (step s a) (step' t c))
    (h : List.Forall₂ S as cs) {s : σ} {t : τ} (hR : R s t) :
    Alike R (foldUntil step as s) (foldUntil step' cs t) := by
  induction h generalizing s t with
  | nil => exact Alike.goes hR
  | @cons a c as cs hac _ ih =>
    have halike := hstep s t a c hR hac
    unfold foldUntil
    generalize step s a = r at halike
    generalize step' t c = r' at halike
    cases halike with
    | goes hnext => exact ih hnext
    | ends s' t' e d => exact Alike.ends s' t' e d

theorem foldUntil_related
    (hstep : ∀ s t a c, R s t → S a c → R (step s a).1 (step' t c).1 ∧ (step s a).2.isSome = (step' t c).2.isSome)
    (h : List.Forall₂ S as cs) {s : σ} {t : τ} (hR : R s t) : R (foldUntil step as s).1 (foldUntil step' cs t).1 := by
  induction h generalizing s t with
  | nil => exact hR
  | @cons a c as cs hac _ ih =>
    have hboth := hstep s t a c hR hac
    unfold foldUntil
    generalize step s a = r at hboth
    generalize step' t c = r' at hboth
    rcases r with ⟨s', e⟩
    rcases r' with ⟨t', d⟩
    cases e with
    | none =>
      cases d with
      | none => exact ih hboth.1
      | some d => exact absurd hboth.2 Bool.false_ne_true
    | some e =>
      cases d with
      | none => exact absurd hboth.2.symm Bool.false_ne_true
      | some d => exact hboth.1

theorem outputsUntil_alike {out : σ → α → List β} {out' : τ → γ → List β}
    (hstep : ∀ s t a c, R s t → S a c → Alike R (step s a) (step' t c))
    (hout : ∀ s t a c, R s t → S a c → out s a = out' t c) (h : List.Forall₂ S as cs) {s : σ} {t : τ} (hR : R s t) :
    outputsUntil step out as s = outputsUntil step' out' cs t := by
  induction h generalizing s t with
  | nil => rfl
  | @cons a c as cs hac _ ih =>
    have halike := hstep s t a c hR hac
    unfold outputsUntil
    rw [hout s t a c hR hac]
    generalize step s a = r at halike
    generalize step' t c = r' at halike
    cases halike with
    | goes hnext => exact congrArg (out' t c ++ ·) (ih hnext)
    | ends s' t' e d => rfl

end Alike

theorem foldUntil_append_idle {as idle : List α} (h : ∀ st, ∀ a ∈ idle, step st a = (st, none)) (st : σ) :
    foldUntil step (as ++ idle) st = foldUntil step as st := by
  induction as generalizing st with
  | nil =>
    induction idle with
    | nil => rfl
    | cons a idle ih =>
      have hrest := ih fun st b hb => h st b (mem_cons_of_mem a hb)
      rw [nil_append] at hrest ⊢
      unfold foldUntil
      rw [h st a mem_cons_self]
      exact hrest
  | cons a as ih =>
    rw [cons_append]
    unfold foldUntil
    cases hs : step st a with
    | mk next error =>
      cases error with
      | some e => rfl
      | none => exact ih next

theorem outputsUntil_append_idle {out : σ → α → List β} {as idle : List α}
    (h : ∀ st, ∀ a ∈ idle, step st a = (st, none) ∧ out st a = []) (st : σ) :
    outputsUntil step out (as ++ idle) st = outputsUntil step out as st := by
  induction as generalizing st with
  | nil =>
    induction idle with
    | nil => rfl
    | cons a idle ih =>
      have hrest := ih fun st b hb => h st b (mem_cons_of_mem a hb)
      rw [nil_append] at hrest ⊢
      unfold outputsUntil
      rw [(h st a mem_cons_self).1, (h st a mem_cons_self).2]
      exact hrest
  | cons a as ih =>
    rw [cons_append]
    unfold outputsUntil
    cases hs : step st a with
    | mk next error =>
      cases error with
      | some e => rfl
      | none => exact congrArg (out st a ++ ·) (ih next)

section Answers

variable {σ α β : Type} (step : σ → α → σ × β)

def answers : List α → σ → List β
  | [], _ => []
  | a :: as, st => (step st a).2 :: answers as (step st a).1

variable {step}

theorem answers_eq_map {Inv : σ → Prop} {answer : α → β}
    (hstep : ∀ st a, Inv st → (step st a).2 = answer a ∧ Inv (step st a).1) (as : List α) {st : σ} (h : Inv st) :
    answers step as st = as.map answer := by
  induction as generalizing st with
  | nil => rfl
  | cons a as ih =>
    have ha := hstep st a h
    rw [answers, map_cons, ha.1, ih ha.2]

end Answers

end Lsof.Basis
