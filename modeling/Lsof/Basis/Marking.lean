import Mathlib

/-! # Marking items over a run

Search items are kept in a list and their marks in a list of flags beside it.
A pass over the data only ever sets flags, so after the whole pass an item is
marked exactly when some element of the data marked it. The rule `foldl_marks`
is stated over any state, with the flags read through a function.
-/

namespace Lsof.Basis

open List

def markAll {α : Type} (test : α → Bool) (items : List α) (hits : List Bool) : List Bool :=
  List.zipWith (fun hit a => hit || test a) hits items

theorem length_markAll {α : Type} (test : α → Bool) {items : List α} {hits : List Bool}
    (h : hits.length = items.length) : (markAll test items hits).length = items.length := by
  simp [markAll, h]

def hitAt (hits : List Bool) (i : Nat) : Bool := hits.getD i false

theorem hitAt_replicate (n i : Nat) : hitAt (List.replicate n false) i = false := by
  simp only [hitAt, getD_eq_getElem?_getD, getElem?_replicate]
  split <;> rfl

theorem hitAt_markAll {α : Type} (test : α → Bool) {items : List α} {hits : List Bool}
    (h : hits.length = items.length) (i : Nat) :
    hitAt (markAll test items hits) i = (hitAt hits i || items[i]?.any test) := by
  simp only [hitAt, markAll, getD_eq_getElem?_getD, getElem?_zipWith]
  by_cases hi : i < items.length
  · have hi' : i < hits.length := by omega
    simp [getElem?_eq_getElem hi, getElem?_eq_getElem hi']
  · have hi' : ¬ i < hits.length := by omega
    simp [getElem?_eq_none (Nat.not_lt.mp hi), getElem?_eq_none (Nat.not_lt.mp hi')]

section Run

variable {σ ι α : Type} {inv : σ → Prop} {marks : σ → ι → Bool}

def Marks (inv : σ → Prop) (marks : σ → ι → Bool) (step : σ → σ) (added : ι → Bool) : Prop :=
  ∀ s, inv s → inv (step s) ∧ ∀ i, marks (step s) i = (marks s i || added i)

theorem Marks.id : Marks inv marks (fun s => s) (fun _ => false) := by
  intro s hs
  exact ⟨hs, by simp⟩

theorem Marks.comp {f g : σ → σ} {a b : ι → Bool} (hf : Marks inv marks f a)
    (hg : Marks inv marks g b) : Marks inv marks (fun s => g (f s)) (fun i => a i || b i) := by
  intro s hs
  obtain ⟨hfs, hfm⟩ := hf s hs
  obtain ⟨hgs, hgm⟩ := hg (f s) hfs
  refine ⟨hgs, fun i => ?_⟩
  rw [hgm, hfm, Bool.or_assoc]

theorem Marks.ite {f : σ → σ} {a : ι → Bool} (c : Bool) (hf : Marks inv marks f a) :
    Marks inv marks (fun s => if c then f s else s) (fun i => c && a i) := by
  cases c with
  | false => simpa using Marks.id
  | true => simpa using hf

theorem Marks.foldl {step : α → σ → σ} {a : α → ι → Bool} (h : ∀ x, Marks inv marks (step x) (a x)) (xs : List α) :
    Marks inv marks (fun s => xs.foldl (fun s x => step x s) s) (fun i => xs.any (a · i)) := by
  induction xs with
  | nil => simpa using Marks.id
  | cons x xs ih => simpa using (h x).comp ih

end Run

end Lsof.Basis
