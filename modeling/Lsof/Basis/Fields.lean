import Mathlib

/-! # Separated fields

A reader that walks over a line of separated fields keeps a position; what it
has still to read is the line from there on. The field in front of it ends at
the next separator or with the line.
-/

namespace Lsof.Basis

open List

section

variable {α : Type} (sep : α → Bool)

def firstField (t : List α) : List α := t.takeWhile fun a => !sep a

/-- What stands past the separator that ends it, nothing where the line ends it. -/
def pastField (t : List α) : List α := (t.dropWhile fun a => !sep a).drop 1

def AtEnd (t : List α) : Prop := ∀ a ∈ t.head?, sep a = true

theorem firstField_append_rest (t : List α) :
    ∃ rest, t = firstField sep t ++ rest ∧ AtEnd sep rest ∧ pastField sep t = rest.drop 1 := by
  refine ⟨t.dropWhile fun a => !sep a, (takeWhile_append_dropWhile).symm, ?_, rfl⟩
  intro a ha
  have hnot := head?_dropWhile_not (fun a => !sep a) t
  rw [Option.mem_def.mp ha] at hnot
  simpa using hnot

variable {sep}

theorem firstField_append {x rest : List α} (hx : ∀ a ∈ x, sep a = false) (hrest : AtEnd sep rest) :
    firstField sep (x ++ rest) = x ∧ pastField sep (x ++ rest) = rest.drop 1 := by
  have hkeep : ∀ a ∈ x, (!sep a) = true := by
    intro a ha
    rw [hx a ha]
    rfl
  unfold firstField pastField
  rw [takeWhile_append_of_pos hkeep, dropWhile_append_of_pos hkeep]
  cases rest with
  | nil => simp
  | cons a rest =>
    have ha : sep a = true := hrest a (by simp)
    simp [ha]

variable (sep)

theorem drop_firstField (t : List α) : t.drop ((firstField sep t).length + 1) = pastField sep t := by
  obtain ⟨rest, ht, -, hpast⟩ := firstField_append_rest sep t
  have hdrop : (firstField sep t ++ rest).drop ((firstField sep t).length + 1) = rest.drop 1 := by
    rw [← drop_drop, drop_left]
  rw [hpast, ← hdrop, ← ht]

theorem splitOnP_eq_firstField (t : List α) :
    t.splitOnP sep = firstField sep t :: (if t.any sep then (pastField sep t).splitOnP sep else []) := by
  induction t with
  | nil => rfl
  | cons a t ih =>
    rw [splitOnP_cons_eq_if_modifyHead]
    cases ha : sep a with
    | true => simp [firstField, pastField, ha]
    | false =>
      rw [ih]
      simp [firstField, pastField, ha]

theorem splitOnP_getD_succ (t : List α) (k : Nat) :
    (t.splitOnP sep).getD (k + 1) [] = ((pastField sep t).splitOnP sep).getD k [] := by
  rw [splitOnP_eq_firstField, getD_cons_succ]
  cases hany : t.any sep with
  | true => rfl
  | false =>
    have hnone : ∀ a ∈ t, (!sep a) = true := by
      intro a ha
      have hf := any_eq_false.mp hany a ha
      simpa using hf
    have hpast : pastField sep t = [] := by
      rw [pastField, dropWhile_eq_nil_iff.mpr hnone, drop_nil]
    rw [hpast]
    cases k <;> rfl

theorem splitOnP_getD_zero (t : List α) : (t.splitOnP sep).getD 0 [] = firstField sep t := by
  rw [splitOnP_eq_firstField]
  rfl

/-- The pieces between separators that are not empty. -/
def words (t : List α) : List (List α) := (t.splitOnP sep).filter fun word => !word.isEmpty

variable {sep}

theorem words_separator {a : α} (ha : sep a = true) (t : List α) : words sep (a :: t) = words sep t := by
  rw [words, splitOnP_eq_firstField]
  simp [words, firstField, pastField, ha]

theorem words_replicate {a : α} (ha : sep a = true) (n : Nat) (t : List α) :
    words sep (List.replicate n a ++ t) = words sep t := by
  induction n with
  | zero => rfl
  | succ n ih => rw [replicate_succ, cons_append, words_separator ha, ih]

theorem words_append {x rest : List α} (hne : x ≠ []) (hx : ∀ a ∈ x, sep a = false) (hrest : AtEnd sep rest) :
    words sep (x ++ rest) = x :: words sep rest := by
  obtain ⟨hfirst, hpast⟩ := firstField_append hx hrest
  have hnone : x.any sep = false := any_eq_false.mpr fun a ha => by simp [hx a ha]
  have hkeep : (!x.isEmpty) = true := by simp [hne]
  rw [words, splitOnP_eq_firstField, hfirst, hpast, any_append, hnone, Bool.false_or, filter_cons, if_pos hkeep]
  congr 1
  cases rest with
  | nil => rfl
  | cons a rest =>
    have ha : sep a = true := hrest a (by simp)
    rw [words_separator ha]
    simp [ha, words]

end

end Lsof.Basis
