import Mathlib

/-! # Sets of kinds kept in a machine word

A finite enumeration whose members own distinct bits of a `w`-bit word, and the
sets of members such a word denotes. The operations are those of the word; each
has one membership lemma, and the lemmas after them are stated in terms of
membership alone, so no proof outside this module looks at a bit.
-/

namespace Lsof.Basis

/-- Every member of `κ` has a bit of a `w`-bit word of its own. -/
class BitIndexed (κ : Type) (w : outParam Nat) where
  bit : κ → Fin w
  bit_injective : Function.Injective bit

/-- A word in which only bits some member owns are set. -/
@[ext] structure KindSet (κ : Type) {w : Nat} [BitIndexed κ w] where
  bits : BitVec w
  named : ∀ i, bits.getLsbD i = true → ∃ k : κ, (BitIndexed.bit k).val = i

namespace KindSet

variable {κ : Type} {w : Nat} [BitIndexed κ w]

instance : Membership κ (KindSet κ) where
  mem s k := s.bits.getLsbD (BitIndexed.bit k).val = true

instance (k : κ) (s : KindSet κ) : Decidable (k ∈ s) :=
  inferInstanceAs (Decidable (s.bits.getLsbD (BitIndexed.bit k).val = true))

instance : DecidableEq (KindSet κ) := fun s t =>
  decidable_of_iff (s.bits = t.bits) ⟨KindSet.ext, congrArg KindSet.bits⟩

variable {k : κ}

theorem mem_def {s : KindSet κ} :
    k ∈ s ↔ s.bits.getLsbD (BitIndexed.bit k).val = true := Iff.rfl

variable {s t : KindSet κ}

theorem bits_inj (h : ∀ k : κ, k ∈ s ↔ k ∈ t) : s = t := by
  apply KindSet.ext
  apply BitVec.eq_of_getLsbD_eq
  intro i _
  cases hs : s.bits.getLsbD i with
  | true =>
    obtain ⟨k, rfl⟩ := s.named i hs
    exact ((h k).mp hs).symm
  | false =>
    cases ht : t.bits.getLsbD i with
    | false => rfl
    | true =>
      obtain ⟨k, rfl⟩ := t.named i ht
      have := (h k).mpr ht
      rw [mem_def, hs] at this
      cases this

def none : KindSet κ := ⟨0#w, by simp⟩

def single (k : κ) : KindSet κ :=
  ⟨1#w <<< (BitIndexed.bit k).val, by
    intro i hi
    refine ⟨k, ?_⟩
    simp only [BitVec.getLsbD_shiftLeft, BitVec.getLsbD_one] at hi
    simp only [Bool.and_eq_true, decide_eq_true_eq, Bool.not_eq_true', decide_eq_false_iff_not] at hi
    omega⟩

def union (s t : KindSet κ) : KindSet κ :=
  ⟨s.bits ||| t.bits, by
    intro i hi
    rw [BitVec.getLsbD_or, Bool.or_eq_true] at hi
    exact hi.elim (s.named i) (t.named i)⟩

def intersection (s t : KindSet κ) : KindSet κ :=
  ⟨s.bits &&& t.bits, by
    intro i hi
    rw [BitVec.getLsbD_and, Bool.and_eq_true] at hi
    exact s.named i hi.1⟩

def without (s t : KindSet κ) : KindSet κ :=
  ⟨s.bits &&& ~~~t.bits, by
    intro i hi
    rw [BitVec.getLsbD_and, Bool.and_eq_true] at hi
    exact s.named i hi.1⟩

def isEmpty (s : KindSet κ) : Bool := s.bits == 0#w

def contains (s t : KindSet κ) : Bool := (s.bits &&& t.bits) == t.bits

def intersects (s t : KindSet κ) : Bool := (s.bits &&& t.bits) != 0#w

def count (s : KindSet κ) : Nat := (List.range w).countP (fun i => s.bits.getLsbD i)

/-- Add `t` when a test succeeded: the shape every accumulation of kinds has. -/
def insertIf (s : KindSet κ) (test : Bool) (t : KindSet κ) : KindSet κ :=
  if test then s.union t else s

@[simp] theorem mem_none (k : κ) : k ∉ (none : KindSet κ) := by
  simp [mem_def, none]

@[simp] theorem mem_single {k j : κ} : k ∈ (single j : KindSet κ) ↔ k = j := by
  have hlt := (BitIndexed.bit k).isLt
  have hpos : 0 < w := by omega
  simp only [mem_def, single, BitVec.getLsbD_shiftLeft, BitVec.getLsbD_one, Bool.and_eq_true,
    decide_eq_true_eq, Bool.not_eq_true', decide_eq_false_iff_not]
  constructor
  · intro h
    exact BitIndexed.bit_injective (Fin.ext (by omega))
  · rintro rfl
    omega

@[simp] theorem mem_union : k ∈ s.union t ↔ k ∈ s ∨ k ∈ t := by
  simp [mem_def, union]

@[simp] theorem mem_intersection : k ∈ s.intersection t ↔ k ∈ s ∧ k ∈ t := by
  simp [mem_def, intersection]

@[simp] theorem mem_without : k ∈ s.without t ↔ k ∈ s ∧ k ∉ t := by
  simp [mem_def, without]

@[simp] theorem mem_insertIf {test : Bool} : k ∈ s.insertIf test t ↔ k ∈ s ∨ (test = true ∧ k ∈ t) := by
  cases test <;> simp [insertIf]

@[simp] theorem none_union (s : KindSet κ) : none.union s = s :=
  bits_inj fun k => by simp

theorem eq_iff : s = t ↔ ∀ k : κ, k ∈ s ↔ k ∈ t :=
  ⟨fun h k => by rw [h], bits_inj⟩

theorem isEmpty_iff {s : KindSet κ} : s.isEmpty = true ↔ ∀ k : κ, k ∉ s := by
  simp only [isEmpty, beq_iff_eq]
  constructor
  · intro h k
    simp [mem_def, h]
  · intro h
    exact congrArg KindSet.bits (bits_inj (s := s) (t := none) (by simpa using h))

theorem isEmpty_eq_false_iff {s : KindSet κ} : s.isEmpty = false ↔ ∃ k : κ, k ∈ s := by
  rw [← Bool.not_eq_true, isEmpty_iff]
  simp

theorem contains_iff : s.contains t = true ↔ ∀ k : κ, k ∈ t → k ∈ s := by
  simp only [contains, beq_iff_eq]
  constructor
  · intro h k hk
    rw [mem_def, ← h, BitVec.getLsbD_and, Bool.and_eq_true] at hk
    exact hk.1
  · intro h
    exact congrArg KindSet.bits (bits_inj (s := s.intersection t) (t := t) (by simpa using h))

theorem intersects_iff : s.intersects t = true ↔ ∃ k : κ, k ∈ s ∧ k ∈ t := by
  have h := isEmpty_eq_false_iff (s := s.intersection t)
  simp only [mem_intersection] at h
  rw [← h]
  simp [intersects, isEmpty, intersection, bne]

theorem intersects_eq_false_iff : s.intersects t = false ↔ ∀ k : κ, k ∈ s → k ∉ t := by
  rw [← Bool.not_eq_true, intersects_iff]
  simp

@[simp] theorem isEmpty_none : (none : KindSet κ).isEmpty = true := by simp [isEmpty_iff]

end KindSet

end Lsof.Basis
