import Mathlib

/-! # Memory written by position

Cells of any kind, with a log of where each write began and how many cells it
took, so that a write past the end of a buffer shows. A string is held from the
first cell on, up to a cell that ends it.
-/

namespace Lsof.Basis

open List

structure Memory (α : Type) where
  cells : Nat → α
  log : List (Nat × Nat)

namespace Memory

variable {α : Type}

def store (m : Memory α) (pos : Nat) (s : List α) : Memory α where
  cells i := if pos ≤ i then (s[i - pos]?).getD (m.cells i) else m.cells i
  log := m.log ++ [(pos, s.length)]

def read (m : Memory α) (pos n : Nat) : List α := (List.range n).map fun i => m.cells (pos + i)

/-- No write went past the first `size` cells. -/
def Within (m : Memory α) (size : Nat) : Prop := ∀ w ∈ m.log, w.1 + w.2 ≤ size

instance (m : Memory α) (size : Nat) : Decidable (m.Within size) :=
  inferInstanceAs (Decidable (∀ w ∈ m.log, w.1 + w.2 ≤ size))

/-- The memory begins with a string, and `nul` after it. -/
def Holds (m : Memory α) (nul : α) (s : List α) : Prop := m.read 0 (s.length + 1) = s ++ [nul]

instance [DecidableEq α] (m : Memory α) (nul : α) (s : List α) : Decidable (m.Holds nul s) :=
  inferInstanceAs (Decidable (m.read 0 (s.length + 1) = s ++ [nul]))

/-- As much of a string as `n` cells hold, ended by `nul`. -/
def storeString (m : Memory α) (nul : α) (pos n : Nat) (s : List α) : Memory α :=
  if n = 0 then m else m.store pos (s.take (n - 1) ++ [nul])

theorem cells_store_of_lt (m : Memory α) {pos i : Nat} (s : List α) (h : i < pos) :
    (m.store pos s).cells i = m.cells i := if_neg (by omega)

variable {s : List α}

theorem cells_store_at (m : Memory α) (pos : Nat) {i : Nat} {a : α} (h : s[i]? = some a) :
    (m.store pos s).cells (pos + i) = a := by
  show (if pos ≤ pos + i then (s[pos + i - pos]?).getD _ else _) = a
  rw [if_pos (by omega), Nat.add_sub_cancel_left, h]
  rfl

theorem cells_store_of_ge (m : Memory α) {pos i : Nat} (s : List α) (h : pos + s.length ≤ i) :
    (m.store pos s).cells i = m.cells i := by
  show (if pos ≤ i then (s[i - pos]?).getD (m.cells i) else m.cells i) = m.cells i
  rw [getElem?_eq_none (by omega)]
  exact ite_self _

theorem length_read (m : Memory α) (pos n : Nat) : (m.read pos n).length = n := by
  simp [read]

theorem getElem?_read (m : Memory α) (pos : Nat) {n i : Nat} (h : i < n) :
    (m.read pos n)[i]? = some (m.cells (pos + i)) := by
  simp [read, h]

variable {m : Memory α} {nul : α}

theorem holds_iff : m.Holds nul s ↔ ∀ i a, (s ++ [nul])[i]? = some a → m.cells i = a := by
  unfold Holds
  constructor
  · intro h i a hi
    have hlt : i < s.length + 1 := by
      rcases List.getElem?_eq_some_iff.mp hi with ⟨hlt, -⟩
      simpa using hlt
    rw [← h, getElem?_read m 0 hlt, Nat.zero_add] at hi
    exact Option.some.inj hi
  · intro h
    apply ext_getElem?
    intro i
    by_cases hlt : i < s.length + 1
    · have hsome := getElem?_eq_getElem (l := s ++ [nul]) (i := i) (by simpa using hlt)
      rw [getElem?_read m 0 hlt, hsome, Nat.zero_add, h i _ hsome]
    · rw [getElem?_eq_none (by rw [length_read]; omega), getElem?_eq_none (by simp; omega)]

theorem Holds.cells (h : m.Holds nul s) {i : Nat} {a : α} (hi : s[i]? = some a) : m.cells i = a := by
  rcases List.getElem?_eq_some_iff.mp hi with ⟨hlt, -⟩
  exact holds_iff.mp h i a (by rw [getElem?_append_left hlt, hi])

theorem Holds.ended (h : m.Holds nul s) : m.cells s.length = nul :=
  holds_iff.mp h s.length nul (by simp)

theorem Holds.store (h : m.Holds nul s) (t : List α) : (m.store s.length (t ++ [nul])).Holds nul (s ++ t) := by
  rw [holds_iff]
  intro i a hi
  rw [append_assoc] at hi
  by_cases hlt : i < s.length
  · rw [getElem?_append_left hlt] at hi
    rw [cells_store_of_lt m _ hlt]
    exact h.cells hi
  · rw [getElem?_append_right (by omega)] at hi
    have hat := cells_store_at m s.length hi
    rwa [show s.length + (i - s.length) = i by omega] at hat

theorem holds_store_zero (m : Memory α) (nul : α) (t : List α) : (m.store 0 (t ++ [nul])).Holds nul t := by
  rw [holds_iff]
  intro i a hi
  have hat := cells_store_at m 0 hi
  rwa [Nat.zero_add] at hat

theorem Holds.read_drop (h : m.Holds nul s) {k : Nat} (hk : k ≤ s.length) :
    m.read k (s.length - k + 1) = s.drop k ++ [nul] := by
  apply ext_getElem?
  intro i
  by_cases hi : i < s.length - k + 1
  · have hsome := getElem?_eq_getElem (l := s.drop k ++ [nul]) (i := i) (by simpa using hi)
    have hwhole : (s ++ [nul])[k + i]? = (s.drop k ++ [nul])[i]? := by
      rw [← drop_append_of_le_length hk, getElem?_drop]
    rw [getElem?_read m k hi, hsome, holds_iff.mp h (k + i) _ (hwhole.trans hsome)]
  · rw [getElem?_eq_none (by rw [length_read]; omega),
      getElem?_eq_none (by rw [length_append, length_drop, length_singleton]; omega)]

theorem Holds.replace (h : m.Holds nul s) {k : Nat} (hk : k ≤ s.length) (t : List α) :
    ((m.store t.length (m.read k (s.length - k + 1))).store 0 t).Holds nul (t ++ s.drop k) := by
  rw [h.read_drop hk, holds_iff]
  intro i a hi
  rw [append_assoc] at hi
  by_cases hlt : i < t.length
  · rw [getElem?_append_left hlt] at hi
    have hat := cells_store_at (m.store t.length (s.drop k ++ [nul])) 0 hi
    rwa [Nat.zero_add] at hat
  · rw [getElem?_append_right (by omega)] at hi
    rw [cells_store_of_ge _ t (by omega)]
    have hat := cells_store_at m t.length hi
    rwa [show t.length + (i - t.length) = i by omega] at hat

theorem Holds.unique {s t : List α} (hs : m.Holds nul s) (ht : m.Holds nul t)
    (hnos : nul ∉ s) (hnot : nul ∉ t) : s = t := by
  have hlen : ∀ {u v : List α}, m.Holds nul u → m.Holds nul v → nul ∉ v → ¬ u.length < v.length := by
    intro u v hu hv hno hlt
    have hcell := hv.cells (getElem?_eq_getElem hlt)
    rw [hu.ended] at hcell
    exact hno (hcell ▸ getElem_mem hlt)
  have heq : s.length = t.length := by
    have hst := hlen hs ht hnot
    have hts := hlen ht hs hnos
    omega
  have hread : s ++ [nul] = t ++ [nul] := hs.symm.trans (heq ▸ ht)
  exact append_cancel_right hread

theorem within_store {pos size : Nat} : (m.store pos s).Within size ↔ m.Within size ∧ pos + s.length ≤ size := by
  simp [Within, store, or_imp, forall_and]

theorem storeString_of_lt {pos n : Nat} (h : s.length < n) :
    m.storeString nul pos n s = m.store pos (s ++ [nul]) := by
  rw [storeString, if_neg (by omega), take_of_length_le (by omega)]

theorem storeString_of_eq {pos n : Nat} (h : s.length = n) (hpos : 0 < n) :
    m.storeString nul pos n s = m.store pos (s.dropLast ++ [nul]) := by
  rw [storeString, if_neg (by omega), dropLast_eq_take, h]

end Memory

end Lsof.Basis
