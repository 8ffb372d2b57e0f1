import Lsof.Basis.Views

/-! # Reading a stream item by item

What takes one item off the front of an input, and what the items of a whole input
come to. Items written one after another are read back in their order. An item may
be written after its length.
-/

namespace Lsof.Basis

open List

/-- Takes an item off the front of an input, and leaves less of it. -/
structure Reader (β α : Type) where
  next : List β → Option (α × List β)
  shrinks : ∀ {r : List β} {a : α} {rest : List β}, next r = some (a, rest) → rest.length < r.length

namespace Reader

variable {α β σ : Type} (rd : Reader β α)

def all (r : List β) : List α :=
  match h : rd.next r with
  | none => []
  | some (a, rest) =>
    have := rd.shrinks h
    a :: all rest
termination_by r.length

/-- What the items of an input come to, where it is items to its end and each is let in. -/
def foldAll (step : σ → α → Option σ) (st : σ) (r : List β) : Option σ :=
  if r.isEmpty then some st
  else
    match h : rd.next r with
    | none => none
    | some (a, rest) =>
      have := rd.shrinks h
      (step st a).bind fun next => foldAll step next rest
termination_by r.length

/-- What is written for an item is read as the item, whatever follows it. -/
def Reads (write : α → List β) (a : α) : Prop := ∀ rest, rd.next (write a ++ rest) = some (a, rest)

variable {rd} {write : α → List β}

theorem Reads.ne_nil {a : α} (h : rd.Reads write a) : write a ≠ [] := by
  intro hnil
  have hless := rd.shrinks (h [])
  rw [hnil] at hless
  exact Nat.lt_irrefl _ hless

theorem all_append {a : α} (h : rd.Reads write a) (rest : List β) : rd.all (write a ++ rest) = a :: rd.all rest := by
  rw [all]
  split
  · rename_i hnone
    rw [h rest] at hnone
    cases hnone
  · rename_i b left hsome
    rw [h rest] at hsome
    cases hsome
    rfl

theorem all_flatMap {as : List α} (h : ∀ a ∈ as, rd.Reads write a) (rest : List β) :
    rd.all (as.flatMap write ++ rest) = as ++ rd.all rest := by
  induction as with
  | nil => rfl
  | cons a as ih =>
    rw [flatMap_cons, append_assoc, all_append (h a mem_cons_self), ih fun b hb => h b (mem_cons_of_mem a hb)]
    rfl

theorem foldAll_nil (step : σ → α → Option σ) (st : σ) : rd.foldAll step st [] = some st := by
  rw [foldAll]
  rfl

theorem foldAll_append {a : α} (h : rd.Reads write a) (step : σ → α → Option σ) (st : σ) (rest : List β) :
    rd.foldAll step st (write a ++ rest) = (step st a).bind fun next => rd.foldAll step next rest := by
  rw [foldAll, if_neg (by simp [h.ne_nil])]
  split
  · rename_i hnone
    rw [h rest] at hnone
    cases hnone
  · rename_i b left hsome
    rw [h rest] at hsome
    cases hsome
    rfl

end Reader

def prefixed (order : ByteOrder) (w : Nat) (item : Bytes) : Bytes := order.bytes w item.length ++ item

def takePrefixed (order : ByteOrder) (w : Nat) (r : Bytes) : Option (Bytes × Bytes) :=
  let len := order.value (r.take w)
  if r.length < w + len then none else some ((r.drop w).take len, r.drop (w + len))

theorem length_prefixed (order : ByteOrder) (w : Nat) (item : Bytes) :
    (prefixed order w item).length = w + item.length := by
  rw [prefixed, length_append, ByteOrder.length_bytes]

theorem takePrefixed_prefixed (order : ByteOrder) {w : Nat} {item : Bytes} (h : item.length < 256 ^ w)
    (rest : Bytes) : takePrefixed order w (prefixed order w item ++ rest) = some (item, rest) := by
  have hw := order.length_bytes w item.length
  have hassoc : prefixed order w item ++ rest = order.bytes w item.length ++ (item ++ rest) := by
    rw [prefixed, append_assoc]
  have htake : (prefixed order w item ++ rest).take w = order.bytes w item.length := by
    rw [hassoc, take_left' hw]
  have hdrop : (prefixed order w item ++ rest).drop w = item ++ rest := by
    rw [hassoc, drop_left' hw]
  have hroom : ¬(prefixed order w item ++ rest).length < w + item.length := by
    rw [length_append, length_prefixed]
    omega
  unfold takePrefixed
  simp only [htake, order.value_bytes h]
  rw [if_neg hroom, ← drop_drop, hdrop, take_left, drop_left]

theorem length_of_takePrefixed {order : ByteOrder} {w : Nat} {r item rest : Bytes}
    (h : takePrefixed order w r = some (item, rest)) : r.length = w + item.length + rest.length := by
  unfold takePrefixed at h
  dsimp only at h
  split at h
  · cases h
  · cases h
    rw [length_take, length_drop, length_drop]
    omega

def ByteOrder.placeAt (order : ByteOrder) (w i : Nat) (row : Bytes) : Nat := order.value ((row.drop (i * w)).take w)

theorem ByteOrder.placeAt_flatMap (order : ByteOrder) {w i n : Nat} {ns : List Nat} (hi : ns[i]? = some n)
    (hn : n < 256 ^ w) (rest : Bytes) : order.placeAt w i (ns.flatMap (order.bytes w) ++ rest) = n := by
  induction i generalizing ns with
  | zero =>
    cases ns with
    | nil => cases hi
    | cons m ns =>
      cases hi
      rw [placeAt, Nat.zero_mul, drop_zero, flatMap_cons, append_assoc,
        take_left' (order.length_bytes w n), order.value_bytes hn]
  | succ i ih =>
    cases ns with
    | nil => cases hi
    | cons m ns =>
      have hdrop : ((m :: ns).flatMap (order.bytes w) ++ rest).drop ((i + 1) * w) =
          (ns.flatMap (order.bytes w) ++ rest).drop (i * w) := by
        rw [Nat.succ_mul, Nat.add_comm, ← drop_drop, flatMap_cons, append_assoc, drop_left' (order.length_bytes w m)]
      rw [placeAt, hdrop]
      exact ih (by simpa using hi)

end Lsof.Basis
