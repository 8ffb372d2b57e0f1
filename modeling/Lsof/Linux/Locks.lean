import Lsof.Basis.Newest
import Lsof.Basis.Lines
import Lsof.Core.Codes
import Lsof.Linux.Devices

/-! # The lock table

The kernel's list of locks read in one pass into a map from the process, device
and inode of a locked file to the kind of lock shown for it.
-/

namespace Lsof.Core

def LockKind.new (write wholeFile : Bool) : LockKind :=
  match write, wholeFile with
  | true, true => .writeFull
  | true, false => .writePartial
  | false, true => .readFull
  | false, false => .readPartial

end Lsof.Core

namespace Lsof.Linux

open Lsof.Basis Lsof.Core List

abbrev LockKey := BitVec 32 × Nat × BitVec 64

def lockFields (line : Text) : List Text :=
  (line.splitOnP fun c => c == ':' || Text.isWhitespace c).filter fun s => !s.isEmpty

/-- The lock a line's fields are of; none for a waiter. -/
def lockEntry (f : List Text) : Option (LockKey × LockKind) := do
  if f.length < 10 then none
  if f.getD 1 [] == "->".toList then none
  let write ← match (f.getD 3 []).head? with
    | some 'W' => some true
    | some 'R' => some false
    | _ => none
  let pid ← Text.parseUnsigned 32 (f.getD 4 [])
  let maj ← Text.parseHex 32 (f.getD 5 [])
  let min ← Text.parseHex 32 (f.getD 6 [])
  let inode ← Text.parseUnsigned 64 (f.getD 7 [])
  let start ← Text.parseUnsigned 64 (f.getD 8 [])
  let wholeFile := start == 0 && f.getD 9 [] == "EOF".toList
  return ((pid, makedev maj min, inode), LockKind.new write wholeFile)

def lockLine (line : Text) : Option (LockKey × LockKind) := lockEntry (lockFields line)

def lockBit : LockKind → Nat
  | .readPartial => 1
  | .readFull => 2
  | .writePartial => 4
  | .writeFull => 8

structure LockState where
  out : LockKey → Option LockKind := fun _ => none
  /-- The kinds each file has had so far, one bit apiece. -/
  seen : LockKey → Nat := fun _ => 0

def LockState.enter (st : LockState) (e : LockKey × LockKind) : LockState :=
  if st.seen e.1 &&& lockBit e.2 = 0 then
    { out := update st.out e.1 e.2
      seen := fun k => if k = e.1 then st.seen k ||| lockBit e.2 else st.seen k }
  else st

def parseLocks (text : Text) : LockKey → Option LockKind :=
  ((text.lines.filterMap lockLine).foldl LockState.enter {}).out

theorem lockBit_and_eq_zero (a b : LockKind) : lockBit a &&& lockBit b = 0 ↔ a ≠ b := by
  cases a <;> cases b <;> decide

structure LockState.Holds (es : List (LockKey × LockKind)) (st : LockState) : Prop where
  out : ∀ k, st.out k = newest es k
  seen : ∀ k v, st.seen k &&& lockBit v = 0 ↔ (k, v) ∉ es

theorem LockState.Holds.nil : LockState.Holds [] {} where
  out _ := rfl
  seen k v := by simp

theorem LockState.Holds.enter {es : List (LockKey × LockKind)} {st : LockState} (h : st.Holds es)
    (e : LockKey × LockKind) : (st.enter e).Holds (es ++ [e]) := by
  unfold LockState.enter
  by_cases hnew : st.seen e.1 &&& lockBit e.2 = 0
  · have hfresh : e ∉ es := (h.seen e.1 e.2).mp hnew
    rw [if_pos hnew]
    constructor
    · intro k
      rw [newest_concat]
      by_cases hk : e.1 = k
      · have hboth : e.1 = k ∧ e ∉ es := ⟨hk, hfresh⟩
        rw [if_pos hboth, ← hk]
        exact update_self _ _ _
      · have hnone : ¬ (e.1 = k ∧ e ∉ es) := fun hboth => hk hboth.1
        rw [if_neg hnone, ← h.out]
        exact update_of_ne _ _ (Ne.symm hk)
    · intro k v
      have hmem : (k, v) ∉ es ++ [e] ↔ (k, v) ∉ es ∧ (k, v) ≠ e := by simp
      rw [hmem, ← h.seen k v]
      change (if k = e.1 then st.seen k ||| lockBit e.2 else st.seen k) &&& lockBit v = 0 ↔ _
      by_cases hk : k = e.1
      · have hpair : (k, v) ≠ e ↔ e.2 ≠ v := by
          rw [hk, Ne, Prod.ext_iff]
          simp [eq_comm]
        rw [if_pos hk, Nat.and_or_distrib_right, Nat.or_eq_zero_iff, lockBit_and_eq_zero, hpair]
      · have hpair : (k, v) ≠ e := fun heq => hk (congrArg Prod.fst heq)
        rw [if_neg hk]
        exact ⟨fun hz => ⟨hz, hpair⟩, And.left⟩
  · have hin : e ∈ es := not_not.mp fun hout => hnew ((h.seen e.1 e.2).mpr hout)
    rw [if_neg hnew]
    constructor
    · intro k
      have hnone : ¬ (e.1 = k ∧ e ∉ es) := fun hboth => hboth.2 hin
      rw [newest_concat, if_neg hnone, h.out]
    · intro k v
      have hmem : (k, v) ∈ es ++ [e] ↔ (k, v) ∈ es := by
        rw [mem_append, mem_singleton]
        constructor
        · intro hd
          rcases hd with hd | hd
          · exact hd
          · rw [hd]
            exact hin
        · exact Or.inl
      rw [h.seen, hmem]

theorem LockState.Holds.foldl {es : List (LockKey × LockKind)} {st : LockState} (h : st.Holds es)
    (more : List (LockKey × LockKind)) : (more.foldl LockState.enter st).Holds (es ++ more) := by
  induction more generalizing es st with
  | nil =>
    rw [append_nil]
    exact h
  | cons e more ih =>
    have hstep := ih (h.enter e)
    rw [append_assoc] at hstep
    exact hstep

theorem parseLocks_eq (text : Text) (k : LockKey) : parseLocks text k = newest (text.lines.filterMap lockLine) k :=
  (LockState.Holds.nil.foldl (text.lines.filterMap lockLine)).out k

end Lsof.Linux
