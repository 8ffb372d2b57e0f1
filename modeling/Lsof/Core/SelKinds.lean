import Lsof.Basis.KindSet

/-! # Kinds of selectors

Each list option is a kind of selector, the C's `SEL*` bits. A run specifies a
set of kinds, a process and a file each match a set of kinds, and selection is
a test of the one against the other.
-/

namespace Lsof.Core

open Lsof.Basis

inductive SelKind where
  | pid
  | uid
  | cmd
  | pgid
  | fd
  | net
  | unx
  | nm
  | nlink
  | task
  | nfs
  | na
  deriving DecidableEq, Repr

def SelKind.bit : SelKind → Fin 16
  | pid => 0
  | uid => 1
  | cmd => 2
  | pgid => 3
  | fd => 4
  | net => 5
  | unx => 6
  | nm => 7
  | nlink => 8
  | task => 9
  | nfs => 10
  | na => 11

instance : BitIndexed SelKind 16 where
  bit := SelKind.bit
  bit_injective := by
    intro a b h
    cases a <;> cases b <;> first | rfl | (exact absurd h (by decide))

abbrev SelKinds := KindSet SelKind

namespace SelKinds

def proc : SelKinds :=
  (((KindSet.single .pid).union (.single .uid)).union (.single .cmd)).union (.single .pgid)

def file : SelKinds :=
  ((((((KindSet.single .fd).union (.single .net)).union (.single .na)).union
    (.single .unx)).union (.single .nm)).union (.single .nlink)).union (.single .nfs)

def network : SelKinds :=
  ((KindSet.single .net).union (.single .na)).union (.single .unx)

variable {k : SelKind}

theorem mem_proc : k ∈ proc ↔ k = .pid ∨ k = .uid ∨ k = .cmd ∨ k = .pgid := by
  simp [proc, or_assoc]

theorem mem_file : k ∈ file ↔ k = .fd ∨ k = .net ∨ k = .na ∨ k = .unx ∨ k = .nm ∨ k = .nlink ∨ k = .nfs := by
  simp [file, or_assoc]

theorem mem_network : k ∈ network ↔ k = .net ∨ k = .na ∨ k = .unx := by
  simp [network, or_assoc]

theorem file_of_network (h : k ∈ network) : k ∈ file := by
  rw [mem_network] at h
  rw [mem_file]
  rcases h with rfl | rfl | rfl <;> simp

theorem kind_cases (k : SelKind) : k ∈ proc ∨ k ∈ file ∨ k = .task := by
  rw [mem_proc, mem_file]
  cases k <;> simp

theorem proc_not_file (h : k ∈ proc) : k ∉ file := by
  rw [mem_proc] at h
  rw [mem_file]
  rcases h with rfl | rfl | rfl | rfl <;> simp

end SelKinds

end Lsof.Core
