import Lsof.Basis.Walks

/-! # The C's links between UNIX sockets

A record for each socket that the kernel lists, in hash chains by inode, with
pointers from a socket to its peer and from a listener to its first pending
connection; and the walk over them that names a socket's other ends.
-/

namespace Lsof.Original

open Lsof.Basis List

/-- What a socket's record holds for naming its ends. A pointer is a place in the table. -/
structure UxsinEnds (ρ : Type) where
  inode : BitVec 64
  peer : Option Nat := none
  icons : Option Nat := none
  icstat : Bool := false
  /-- The rows on the socket, the last met first. -/
  pxinfo : List ρ := []
  deriving DecidableEq, Repr

/-- What is added to a row's name for another end: its inode, or a row on it. -/
inductive NamedEnd (ρ : Type) where
  | socket (inode : BitVec 64)
  | row (r : ρ)
  deriving DecidableEq, Repr

variable {ρ : Type} (table : List (UxsinEnds ρ))

/-- The place of an inode's record. Records of one inode share a chain, and the one
that stands first in it is found. -/
def checkUnix (inode : BitVec 64) : Option Nat := table.findIdx? fun u => u.inode == inode

def fillUxicino (si ic : BitVec 64) : List (UxsinEnds ρ) :=
  match checkUnix table si with
  | none => table
  | some psi =>
    if table[psi]?.any fun u => u.icstat || u.icons.isSome then table
    else
      match checkUnix table ic with
      | none => table
      | some pic => table.modify psi fun u => { u with icstat := true, icons := some pic }

def fillUxpino (si pi : BitVec 64) : List (UxsinEnds ρ) :=
  match checkUnix table si with
  | none => table
  | some up =>
    if table[up]?.any fun u => u.peer.isSome then table
    else
      match checkUnix table pi with
      | none => table
      | some pp => table.modify up fun u => { u with peer := some pp }

def findUxepti (inode : BitVec 64) : Option Nat := (checkUnix table inode).bind fun up => table[up]?.bind UxsinEnds.peer

def prtUxs (p : Nat) : List (NamedEnd ρ) :=
  match table[p]? with
  | none => []
  | some u => .socket u.inode :: u.pxinfo.map NamedEnd.row

def hasInode (p : Nat) : Bool := table[p]?.any fun u => u.inode != 0

/-- `if (p->inode) prt_uxs(p)`. -/
def prtInode (p : Nat) : List (NamedEnd ρ) := if hasInode table p then prtUxs table p else []

def iconsOf (p : Nat) : Option Nat := table[p]?.bind UxsinEnds.icons

/-- `for (; p && !p->icstat; p = p->icons)`. None where the turns are not enough. -/
def firstIcstat : Nat → Option Nat → Option (Option Nat)
  | 0, _ => none
  | _ + 1, none => some none
  | turns + 1, some p =>
    if table[p]?.any UxsinEnds.icstat then some (some p) else firstIcstat turns (iconsOf table p)

/-- The pending connections from a listener's record on. -/
def prtIcons (turns : Nat) (tp : Nat) : Option (List (NamedEnd ρ)) :=
  match iconsOf table tp with
  | none => some []
  | some first =>
    if table[tp]?.any UxsinEnds.icstat then
      (plainWalk (iconsOf table) tp turns (some first)).map fun ps => ps.flatMap (prtInode table)
    else (firstIcstat table turns (some first)).map fun p => p.toList.flatMap (prtInode table)

def unixIcons (turns : Nat) (inode : BitVec 64) : Option (List (NamedEnd ρ)) :=
  match checkUnix table inode with
  | none => some []
  | some tp => prtIcons table turns tp

/-- What is added to the name of a row on a socket, selected or forced into the
listing as an end. None where the turns are not enough for the walk. -/
def processUxsinfo (turns : Nat) (inode : BitVec 64) (forced : Bool) : Option (List (NamedEnd ρ)) :=
  match (findUxepti table inode).filter (hasInode table) with
  | some p =>
    if forced then some (prtUxs table p)
    else (unixIcons table turns inode).map fun rest => prtUxs table p ++ rest
  | none => unixIcons table turns inode

variable {table}

theorem checkUnix_lt {n : BitVec 64} {p : Nat} (h : checkUnix table n = some p) :
    ∃ u, table[p]? = some u ∧ u.inode = n := by
  rcases findIdx?_eq_some_iff_getElem.mp h with ⟨hlt, hinode, _⟩
  exact ⟨table[p], getElem?_eq_getElem hlt, eq_of_beq hinode⟩

theorem checkUnix_injective {n m : BitVec 64} {p : Nat} (hn : checkUnix table n = some p)
    (hm : checkUnix table m = some p) : n = m := by
  rcases checkUnix_lt hn with ⟨u, hu, hun⟩
  rcases checkUnix_lt hm with ⟨v, hv, hvm⟩
  rw [← hun, ← hvm, Option.some.inj (hu.symm.trans hv)]

theorem checkUnix_modify (p : Nat) {f : UxsinEnds ρ → UxsinEnds ρ} (hf : ∀ u, (f u).inode = u.inode) (n : BitVec 64) :
    checkUnix (table.modify p f) n = checkUnix table n := by
  have hmap : (table.modify p f).map UxsinEnds.inode = table.map UxsinEnds.inode := by
    apply ext_getElem?
    intro i
    rw [getElem?_map, getElem?_map, getElem?_modify]
    cases table[i]? with
    | none => rfl
    | some u =>
      by_cases hp : p = i
      · simp [hp, hf]
      · simp [hp]
  have hfind : ∀ t : List (UxsinEnds ρ), checkUnix t n = (t.map UxsinEnds.inode).findIdx? (· == n) := by
    intro t
    rw [findIdx?_map]
    rfl
  rw [hfind, hfind, hmap]

theorem checkUnix_fillUxpino (si pi n : BitVec 64) : checkUnix (fillUxpino table si pi) n = checkUnix table n := by
  unfold fillUxpino
  split
  · rfl
  · split
    · rfl
    · split
      · rfl
      · apply checkUnix_modify
        intro u
        rfl

theorem checkUnix_fillUxicino (si ic n : BitVec 64) : checkUnix (fillUxicino table si ic) n = checkUnix table n := by
  unfold fillUxicino
  split
  · rfl
  · split
    · rfl
    · split
      · rfl
      · apply checkUnix_modify
        intro u
        rfl

end Lsof.Original
