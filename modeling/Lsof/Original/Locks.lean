import Lsof.Basis.Newest
import Lsof.Linux.Devices
import Lsof.Original.Strto

/-! # The C's lock table

How the C reads the kernel's list of locks into hash chains by process, and
looks a file's lock up in them.
-/

namespace Lsof.Original

open Lsof.Basis List

/-- The size of the buffer a line is read into. -/
def MAXPATHLEN : Nat := 4096

/-- The texts that reads into the buffer give: each ends after a newline or where
the buffer is full. `left` is the room left in it. -/
def fgetsFrom (left : Nat) (held : Text) : Text → List Text
  | [] => if held.isEmpty then [] else [held]
  | c :: t =>
    if c == '\n' || left ≤ 1 then (held ++ [c]) :: fgetsFrom (MAXPATHLEN - 1) [] t
    else fgetsFrom (left - 1) (held ++ [c]) t

def fgetsAll (t : Text) : List Text := fgetsFrom (MAXPATHLEN - 1) [] t

/-- The fields of a line, with no field that may hold a separator. `field` is the
one being read. A separator that opens a field makes an empty one. -/
def scanFields (sep : Text) (field : Option Text) : Text → List Text
  | [] => field.toList
  | c :: t =>
    match field with
    | none =>
      if c == ' ' || c == '\t' then scanFields sep none t
      else if c == '\n' then []
      else if sep.contains c then [] :: scanFields sep none t
      else scanFields sep (some [c]) t
    | some held =>
      if c == '\n' then [held]
      else if c == ' ' || c == '\t' || sep.contains c then held :: scanFields sep none t
      else scanFields sep (some (held ++ [c])) t

def getFields (line : Text) (sep : Text) : List Text := scanFields sep none (line.takeWhile (· != '\x00'))

/-- A character that neither ends a field nor parts two. -/
def InField (sep : Text) (c : Char) : Prop := c ≠ ' ' ∧ c ≠ '\t' ∧ c ≠ '\n' ∧ c ∉ sep

theorem scanFields_inField {sep : Text} {c : Char} (hc : InField sep c) (field : Option Text) (rest : Text) :
    scanFields sep field (c :: rest) = scanFields sep (some (field.getD [] ++ [c])) rest := by
  rcases hc with ⟨hblank, htab, hnl, hsep⟩
  cases field with
  | none => simp [scanFields, hnl, hblank, htab, hsep]
  | some held => simp [scanFields, hnl, hblank, htab, hsep]

theorem scanFields_append {sep w : Text} (hne : w ≠ []) (hw : ∀ c ∈ w, InField sep c) (rest : Text) :
    scanFields sep none (w ++ rest) = scanFields sep (some w) rest := by
  have hrun : ∀ (u held : Text), (∀ c ∈ u, InField sep c) →
      scanFields sep (some held) (u ++ rest) = scanFields sep (some (held ++ u)) rest := by
    intro u
    induction u with
    | nil =>
      intro held _
      rw [append_nil, nil_append]
    | cons c u ih =>
      intro held hu
      rw [cons_append, scanFields_inField (hu c mem_cons_self),
        ih _ fun d hd => hu d (mem_cons_of_mem c hd), append_assoc]
      rfl
  cases w with
  | nil => exact absurd rfl hne
  | cons c w =>
    rw [cons_append, scanFields_inField (hw c mem_cons_self), hrun _ _ fun d hd => hw d (mem_cons_of_mem c hd)]
    rfl

theorem scanFields_blanks (sep : Text) (n : Nat) (rest : Text) :
    scanFields sep none (List.replicate n ' ' ++ rest) = scanFields sep none rest := by
  induction n with
  | zero => rfl
  | succ n ih => exact ih

theorem getFields_of_not_mem {line : Text} (h : '\x00' ∉ line) (sep : Text) :
    getFields line sep = scanFields sep none line := by
  have hkeep : ∀ c ∈ line, (c != '\x00') = true := by
    intro c hc
    rw [bne_iff_ne]
    intro heq
    exact h (heq ▸ hc)
  rw [getFields, takeWhile_eq_self_iff.mpr hkeep]

inductive LockMode where
  | readPartial
  | readFull
  | writePartial
  | writeFull
  deriving DecidableEq, Repr

def lockToChar : LockMode → Char
  | .readPartial => 'r'
  | .readFull => 'R'
  | .writePartial => 'w'
  | .writeFull => 'W'

abbrev LockedFile := Int × Nat × Nat

def OFFSET_MAX : Nat := 0x7FFFFFFF

def ULONG_MAX : Nat := 2 ^ 64 - 1

def wholeNumber {α : Type} (read : Text → α × Text) (refused : α → Bool) (field : Text) : Option α :=
  let r := read field
  if field.isEmpty || refused r.1 || !r.2.isEmpty then none else some r.1

def lockPart (field : Text) : Option Int := wholeNumber (strtol 16) (fun v => v == LONG_MIN || v == LONG_MAX) field

def lockNumber (field : Text) : Option Nat := wholeNumber (strtoul 0) (fun v => v == ULONG_MAX) field

def lockEnd (field : Text) : Option Nat := if field == "EOF".toList then some OFFSET_MAX else lockNumber field

def toInt32 (v : Int) : Nat := (BitVec.ofInt 32 v).toNat

def lockMode (write full : Bool) : LockMode :=
  if write then if full then .writeFull else .writePartial
  else if full then .readFull else .readPartial

def lockOf (fp : List Text) : Option (LockedFile × LockMode) := do
  if fp.length < 10 then none
  if fp.getD 1 [] == "->".toList then none
  let write ← match (fp.getD 3 []).head? with
    | some 'R' => some false
    | some 'W' => some true
    | _ => none
  if (fp.getD 4 []).isEmpty then none
  let pid := atoi (fp.getD 4 [])
  let maj ← lockPart (fp.getD 5 [])
  let min ← lockPart (fp.getD 6 [])
  let inode ← lockNumber (fp.getD 7 [])
  if (fp.getD 8 []).isEmpty || (fp.getD 9 []).isEmpty then none
  let bp ← lockNumber (fp.getD 8 [])
  let ep ← lockEnd (fp.getD 9 [])
  return ((pid, Linux.makedev (toInt32 maj) (toInt32 min), inode), lockMode write (bp == 0 && ep == OFFSET_MAX))

def PIDBUCKS : Nat := 64

def hashPid (pid : Int) : Nat := (((BitVec.ofInt 32 pid * 31415).sshiftRight 3) &&& (BitVec.ofNat 32 (PIDBUCKS - 1))).toNat

def lockBucket (file : LockedFile) : Nat := hashPid file.1

def readLocks (text : Text) : List (LockedFile × LockMode) :=
  (fgetsAll text).filterMap fun line => lockOf (getFields line [':'])

/-- The chains: a lock goes to the head of its bucket's, unless it is there. -/
def getLocks (text : Text) : Nat → List (LockedFile × LockMode) :=
  (readLocks text).foldl (chainEnter lockBucket) fun _ => []

def checkLock (LckH : Nat → List (LockedFile × LockMode)) (file : LockedFile) : Option LockMode :=
  chainSearch lockBucket LckH file

theorem checkLock_getLocks (text : Text) (file : LockedFile) :
    checkLock (getLocks text) file = newest (readLocks text) file :=
  ((Chains.nil lockBucket).foldl (readLocks text)).search file

end Lsof.Original
