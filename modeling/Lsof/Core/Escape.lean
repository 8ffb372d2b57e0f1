import Lsof.Core.Model

/-! # Terminal-safe text

The printers of names a local user chooses: each character that a terminal
would act on comes out in a visible form. Whether a backslash is doubled is the
one rule that depends on the platform.
-/

namespace Lsof.Core

open Lsof.Basis List

structure Escaper where
  backslash : Bool
  deriving DecidableEq, Repr

/-- What a cell's printer escapes besides controls. -/
inductive EscapeMode where
  | text
  | textSpaced
  | command
  deriving DecidableEq, Repr

def isControl (c : Char) : Bool :=
  c.toNat < 0x20 || (0x7F ≤ c.toNat && c.toNat ≤ 0x9F)

def isUnprintableUnicode (c : Char) : Bool :=
  isControl c || c.toNat == 0x2028 || c.toNat == 0x2029

def hexDigit (n : Nat) : Char :=
  ("0123456789abcdef".toList).getD n '0'

def pushHex (b : UInt8) : Text := ['\\', 'x', hexDigit (b.toNat / 16), hexDigit (b.toNat % 16)]

namespace Escaper

def forHost : Host → Escaper
  | .windows => { backslash := false }
  | .linux | .freebsd => { backslash := true }

def escapedWidth (esc : Escaper) (mode : EscapeMode) (c : Char) : Nat :=
  if c = '\\' ∧ esc.backslash = true then 2
  else if c = ' ' ∧ mode ≠ .text then 4
  else if c.toNat < 0x20 then 2
  else if c.toNat < 0x80 ∧ c.toNat ≠ 0x7F then 1
  else if c.toNat = 0x7F ∨ mode = .command ∨ isUnprintableUnicode c = true then 4 * c.utf8Size
  else 1

def push (esc : Escaper) (mode : EscapeMode) (c : Char) : Text :=
  if esc.escapedWidth mode c = 1 then [c]
  else if c.toNat = 0x08 then "\\b".toList
  else if c.toNat = 0x0C then "\\f".toList
  else if c = '\n' then "\\n".toList
  else if c = '\r' then "\\r".toList
  else if c = '\t' then "\\t".toList
  else if c = '\\' then "\\\\".toList
  else if c.toNat < 0x20 then ['^', Char.ofNat (c.toNat + 0x40)]
  else (String.utf8EncodeChar c).flatMap pushHex

/-- The text as it is where nothing needs escaping; else its clean start and
the printed form of every character after it. -/
def escape (esc : Escaper) (mode : EscapeMode) (s : Text) : Text :=
  let clean := fun c => esc.escapedWidth mode c == 1
  match s.dropWhile clean with
  | [] => s
  | rest => s.takeWhile clean ++ rest.flatMap (esc.push mode)

theorem escape_eq_flatMap (esc : Escaper) (mode : EscapeMode) (s : Text) :
    esc.escape mode s = s.flatMap (esc.push mode) := by
  have hclean : ∀ t : Text, (∀ c ∈ t, (esc.escapedWidth mode c == 1) = true) →
      t.flatMap (esc.push mode) = t := by
    intro t ht
    induction t with
    | nil => rfl
    | cons c t ih =>
      have hc : esc.escapedWidth mode c = 1 := by simpa using ht c (mem_cons_self ..)
      have hrest := ih fun d hd => ht d (mem_cons_of_mem c hd)
      rw [flatMap_cons, hrest, push, if_pos hc]
      rfl
  have hstart := hclean (s.takeWhile fun c => esc.escapedWidth mode c == 1) fun c hc => by
    have hpass := mem_takeWhile_imp hc
    exact hpass
  have hsplit := @List.takeWhile_append_dropWhile _ (fun c => esc.escapedWidth mode c == 1) s
  unfold escape
  dsimp only
  split
  next hnil =>
    rw [hnil, append_nil] at hsplit
    rw [hsplit] at hstart
    exact hstart.symm
  next =>
    rw [← hstart, ← flatMap_append, hsplit]

def text (esc : Escaper) (s : Text) : Text := esc.escape .text s

def bytes (esc : Escaper) (b : Bytes) : Text :=
  match Utf8.decode b with
  | some s => esc.text s
  | none => (Utf8.pieces b).flatMap fun p =>
    match p with
    | .char c => esc.push .text c
    | .invalid bad => bad.flatMap pushHex

def command (esc : Escaper) (s : Text) : Text := esc.escape .command s

def commandBytes (esc : Escaper) (b : Bytes) : Text :=
  match Utf8.decode b with
  | some s => esc.command s
  | none => (Utf8.pieces b).flatMap fun p =>
    match p with
    | .char c => esc.push .command c
    | .invalid bad => bad.flatMap pushHex

/-- Printed forms, each with its width, up to the first that does not fit. -/
def cutTo (width : Nat) : Nat → List (Nat × Text) → Text
  | _, [] => []
  | used, (w, shown) :: rest =>
    if used + w > width then [] else shown ++ cutTo width (used + w) rest

def commandForm (esc : Escaper) (c : Char) : Nat × Text :=
  (esc.escapedWidth .command c, esc.push .command c)

/-- An escape that does not fit whole is not started. -/
def commandTruncated (esc : Escaper) (s : Text) (width : Nat) : Text :=
  cutTo width 0 (s.map esc.commandForm)

def commandBytesTruncated (esc : Escaper) (b : Bytes) (width : Nat) : Text :=
  match Utf8.decode b with
  | some s => esc.commandTruncated s width
  | none => cutTo width 0 ((Utf8.pieces b).flatMap fun p =>
    match p with
    | .char c => [esc.commandForm c]
    | .invalid bad => bad.map fun byte => (4, pushHex byte))

end Escaper

end Lsof.Core
