import Lsof.Render.Common

/-! # `-F` output

A flat stream of a letter, a value and a terminator. The letters of a process
come first, then those of each of its files, each in one fixed order. Under
`-F0` the terminator is a NUL and a newline follows the last field of a set.
-/

namespace Lsof.Render

open Lsof.Basis Lsof.Core

/-- A field letter, and whether a bare `-F` selects it. -/
structure Field where
  id : Char
  default : Bool
  deriving DecidableEq, Repr

/-- The field table, in its order: every letter `-F` accepts. -/
def fieldTable : List Field :=
  [⟨'a', true⟩, ⟨'c', true⟩, ⟨'C', true⟩, ⟨'d', true⟩, ⟨'D', true⟩, ⟨'f', true⟩, ⟨'F', true⟩,
    ⟨'G', true⟩, ⟨'i', true⟩, ⟨'k', true⟩, ⟨'K', true⟩, ⟨'l', true⟩, ⟨'L', true⟩, ⟨'m', true⟩,
    ⟨'M', true⟩, ⟨'n', true⟩, ⟨'N', true⟩, ⟨'o', true⟩, ⟨'p', true⟩, ⟨'g', true⟩, ⟨'P', true⟩,
    ⟨'r', false⟩, ⟨'R', true⟩, ⟨'s', true⟩, ⟨'S', true⟩, ⟨'t', true⟩, ⟨'T', true⟩, ⟨'u', true⟩,
    ⟨'z', false⟩, ⟨'Z', false⟩, ⟨'0', true⟩]

def fieldIsDefault (c : Char) : Bool := fieldTable.any fun f => f.id == c && f.default

/-- Whether a selection has this letter; no selection is the default set. -/
def wants (only : Option (List Char)) (c : Char) : Bool :=
  match only with
  | none => fieldIsDefault c
  | some letters => letters.contains c

/-- The NUL that ends a field under `-F0`. -/
def nulChar : Char := Char.ofNat 0

structure FieldOpts where
  nul : Bool := false
  only : Option (List Char) := none
  tcpShow : TcpInfoFlags := {}
  esc : Escaper
  offsetDigits : BitVec 32 := defaultOffsetDigits
  fileFlags : FileFlags := .hex
  arch : Arch := .other

namespace FieldOpts

variable (o : FieldOpts)

def term : Char := if o.nul then nulChar else '\n'

def field (c : Char) (value : Option Text) : List (Char × Text) :=
  if wants o.only c then (value.map fun v => (c, v)).toList else []

/-- The fields of a process. `p` is the one that is always selected. -/
def procFields (p : Process) : List (Char × Text) :=
  ('p', Text.ofNat p.pid) ::
    (o.field 'K' (p.tid.map Text.ofNat) ++
    o.field 'M' (p.taskCommand.map o.esc.text) ++
    o.field 'g' (p.pgid.map Text.ofNat) ++
    o.field 'R' (p.ppid.map Text.ofNat) ++
    o.field 'c' (some (o.esc.bytes p.commandBytes)) ++
    o.field 'u' (p.uid.map fun uid => signedText (BitVec.ofNat 32 uid)) ++
    o.field 'L' (p.loginBytes.map o.esc.bytes))

def shownFlags (f : OpenFile) : Option Text :=
  ((f.fileFlags.map (BitVec.ofNat 32)).filter (FileFlags.shown · o.fileFlags)).map
    (FileFlags.text o.arch · o.fileFlags)

/-- The facts of a connection, each its own `T` field. -/
def tcpFields (f : OpenFile) : List (Char × Text) :=
  if wants o.only 'T' then
    match f.socket with
    | none => []
    | some sock =>
      (if o.tcpShow.state then
        (sock.shownState.map fun st => ('T', "ST=".toList ++ st.asStr)).toList else []) ++
      match sock.tcp with
      | none => []
      | some tcp =>
        (if o.tcpShow.queue then
          (tcp.recvQueue.map fun q => ('T', "QR=".toList ++ Text.ofNat q)).toList ++
            (tcp.sendQueue.map fun q => ('T', "QS=".toList ++ Text.ofNat q)).toList else []) ++
        if o.tcpShow.window then
          (tcp.recvWindow.map fun w => ('T', "WR=".toList ++ Text.ofNat w)).toList else []
  else []

/-- The fields of a file. Access and lock are blank where there is none, so that
every set has them; NODE is an inode or a protocol. -/
def fileFields (f : OpenFile) : List (Char × Text) :=
  o.field 'f' (some f.fd.code) ++
  o.field 'a' (some [(accessCode f).getD ' ']) ++
  o.field 'l' (some [(lockCode f).getD ' ']) ++
  o.field 't' (if f.fileType.hasCode then some f.fileType.code else none) ++
  o.field 'G' (o.shownFlags f) ++
  o.field 'd' (deviceText f) ++
  o.field 'D' (f.fsDevice.map fun dev => hexText dev.toNat) ++
  o.field 'r' (f.rdev.map fun rdev => hexText rdev.val.toNat) ++
  o.field 's' (f.size.map Text.ofNat) ++
  o.field 'o' (f.offset.map (offsetText · o.offsetDigits)) ++
  o.field 'i' (if nodeIsProtocol f then none else f.node) ++
  o.field 'k' (f.links.map Text.ofNat) ++
  o.field 'P' (if nodeIsProtocol f then f.node else none) ++
  o.field 'n' (if f.name.isEmpty then none else some (f.printedName o.esc)) ++
  o.tcpFields f

def push (out : Text) (field : Char × Text) : Text := out ++ field.1 :: (field.2 ++ [o.term])

/-- Close a set: under `-F0` its last field keeps its NUL and a newline follows. -/
def endSet (out : Text) : Text :=
  if o.nul && out.getLast? == some nulChar then out ++ ['\n'] else out

def pushSet (out : Text) (fields : List (Char × Text)) : Text := o.endSet (fields.foldl o.push out)

def pushProcess (out : Text) (p : Process) : Text :=
  p.files.foldl (fun out f => o.pushSet out (o.fileFields f)) (o.pushSet out (o.procFields p))

def render (procs : List Process) : Text := procs.foldl o.pushProcess []

end FieldOpts

end Lsof.Render
