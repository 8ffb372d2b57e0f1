import Lsof.Basis.Lines
import Lsof.Render.Common

/-! # The table

Two passes over the rows: the first sizes every column, the second prints each
line to those sizes. COMMAND and TASKCMD are cut to widths of their own first;
NAME is last and never padded.
-/

namespace Lsof.Render

open Lsof.Basis Lsof.Core

/-- The facts of a connection after NAME, in one pair of parentheses. The blank
before them is there even where there is none to show. -/
def tcpSuffix (f : OpenFile) (show_ : TcpInfoFlags) : Text :=
  if !show_.any then []
  else match tcpInfoSocket f with
    | none => []
    | some sock =>
      let state := if show_.state then (sock.shownState.map SockState.asStr).toList else []
      let more := match sock.tcp with
        | none => []
        | some tcp =>
          (if show_.window then
            (tcp.recvWindow.map fun w => "Win=".toList ++ Text.ofNat w).toList else []) ++
          if show_.queue then
            (tcp.recvQueue.map fun q => "QR=".toList ++ Text.ofNat q).toList ++
              (tcp.sendQueue.map fun q => "QS=".toList ++ Text.ofNat q).toList else []
      let parts := state ++ more
      ' ' :: if parts.isEmpty then [] else '(' :: ((parts.intersperse [' ']).flatten ++ [')'])

/-- Only a numbered descriptor shows its access. -/
def fdAccess (f : OpenFile) : Char :=
  match f.fd, f.access with
  | .handle _, .unknown => ' '
  | .handle _, mode => mode.code
  | _, _ => ' '

/-- The access and lock letters after the descriptor. A lock never stands in the
place of the access. -/
def fdMode (f : OpenFile) : Text :=
  match f.lock with
  | none => [fdAccess f, ' ']
  | some lock => [if fdAccess f = ' ' then '-' else fdAccess f, lock.code]

/-- The unit of a size and its letter: the walk over powers of 1024 stops at the
first above the size, or at the last letter. -/
def sizeUnit (size : Nat) : List Char → Nat → Char × Nat
  | [], unit => ('E', unit)
  | letter :: rest, unit => if size < unit * 1024 then (letter, unit) else sizeUnit size rest (unit * 1024)

/-- A number of 1024ths to one decimal, ties to even. -/
def tenths (n : Nat) : Text :=
  let scaled := n * 10
  let down := scaled / 1024
  let odd := scaled % 1024
  let rounded := if 512 < odd ∨ (odd = 512 ∧ down % 2 = 1) then down + 1 else down
  Text.ofNat (rounded / 10) ++ '.' :: Text.ofNat (rounded % 10)

/-- `-H`: the division is by whole numbers first, and the letter is chosen
before the rounding. -/
def humanSize (size : Nat) : Text :=
  if size < 1024 then Text.ofNat size ++ ['B']
  else
    let unit := sizeUnit size ['K', 'M', 'G', 'T', 'P'] 1024
    tenths (size / (unit.2 / 1024)) ++ [unit.1]

inductive SizeOff where
  | both
  | offset
  | size
  deriving DecidableEq, Repr

def SizeOff.header : SizeOff → Text
  | .both => "SIZE/OFF".toList
  | .offset => "OFFSET".toList
  | .size => "SIZE".toList

def sizeOffCell (f : OpenFile) (mode : SizeOff) (human : Bool) (digits : BitVec 32) : Text :=
  let size := if mode ≠ .offset then
    f.size.map fun s => if human then humanSize s else Text.ofNat s else none
  let offset := if mode ≠ .size then f.offset.map (offsetText · digits) else none
  (size.or offset).getD []

/-- A uid with no login, to exactly eight columns. -/
def numericUser (uid : Nat) : Text := (Text.padLeft 8 (Text.ofNat uid)).take 8

structure Col where
  title : Text
  right : Bool
  /-- Whether the title counts toward the width. -/
  seeded : Bool := true
  /-- Printed straight after the cell before it. -/
  glued : Bool := false
  deriving DecidableEq, Repr

def Col.rightAligned (title : Text) : Col := { title, right := true }

def Col.leftAligned (title : Text) : Col := { title, right := false }

def fdName : Col := { title := "FD".toList, right := true, seeded := false }

def fdModeCol : Col := { title := [], right := false, seeded := false, glued := true }

/-- Every cell but the last padded to its column's width: by bytes where it is
right-aligned, by characters where it is not. -/
def emitLine (cells : List Text) (widths : List Nat) (cols : List Col) : Text :=
  (cells.zip (widths.zip cols)).zipIdx.flatMap (fun entry =>
    let (cell, width, col) := entry.1
    (if 0 < entry.2 ∧ col.glued = false then [' '] else []) ++
      if entry.2 = cols.length - 1 then cell
      else if col.right then List.replicate (width - cell.byteLen) ' ' ++ cell
      else cell ++ List.replicate (width - cell.length) ' ') ++ ['\n']

structure TableOpts where
  terse : Bool := false
  showPpid : Bool := false
  showPgid : Bool := false
  showOffset : Bool := false
  showSize : Bool := false
  offsetDigits : BitVec 32 := defaultOffsetDigits
  humanSize : Bool := false
  showLinks : Bool := false
  fileFlags : FileFlags := .off
  commandWidth : Option Nat := some 9
  tcpShow : TcpInfoFlags := {}
  esc : Escaper
  host : Host := .linux
  arch : Arch := .other

namespace TableOpts

variable (o : TableOpts)

/-- A length as `+c` caps it. -/
def capped (length : Nat) : Nat :=
  match o.commandWidth with
  | none => length
  | some n => min length n

def cmdCut (procs : List Process) : Nat :=
  procs.foldl (fun w p => max w (o.capped (o.esc.commandBytes p.commandBytes).byteLen)) 7

def taskCut (procs : List Process) : Nat :=
  procs.foldl (fun w p => match p.taskCommand with
    | some c => max w (o.capped (o.esc.command c).byteLen)
    | none => w) 7

def showTasks (procs : List Process) : Bool := procs.any fun p => p.tid.isSome

def sizeOff : SizeOff :=
  if o.showOffset then .offset else if o.showSize then .size else .both

def showFlags : Bool := o.fileFlags != .off

def cols (tasks : Bool) : List Col :=
  [Col.leftAligned "COMMAND".toList, Col.rightAligned "PID".toList] ++
  (if tasks then [Col.rightAligned "TID".toList, Col.leftAligned "TASKCMD".toList] else []) ++
  (if o.showPpid then [Col.rightAligned "PPID".toList] else []) ++
  (if o.showPgid then [Col.rightAligned "PGID".toList] else []) ++
  [Col.rightAligned "USER".toList, fdName, fdModeCol, Col.rightAligned "TYPE".toList] ++
  (if o.showFlags then [Col.rightAligned "FILE-FLAG".toList] else []) ++
  [Col.rightAligned "DEVICE".toList, Col.rightAligned o.sizeOff.header] ++
  (if o.showLinks then [Col.rightAligned "NLINK".toList] else []) ++
  [Col.rightAligned "NODE".toList, Col.leftAligned "NAME".toList]

def userCell (p : Process) : Text :=
  match p.loginBytes, p.uid with
  | some login, _ => o.esc.bytes login
  | none, some uid => numericUser uid
  | none, none => []

def flagsCell (f : OpenFile) : Text :=
  match f.fileFlags.map (BitVec.ofNat 32) with
  | some g => if FileFlags.shown g o.fileFlags then FileFlags.text o.arch g o.fileFlags else []
  | none => []

def rowFor (procs : List Process) (p : Process) (f : OpenFile) : List Text :=
  [o.esc.commandBytesTruncated p.commandBytes (o.cmdCut procs), Text.ofNat p.pid] ++
  (if showTasks procs then
    [(p.tid.map Text.ofNat).getD [],
      (p.taskCommand.map (o.esc.commandTruncated · (o.taskCut procs))).getD []] else []) ++
  (if o.showPpid then [(p.ppid.map Text.ofNat).getD []] else []) ++
  (if o.showPgid then [(p.pgid.map Text.ofNat).getD []] else []) ++
  [o.userCell p, f.fd.columnCode o.host, fdMode f, f.fileType.code] ++
  (if o.showFlags then [o.flagsCell f] else []) ++
  [f.device.getD [], sizeOffCell f o.sizeOff o.humanSize o.offsetDigits] ++
  (if o.showLinks then [(f.links.map fun n => ' ' :: Text.ofNat n).getD []] else []) ++
  [f.node.getD [], f.printedName o.esc ++ tcpSuffix f o.tcpShow]

/-- The row of a process that has no file to show. -/
def blank : OpenFile := { fd := .unknown, fileType := .unknown }

def rowsOf (procs : List Process) : List (Process × OpenFile) :=
  procs.flatMap fun p => (if p.files.isEmpty then [blank] else p.files).map fun f => (p, f)

def rows (procs : List Process) : List (List Text) :=
  (rowsOf procs).map fun row => o.rowFor procs row.1 row.2

/-- What each column is sized to: its title where that counts, and every cell. -/
def widths (procs : List Process) : List Nat :=
  (o.rows procs).foldl (fun ws row => ws.zipWith (fun w cell => max w cell.byteLen) row)
    ((o.cols (showTasks procs)).map fun c => if c.seeded then c.title.byteLen else 0)

/-- `-t`: each PID once, in ascending order. -/
def renderTerse (procs : List Process) : Text :=
  (((procs.map Process.pid).mergeSort (· ≤ ·)).destutter (· ≠ ·)).flatMap fun pid => Text.ofNat pid ++ ['\n']

/-- Nothing at all where no row is printed, not even the titles. -/
def render (procs : List Process) : Text :=
  if o.terse then renderTerse procs
  else if (rowsOf procs).isEmpty then []
  else
    let cols := o.cols (showTasks procs)
    emitLine (cols.map Col.title) (o.widths procs) cols ++
      (o.rows procs).flatMap fun row => emitLine row (o.widths procs) cols

end TableOpts

end Lsof.Render
