import Lsof.Core.Codes

/-! # What one row shows

The values the renderers share, decided once for each of them: an offset's
form, the open flags by name or in hexadecimal, and which of a row's cells
apply to it.
-/

namespace Lsof.Render

open Lsof.Basis Lsof.Core

structure TcpInfoFlags where
  state : Bool := true
  queue : Bool := false
  window : Bool := false
  options : Bool := false
  deriving DecidableEq, Repr

def TcpInfoFlags.any (t : TcpInfoFlags) : Bool := t.state || t.queue || t.window || t.options

def defaultOffsetDigits : BitVec 32 := 8

/-- `0t` and decimal, or hexadecimal once that is longer than the limit. The sum
wraps, so that past its end every offset is in hexadecimal, where zero has no
`0x`. -/
def offsetText (offset : Nat) (digits : BitVec 32) : Text :=
  let dec := "0t".toList ++ Text.ofNat offset
  if digits ≠ 0 ∧ (dec.length : Int) > (digits + 2).toInt then
    if offset = 0 then "0".toList else hexText offset
  else dec

/-- Whether NODE is the row's protocol and not its inode. -/
def nodeIsProtocol (f : OpenFile) : Bool := f.socket.isSome && f.fileType != .unix

def deviceText (f : OpenFile) : Option Text :=
  match f.fsDevice with
  | none => f.device
  | some _ => none

def accessCode (f : OpenFile) : Option Char :=
  match f.access with
  | .unknown => none
  | mode => some mode.code

def lockCode (f : OpenFile) : Option Char := f.lock.map LockKind.code

/-- The socket of a row that has a state and queues to show. -/
def tcpInfoSocket (f : OpenFile) : Option SocketInfo :=
  f.socket.filter fun sock =>
    sock.protocol == .tcp || sock.protocol == .udp || sock.protocol == .udpLite ||
      f.fileType == .unix

inductive FileFlags where
  | off
  | names
  | hex
  deriving DecidableEq, Repr

/-- The processor the binary was built for, by which three flags have other
numbers. -/
inductive Arch where
  | aarch64
  | other
  deriving DecidableEq, Repr

def oDirect : Arch → BitVec 32
  | .aarch64 => 0o200000
  | .other => 0o40000

def oDirectory : Arch → BitVec 32
  | .aarch64 => 0o40000
  | .other => 0o200000

def oNofollow : Arch → BitVec 32
  | .aarch64 => 0o100000
  | .other => 0o400000

def largefile : BitVec 32 := 0o100000

def flagNames (arch : Arch) : List (BitVec 32 × Text) :=
  [(0o1, "W".toList), (0o2, "RW".toList), (0o100, "CR".toList), (0o200, "EXCL".toList),
    (0o400, "NTTY".toList), (0o1000, "TR".toList), (0o2000, "AP".toList), (0o4000, "ND".toList),
    (0o4010000, "SYN".toList), (0o20000, "ASYN".toList), (oDirect arch, "DIR".toList),
    (oDirectory arch, "DTY".toList), (oNofollow arch, "NFLK".toList), (0o1000000, "NATM".toList),
    (0o10000, "DSYN".toList), (0o4010000, "RSYN".toList), (largefile, "LG".toList),
    (0o2000000, "CX".toList), (0o10000000, "PATH".toList),
    (0o20000000 ||| oDirectory arch, "TMPF".toList)]

def FileFlags.shown (flags : BitVec 32) : FileFlags → Bool
  | .off => false
  | .names => flags != 0
  | .hex => true

def joinPart (out part : Text) : Text := (if out.isEmpty then [] else out ++ [',']) ++ part

def nameFlag (acc : Text × BitVec 32) (entry : BitVec 32 × Text) : Text × BitVec 32 :=
  if acc.2 &&& entry.1 ≠ 0 then (joinPart acc.1 entry.2, acc.2 &&& ~~~entry.1) else acc

/-- By name, with what is left over in hexadecimal; or all of it in hexadecimal. -/
def FileFlags.text (arch : Arch) (flags : BitVec 32) (style : FileFlags) : Text :=
  let hex := style == .hex
  let named := if hex then ([], flags) else (flagNames arch).foldl nameFlag ([], flags)
  let shown := if named.2 ≠ 0 ∨ hex then joinPart named.1 (hexText named.2.toNat) else named.1
  if hex then shown ++ ";0x0".toList else shown

end Lsof.Render
