import Lsof.Core.Name

/-! # The codes of a row's cells

What each cell of the model is called in the listing, and the few values every
renderer takes from a row in one way.
-/

namespace Lsof.Core

open Lsof.Basis

def hexText (n : Nat) : Text := "0x".toList ++ Nat.toDigits 16 n

/-- A number of 32 bits as the C's `(int)` prints it. -/
def signedText (n : BitVec 32) : Text :=
  if n.msb then '-' :: Text.ofNat (2 ^ 32 - n.toNat) else Text.ofNat n.toNat

def AccessMode.code : AccessMode → Char
  | .read => 'r'
  | .write => 'w'
  | .readWrite => 'u'
  | .unknown => '-'

def LockKind.code : LockKind → Char
  | .readPartial => 'r'
  | .readFull => 'R'
  | .writePartial => 'w'
  | .writeFull => 'W'

namespace FileType

def code : FileType → Text
  | regular => "REG".toList
  | dir => "DIR".toList
  | chr => "CHR".toList
  | block => "BLK".toList
  | fifo => "FIFO".toList
  | pipe => "PIPE".toList
  | ipv4 => "IPv4".toList
  | ipv6 => "IPv6".toList
  | unix => "unix".toList
  | key => "KEY".toList
  | event => "EVT".toList
  | mutant => "MUT".toList
  | section_ => "SECT".toList
  | process => "PROC".toList
  | thread => "THRD".toList
  | token => "TOKN".toList
  | other code => code
  | exempt kind => "UNKN".toList ++ kind
  | socket code => code
  | unknown => "unknown".toList
  | noType => "0000".toList

def hasCode (t : FileType) : Bool := t != .noType

end FileType

def TcpState.asStr : TcpState → Text
  | .closed => "CLOSED".toList
  | .listen => "LISTEN".toList
  | .synSent => "SYN_SENT".toList
  | .synReceived => "SYN_RCVD".toList
  | .established => "ESTABLISHED".toList
  | .finWait1 => "FIN_WAIT1".toList
  | .finWait2 => "FIN_WAIT2".toList
  | .closeWait => "CLOSE_WAIT".toList
  | .closing => "CLOSING".toList
  | .lastAck => "LAST_ACK".toList
  | .timeWait => "TIME_WAIT".toList
  | .deleteTcb => "DELETE_TCB".toList
  | .close => "CLOSE".toList
  | .synRecv => "SYN_RECV".toList
  | .finWaitOne => "FIN_WAIT_1".toList
  | .finWaitTwo => "FIN_WAIT_2".toList
  | .unknown => "UNKNOWN".toList

def UnixState.asStr : UnixState → Text
  | .listen => "LISTEN".toList
  | .unconnected => "UNCONNECTED".toList
  | .connecting => "CONNECTING".toList
  | .connected => "CONNECTED".toList
  | .disconnecting => "DISCONNECTING".toList
  | .unknown => "UNKNOWN".toList

def SockState.asStr : SockState → Text
  | .tcp s => s.asStr
  | .unix s => s.asStr

def SocketInfo.shownState (s : SocketInfo) : Option SockState :=
  match s.protocol, s.state with
  | .udpLite, _ => none
  | .udp, some (.tcp t) => if t = .established then some (.tcp t) else none
  | _, state => state

def Process.loginBytes (p : Process) : Option Bytes :=
  (p.rawNames.bind RawNames.login).or (p.user.map Text.bytes)

/-- NAME as the table and `-F n` print it. An addition that is marked as printed
is left as it is only where the mark falls on a character boundary and nothing
after it would reach a terminal raw. -/
def OpenFile.printedName (esc : Escaper) (f : OpenFile) : Text :=
  match (f.nameAddition.filter NameAddition.printed).bind (fun a => Text.splitAt? a.base f.name) with
  | none => esc.text f.name
  | some (text, tail) =>
    if tail.any isUnprintableUnicode then esc.text f.name else esc.text text ++ tail

end Lsof.Core
