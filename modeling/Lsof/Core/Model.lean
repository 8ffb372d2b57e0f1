import Lsof.Basis.Text

/-! # The data model: processes and their open files

The rows of a listing as the core holds them. `Process` is the C's `lproc` and
`OpenFile` its `lfile`. Numbers the program only compares are natural numbers;
a device, an inode and a device node's number are words, since the program
takes them apart by bits.
-/

namespace Lsof.Core

open Lsof.Basis

/-- The platform the binary was built for, which the source asks with `cfg!`. -/
inductive Host where
  | linux
  | windows
  | freebsd
  deriving DecidableEq, Repr

/-- What kind of slot an open file occupies: the FD column. -/
inductive FdType where
  | handle (n : Nat)
  | cwd
  | root
  | txt
  | mem
  | deleted
  | task
  | noFd
  | ctty
  | jail
  | unknown
  deriving DecidableEq, Repr

namespace FdType

def code : FdType → Text
  | handle n => Text.ofNat n
  | cwd => "cwd".toList
  | root => "rtd".toList
  | txt => "txt".toList
  | mem => "mem".toList
  | deleted => "DEL".toList
  | task => "task".toList
  | noFd => "NOFD".toList
  | ctty => "ctty".toList
  | jail => "jld".toList
  | unknown => "unk".toList

/-- The FD as the table's column and the `-E` holder text print it: a descriptor
of 10000 or more is `*` and its last three digits, but not on Windows. -/
def columnCode (host : Host) : FdType → Text
  | handle n =>
    if 10000 ≤ n ∧ host ≠ .windows then
      let last := Text.ofNat (n % 1000)
      '*' :: (List.replicate (3 - last.length) '0' ++ last)
    else (handle n).code
  | fd => fd.code

end FdType

inductive AccessMode where
  | read
  | write
  | readWrite
  | unknown
  deriving DecidableEq, Repr

inductive LockKind where
  | readPartial
  | readFull
  | writePartial
  | writeFull
  deriving DecidableEq, Repr

/-- The kind of object an open file refers to: the TYPE column. -/
inductive FileType where
  | regular
  | dir
  | chr
  | block
  | fifo
  | pipe
  | ipv4
  | ipv6
  | unix
  | key
  | event
  | mutant
  | section_
  | process
  | thread
  | token
  | other (code : Text)
  | unknown
  | exempt (kind : Text)
  | socket (code : Text)
  | noType
  deriving DecidableEq, Repr

inductive Protocol where
  | tcp
  | udp
  | udpLite
  | other (name : Text)
  deriving DecidableEq, Repr

/-- A TCP connection state, by the name the platform's own lsof uses for it. -/
inductive TcpState where
  | closed
  | listen
  | synSent
  | synReceived
  | established
  | finWait1
  | finWait2
  | closeWait
  | closing
  | lastAck
  | timeWait
  | deleteTcb
  | close
  | synRecv
  | finWaitOne
  | finWaitTwo
  | unknown
  deriving DecidableEq, Repr

def linuxTcpStates : List TcpState :=
  [.closed, .established, .synSent, .synRecv, .finWait1, .finWait2, .timeWait, .close,
    .closeWait, .lastAck, .listen, .closing]

def windowsTcpStates : List TcpState :=
  [.closed, .listen, .synSent, .synReceived, .established, .finWait1, .finWait2, .closeWait,
    .closing, .lastAck, .timeWait, .deleteTcb]

def freebsdTcpStates : List TcpState :=
  [.closed, .listen, .synSent, .synReceived, .established, .closeWait, .finWaitOne, .closing,
    .lastAck, .finWaitTwo, .timeWait]

/-- The names `-s TCP:` accepts on this platform. -/
def tcpStateTable : Host → List TcpState
  | .windows => windowsTcpStates
  | .freebsd => freebsdTcpStates
  | .linux => linuxTcpStates

inductive UnixState where
  | listen
  | unconnected
  | connecting
  | connected
  | disconnecting
  | unknown
  deriving DecidableEq, Repr

inductive SockState where
  | tcp (s : TcpState)
  | unix (s : UnixState)
  deriving DecidableEq, Repr

inductive IpAddr where
  | v4 (bits : BitVec 32)
  | v6 (bits : BitVec 128)
  deriving DecidableEq, Repr

def IpAddr.isUnspecified : IpAddr → Bool
  | v4 bits => bits == 0
  | v6 bits => bits == 0

structure SocketAddr where
  ip : IpAddr
  port : Nat
  deriving DecidableEq, Repr

/-- What a file is, as the C compares it: the device of the file system that
holds it, and its inode. -/
structure FileId where
  dev : BitVec 64
  ino : BitVec 64
  deriving DecidableEq, Repr

/-- The path an AF_UNIX socket is bound to, absent where it is not UTF-8, and
the identity of the socket file at that path. -/
structure BoundPath where
  path : Option Text := none
  id : Option FileId := none
  deriving DecidableEq, Repr

structure TcpExtInfo where
  recvWindow : Option Nat := none
  recvQueue : Option Nat := none
  sendQueue : Option Nat := none
  deriving DecidableEq, Repr

structure SocketInfo where
  protocol : Protocol
  local_ : Option SocketAddr := none
  remote : Option SocketAddr := none
  state : Option SockState := none
  tcp : Option TcpExtInfo := none
  bound : Option BoundPath := none
  deriving DecidableEq, Repr

/-- The state `-s TCP:` tests a socket by, if it is one it tests at all. -/
def SocketInfo.filterState (s : SocketInfo) : Option TcpState :=
  match s.state with
  | some (.tcp t) => some t
  | _ => none

/-- Where NAME's base ends and its addition begins, and whether the addition is
already in printed form. The base's length is kept in fifteen bits with one
added, so 32,766 bytes is the longest base that can be recorded. -/
structure NameAddition where
  base : Nat
  printed : Bool
  fits : base < 32767
  deriving DecidableEq, Repr

structure OpenFile where
  fd : FdType
  access : AccessMode := .unknown
  fileType : FileType
  name : Text := []
  device : Option Text := none
  size : Option Nat := none
  offset : Option Nat := none
  node : Option Text := none
  links : Option Nat := none
  lock : Option LockKind := none
  fsDevice : Option (BitVec 64) := none
  rdev : Option { n : BitVec 32 // n ≠ 0 } := none
  fileFlags : Option Nat := none
  socket : Option SocketInfo := none
  nameAddition : Option NameAddition := none
  deriving DecidableEq, Repr

/-- A command or login name that is not UTF-8, kept as the bytes it is. -/
structure RawNames where
  command : Option Bytes := none
  login : Option Bytes := none
  deriving DecidableEq, Repr

structure Process where
  pid : Nat
  ppid : Option Nat := none
  command : Text := []
  user : Option Text := none
  tid : Option Nat := none
  taskCommand : Option Text := none
  uid : Option Nat := none
  pgid : Option Nat := none
  files : List OpenFile := []
  endpointPeer : Bool := false
  unlisted : Bool := false
  rawNames : Option RawNames := none
  deriving DecidableEq, Repr

def Process.commandBytes (p : Process) : Bytes :=
  (p.rawNames.bind RawNames.command).getD (Text.bytes p.command)

def Process.header (p : Process) : Process := { p with files := [] }

namespace OpenFile

def isInternet (f : OpenFile) : Bool :=
  f.socket.isSome && (f.fileType == .ipv4 || f.fileType == .ipv6)

/-- A row `-e` exempted: never `stat`ed, so no argument names it. -/
def isExempt (f : OpenFile) : Bool :=
  match f.fileType with
  | .exempt _ => true
  | _ => false

/-- A socket's row, whether a table describes it or none does. -/
def isSocket (f : OpenFile) : Bool :=
  f.socket.isSome || match f.fileType with
    | .socket _ => true
    | _ => false

/-- The file system a file-system argument finds this row on. -/
def searchedFsDevice (f : OpenFile) : Option (BitVec 64) :=
  if f.isExempt || f.isSocket then none else f.fsDevice

/-- What a path argument finds this row by: its file system's device and the
inode its NODE cell shows. -/
def fileId (f : OpenFile) : Option FileId := do
  let dev ← f.searchedFsDevice
  let cell ← f.node
  let ino ← Text.parseUnsigned 64 cell
  return { dev, ino }

def boundPath (f : OpenFile) : Option BoundPath := f.socket.bind SocketInfo.bound

end OpenFile

end Lsof.Core
