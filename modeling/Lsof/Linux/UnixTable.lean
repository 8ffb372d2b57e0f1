import Lsof.Basis.Lines
import Lsof.Core.Model

/-! # The table of UNIX sockets

`/proc/net/unix` as the kernel prints it and as the backend reads it. A bound
path is printed as the bytes it is, so a path with a newline in it runs over
several lines of the table. A path that is not UTF-8 is shown with replacement
characters and kept as its own bytes beside the entry.
-/

namespace Lsof.Linux

open Lsof.Basis Lsof.Core

structure SocketEntry where
  fileType : FileType
  info : Option SocketInfo
  path : Option Text
  device : Option Text
  node : Text
  name : Option Text
  typeSuffix : Option Text
  deriving DecidableEq, Repr

structure SocketTable where
  byInode : BitVec 64 → Option SocketEntry := fun _ => none
  rawPaths : BitVec 64 → Option Bytes := fun _ => none

def unixKind : Option Nat → Text
  | some 1 => "STREAM".toList
  | some 2 => "DGRAM".toList
  | some 5 => "SEQPACKET".toList
  | _ => "UNKNOWN".toList

/-- The `type=` tail of a UNIX socket's NAME. -/
def unixSuffix (ty : Text) : Text := "type=".toList ++ unixKind (Text.parseHex 32 ty)

/-- A listening socket is told by its flags, which have to be exactly those. -/
def unixStateOf (flags st : Option Nat) : UnixState :=
  if flags = some 0x10000 then .listen
  else match st with
    | some 1 => .unconnected
    | some 2 => .connecting
    | some 3 => .connected
    | some 4 => .disconnecting
    | _ => .unknown

def unixState (flags st : Text) : UnixState :=
  unixStateOf (Text.parseHex 32 flags) (Text.parseHex 32 st)

def unixFlags : Nat := 3
def unixType : Nat := 4
def unixStateColumn : Nat := 5
def unixInode : Nat := 6
def unixPath : Nat := 7

def unixEntry (f : List Text) (inode : BitVec 64) : SocketEntry :=
  { fileType := .unix
    info := some
      { protocol := .other "unix".toList
        state := some (.unix (unixState (f.getD unixFlags []) (f.getD unixStateColumn []))) }
    path := f[unixPath]?
    device := some ("0x".toList ++ Text.trimEndMatches ':' (f.getD 0 []))
    node := Text.ofNat inode.toNat
    name := none
    typeSuffix := some (unixSuffix (f.getD unixType [])) }

def lineEntry (line : Text) : Option (BitVec 64 × SocketEntry) :=
  let f := Text.fieldsWithRest line (unixPath + 1)
  if f.length < unixInode + 1 then none
  else (Text.parseUnsigned 64 (f.getD unixInode [])).map (fun inode => (inode, unixEntry f inode))

def parseLine (tbl : SocketTable) (line : Text) : SocketTable :=
  match lineEntry line with
  | some (inode, entry) => { tbl with byInode := update tbl.byInode inode entry }
  | none => tbl

def parseUnix (tbl : SocketTable) (text : Text) : SocketTable :=
  (text.lines.drop 1).foldl parseLine tbl

/-- The bytes of the path of a line that is not UTF-8. Every column before it is
ASCII, or the line is left alone. -/
def lineRaw (line : Bytes) : Option (BitVec 64 × Bytes) :=
  if (Utf8.decode line).isSome then none
  else
    let shown := Utf8.decodeLossy line
    let f := Text.fieldsWithRest shown (unixPath + 1)
    match f[unixInode]?.bind (Text.parseUnsigned 64), f[unixPath]? with
    | some inode, some path =>
      if path.byteLen ≤ shown.byteLen then
        let start := shown.byteLen - path.byteLen
        if start ≤ line.length && (line.take start).all (fun b => decide (b < 0x80)) then
          some (inode, line.drop start)
        else none
      else none
    | _, _ => none

def keepRawPath (tbl : SocketTable) (line : Bytes) : SocketTable :=
  match lineRaw line with
  | some (inode, path) =>
    if (tbl.byInode inode).isSome then { tbl with rawPaths := update tbl.rawPaths inode path }
    else tbl
  | none => tbl

def keepRawUnixPaths (tbl : SocketTable) (raw : Bytes) : SocketTable :=
  ((rawLines raw).drop 1).foldl keepRawPath tbl

def parseUnixBytes (tbl : SocketTable) (bytes : Bytes) : SocketTable :=
  match Utf8.decode bytes with
  | some text => parseUnix tbl text
  | none => keepRawUnixPaths (parseUnix tbl (Utf8.decodeLossy bytes)) bytes

/-- A socket as the kernel lists it. Its path is as the table shows it, an
abstract name's zero bytes as `@`. -/
structure KernelSocket where
  address : BitVec 64
  refCount : BitVec 32
  flags : BitVec 32
  type : BitVec 16
  state : BitVec 8
  inode : BitVec 64
  path : Option Bytes
  deriving DecidableEq, Repr

def tableHeader : Text := "Num       RefCount Protocol Flags    Type St Inode Path".toList

namespace KernelSocket

variable (s : KernelSocket)

def addressColumn : Text := Text.hexPad Text.lowerHex 16 s.address.toNat ++ [':']

/-- The columns before the path: `%pK: %08X %08X %08X %04X %02X %5lu`. -/
def columns : Text :=
  s.addressColumn ++ ' ' :: (Text.hexPad Text.upperHex 8 s.refCount.toNat ++ ' ' ::
    (Text.hexPad Text.upperHex 8 0 ++ ' ' :: (Text.hexPad Text.upperHex 8 s.flags.toNat ++ ' ' ::
      (Text.hexPad Text.upperHex 4 s.type.toNat ++ ' ' ::
        (Text.hexPad Text.upperHex 2 s.state.toNat ++ ' ' ::
          Text.padLeft 5 (Text.ofNat s.inode.toNat))))))

def line : Bytes :=
  s.columns.bytes ++ match s.path with
    | some path => 0x20 :: path
    | none => []

end KernelSocket

def kernelTable (sockets : List KernelSocket) : Bytes :=
  tableHeader.bytes ++ 0x0A :: sockets.flatMap (fun s => s.line ++ [0x0A])

end Lsof.Linux
