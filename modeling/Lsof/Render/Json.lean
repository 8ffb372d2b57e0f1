import Lsof.Render.Fields
import Lsof.Basis.Json

/-! # JSON output

`-J` writes one document and `-j` one object for each file. Both are written by
hand, member by member, with a flag that says whether a comma is due.
-/

namespace Lsof.Render

open Lsof.Basis Lsof.Core

structure JsonOpts where
  only : Option (List Char) := none
  tcpShow : TcpInfoFlags := {}
  fileFlags : FileFlags := .names
  arch : Arch := .other
  numericIds : Bool := false
  version : Text

def jsonChar (c : Char) : Text :=
  if c = '"' then ['\\', '"']
  else if c = '\\' then ['\\', '\\']
  else if c = '\x08' then ['\\', 'b']
  else if c = '\x0c' then ['\\', 'f']
  else if c = '\n' then ['\\', 'n']
  else if c = '\r' then ['\\', 'r']
  else if c = '\t' then ['\\', 't']
  else if isUnprintableUnicode c then '\\' :: 'u' :: Text.hexPad Text.lowerHex 4 c.toNat
  else [c]

def pushStr (out s : Text) : Text := out ++ '"' :: (s.flatMap jsonChar ++ ['"'])

structure Members where
  out : Text
  first : Bool := true

namespace Members

def new (out : Text) : Members := { out }

def key (m : Members) (k : Text) : Members :=
  { out := (if m.first then m.out else m.out ++ [',']) ++ '"' :: (k ++ ['"', ':']), first := false }

def str (m : Members) (k v : Text) : Members :=
  let m := m.key k
  { m with out := pushStr m.out v }

def num (m : Members) (k v : Text) : Members :=
  let m := m.key k
  { m with out := m.out ++ v }

def strIf (m : Members) (wanted : Bool) (k : Text) (v : Option Text) : Members :=
  if wanted then
    match v with
    | some v => m.str k v
    | none => m
  else m

def numIf (m : Members) (wanted : Bool) (k : Text) (v : Option Text) : Members :=
  if wanted then
    match v with
    | some v => m.num k v
    | none => m
  else m

end Members

namespace JsonOpts

variable (o : JsonOpts)

def want (c : Char) : Bool := wants o.only c

def procMembers (m : Members) (p : Process) : Members :=
  let m := m.num "pid".toList (Text.ofNat p.pid)
  let m := m.numIf (o.want 'K') "tid".toList (p.tid.map Text.ofNat)
  let m := m.strIf (o.want 'M') "task_cmd".toList p.taskCommand
  let m := m.numIf (o.want 'g') "pgid".toList (p.pgid.map Text.ofNat)
  let m := m.numIf (o.want 'R') "ppid".toList (p.ppid.map Text.ofNat)
  let m := m.strIf (o.want 'c') "command".toList (some p.command)
  let m := m.numIf (o.want 'u') "uid".toList (p.uid.map fun uid => signedText (BitVec.ofNat 32 uid))
  m.strIf (o.want 'L' && !o.numericIds) "login".toList p.user

/-- The members of `tcp_info`. A UNIX socket's state is never among them. -/
def tcpMembers (m : Members) (f : OpenFile) (sock : SocketInfo) : Members :=
  let m := m.strIf (o.tcpShow.state && f.fileType != .unix) "state".toList
    (sock.shownState.map SockState.asStr)
  match sock.tcp with
  | none => m
  | some tcp =>
    let m := m.numIf o.tcpShow.queue "recv_queue".toList (tcp.recvQueue.map Text.ofNat)
    let m := m.numIf o.tcpShow.queue "send_queue".toList (tcp.sendQueue.map Text.ofNat)
    m.numIf o.tcpShow.window "read_window".toList (tcp.recvWindow.map Text.ofNat)

def tcpInfo (m : Members) (f : OpenFile) : Members :=
  if o.want 'T' then
    match tcpInfoSocket f with
    | some sock =>
      let t := m.key "tcp_info".toList
      { t with out := (o.tcpMembers (Members.new (t.out ++ ['\x7b'])) f sock).out ++ ['\x7d'] }
    | none => m
  else m

def shownFlags (f : OpenFile) : Option Text :=
  ((f.fileFlags.map (BitVec.ofNat 32)).filter (FileFlags.shown · o.fileFlags)).map
    (FileFlags.text o.arch · o.fileFlags)

def fileMembers (m : Members) (f : OpenFile) : Members :=
  let m := m.strIf (o.want 'f') "fd".toList (some f.fd.code)
  let m := m.strIf (o.want 'a') "access".toList ((accessCode f).map fun c => [c])
  let m := m.strIf (o.want 'l') "lock".toList ((lockCode f).map fun c => [c])
  let m := m.strIf (o.want 't' && f.fileType.hasCode) "type".toList (some f.fileType.code)
  let m := m.strIf (o.want 'd') "device".toList (deviceText f)
  let m := m.strIf (o.want 'D') "device_number".toList (f.fsDevice.map fun dev => hexText dev.toNat)
  let m := m.strIf (o.want 'r') "raw_device".toList (f.rdev.map fun rdev => hexText rdev.val.toNat)
  let m := m.strIf (o.want 's') "size".toList (f.size.map Text.ofNat)
  let m := m.strIf (o.want 'o') "offset".toList (f.offset.map Text.ofNat)
  let protocol := nodeIsProtocol f
  let m := m.strIf (o.want 'i' && !protocol) "inode".toList f.node
  let m := m.numIf (o.want 'k') "nlink".toList (f.links.map Text.ofNat)
  let m := m.strIf (o.want 'P' && protocol) "protocol".toList f.node
  let m := m.strIf (o.want 'G') "flags".toList (o.shownFlags f)
  let m := m.strIf (o.want 'n') "name".toList f.baseName
  o.tcpInfo m f

/-- An object of the `files` array, after a comma unless it is the first. -/
def pushFile (acc : Text × Bool) (f : OpenFile) : Text × Bool :=
  let out := if acc.2 then acc.1 else acc.1 ++ [',']
  ((o.fileMembers (Members.new (out ++ ['\x7b'])) f).out ++ ['\x7d'], false)

def pushProcess (acc : Text × Bool) (p : Process) : Text × Bool :=
  let out := if acc.2 then acc.1 else acc.1 ++ [',']
  let m := (o.procMembers (Members.new (out ++ ['\x7b'])) p).key "files".toList
  ((p.files.foldl o.pushFile (m.out ++ ['['], true)).1 ++ [']', '\x7d'], false)

/-- `-J`. A process with no file left prints nothing. -/
def writeAggregated (procs : List Process) : Text :=
  let out := pushStr ('\x7b' :: "\"lsof_version\":".toList) o.version ++ ",\"processes\":[".toList
  ((procs.filter fun p => !p.files.isEmpty).foldl o.pushProcess (out, true)).1 ++ [']', '\x7d', '\n']

def fileLine (head : Text) (f : OpenFile) : Text :=
  (o.fileMembers { out := '\x7b' :: head, first := head.isEmpty } f).out ++ ['\x7d', '\n']

def writeLines (procs : List Process) : Text :=
  procs.foldl (fun out p =>
    let head := (o.procMembers (Members.new []) p).out
    p.files.foldl (fun out f => out ++ o.fileLine head f) out) []

end JsonOpts

end Lsof.Render
