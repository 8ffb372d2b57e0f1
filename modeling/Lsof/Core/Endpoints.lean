import Lsof.Core.Apply

/-! # The other ends of a row

`-E` and `+E` where the backend leaves them to the core: the rows of every
process are entered under the object they are an end of, and each listed row
is given, as an addition to its NAME, the holders of the other ends. Under `+E`
those rows are listed as well.
-/

namespace Lsof.Core

open Lsof.Basis

/-- A UNIX socket's peer and its first pending connection, by inode. -/
structure UnixEnds where
  peer : Option (BitVec 64) := none
  incoming : Option (BitVec 64) := none
  deriving DecidableEq, Repr

structure EndpointTables where
  unix : List (BitVec 64 × UnixEnds) := []
  ptyIndex : List ((Nat × Option Nat × Nat) × Nat) := []
  deriving DecidableEq, Repr

/-- The object a row is an end of. -/
inductive Key where
  | pipe (ino : BitVec 64)
  | inet (ino : BitVec 64)
  | unix (ino : BitVec 64)
  | mq (ino : BitVec 64)
  | eventFd (id : Nat)
  | pty (index : Nat)
  deriving DecidableEq, Repr

inductive Side where
  | master
  | slave
  deriving DecidableEq, Repr

/-- The device number of `/dev/ptmx`. -/
def ptmx : BitVec 32 := 0x502

def majorMinor (rdev : BitVec 32) : BitVec 32 × BitVec 32 :=
  ((rdev >>> 8) &&& 0xfff#32, (rdev &&& 0xff#32) ||| ((rdev >>> 12) &&& 0xfff00#32))

def isPtySlave (major : BitVec 32) : Bool := 136 ≤ major.toNat && major.toNat < 144

/-- `[eventfd:N]` read back from a base name; past the C's `int` it is no id. -/
def eventfdIdOf (base : Text) : Option Nat :=
  let head := "[eventfd:".toList
  if head.isPrefixOf base then
    let rest := base.drop head.length
    if rest.getLast? = some ']' then
      let digits := rest.dropLast
      if digits.isEmpty || !Text.isDigits digits then none
      else if Text.digitsValue digits ≤ 2 ^ 31 - 1 then some (Text.digitsValue digits)
      else none
    else none
  else none

def eventfdId (f : OpenFile) : Option Nat :=
  if f.fileType != .other "a_inode".toList then none else f.baseName.bind eventfdIdOf

def inodeOf (cell : Option Text) : Option (BitVec 64) := cell.bind (Text.parseUnsigned 64)

/-- A row on the message-queue file system, else an eventfd. -/
def namedKey (mqueueDevice : Option (BitVec 64)) (f : OpenFile) : Option (Key × Option Side) :=
  if mqueueDevice.isSome && f.fsDevice == mqueueDevice then
    (inodeOf f.node).map (fun i => (Key.mq i, none))
  else (eventfdId f).map (fun id => (Key.eventFd id, none))

/-- The object a row is an end of, and for a pseudoterminal which side. -/
def rowKey (tables : EndpointTables) (mqueueDevice : Option (BitVec 64)) (p : Process)
    (f : OpenFile) : Option (Key × Option Side) :=
  let other := namedKey mqueueDevice f
  let orElse := fun (k : Option Key) => match k with
    | some k => some (k, none)
    | none => other
  match f.fileType with
  | .fifo => orElse ((inodeOf f.node).map Key.pipe)
  | .ipv4 | .ipv6 =>
    match f.socket with
    | none => none
    | some s =>
      if s.state == some (.tcp .established) && (s.protocol == .tcp || s.protocol == .udp) &&
          s.local_.isSome && s.remote.isSome then
        orElse ((inodeOf f.device).map Key.inet)
      else other
  | .unix => orElse ((inodeOf f.node).map Key.unix)
  | .chr =>
    match f.rdev with
    | none => none
    | some rdev =>
      if rdev.val = ptmx then
        match f.fd with
        | .handle n =>
          (tables.ptyIndex.lookup (p.pid, p.tid, n)).map (fun i => (Key.pty i, some .master))
        | _ => none
      else
        let parts := majorMinor rdev.val
        if isPtySlave parts.1 then some (Key.pty parts.2.toNat, some .slave) else other
  | _ => other

/-- A row as the other ends name it: `PID,cmd,FDmode`. -/
structure Holder where
  pid : Nat
  tid : Option Nat
  fd : FdType
  side : Option Side
  text : Text
  deriving DecidableEq, Repr

def cutCommand (host : Host) (cmd : Bytes) (width : CommandWidth) : Text :=
  let n := match width with
    | .standard => 9
    | .unlimited => 0
    | .chars n => n
  (Escaper.forHost host).bytes (cmd.take n)

def accessChar : AccessMode → Char
  | .read => 'r'
  | .write => 'w'
  | .readWrite => 'u'
  | .unknown => ' '

structure Index where
  inOrder : Key → List Holder := fun _ => []
  sockets : Key → List Holder := fun _ => []
  peer : BitVec 64 → Option (BitVec 64) := fun _ => none
  tables : EndpointTables := {}
  mqueueDevice : Option (BitVec 64) := none

structure InetEntry where
  ino : BitVec 64
  v6 : Bool
  protocol : Protocol
  local_ : SocketAddr
  remote : SocketAddr
  deriving DecidableEq, Repr

structure BuildState where
  index : Index := {}
  seen : List (Key × Nat × FdType) := []
  inet : List InetEntry := []

def pushHolder (m : Key → List Holder) (k : Key) (h : Holder) : Key → List Holder :=
  fun k' => if k' = k then m k' ++ [h] else m k'

def readsBefore (p q : Process) : Prop :=
  p.pid < q.pid ∨ (p.pid = q.pid ∧
    match p.tid, q.tid with
    | some s, some t => s ≤ t
    | some _, none => True
    | none, none => True
    | none, some _ => False)

instance : DecidableRel readsBefore := fun p q => by
  unfold readsBefore
  cases p.tid <;> cases q.tid <;> infer_instance

def readingOrder (procs : List Process) : List Process := procs.insertionSort readsBefore

namespace Index

variable (host : Host) (width : CommandWidth)

def key (index : Index) (p : Process) (f : OpenFile) : Option (Key × Option Side) :=
  rowKey index.tables index.mqueueDevice p f

def holderOf (p : Process) (f : OpenFile) (side : Option Side) : Holder :=
  { pid := p.pid
    tid := p.tid
    fd := f.fd
    side
    text := Text.ofNat p.pid ++ [','] ++ cutCommand host p.commandBytes width ++ [','] ++
      f.fd.columnCode host ++ [accessChar f.access] }

def inetEntryOf (ino : BitVec 64) (f : OpenFile) : Option InetEntry :=
  match f.socket with
  | some s =>
    match s.local_, s.remote with
    | some l, some r =>
      some { ino, v6 := f.fileType == .ipv6, protocol := s.protocol, local_ := l, remote := r }
    | _, _ => none
  | none => none

def enterRow (p : Process) (st : BuildState) (f : OpenFile) : BuildState :=
  match st.index.key p f with
  | none => st
  | some (k, side) =>
    if st.seen.contains (k, p.pid, f.fd) then st
    else
      let holder := holderOf host width p f side
      let seen := (k, p.pid, f.fd) :: st.seen
      match k with
      | .inet ino =>
        let inet := if (st.index.sockets k).isEmpty then
            st.inet ++ (inetEntryOf ino f).toList
          else st.inet
        { index := { st.index with sockets := pushHolder st.index.sockets k holder }, seen, inet }
      | .unix _ =>
        { index := { st.index with sockets := pushHolder st.index.sockets k holder }, seen
          inet := st.inet }
      | _ =>
        { index := { st.index with inOrder := pushHolder st.index.inOrder k holder }, seen
          inet := st.inet }

def enterProcess (st : BuildState) (p : Process) : BuildState :=
  p.files.foldl (enterRow host width p) st

/-- A socket's peer is the first one not yet paired whose addresses are its own
the other way round. -/
def pairEntry (inet : List InetEntry) (peer : BitVec 64 → Option (BitVec 64)) (e : InetEntry) :
    BitVec 64 → Option (BitVec 64) :=
  if (peer e.ino).isSome then peer
  else
    let facing := inet.filter (fun c => c.v6 == e.v6 && c.protocol == e.protocol &&
      c.local_ == e.remote && c.remote == e.local_)
    match (facing.map InetEntry.ino).find? (fun c => (peer c).isNone) with
    | some other => update (update peer e.ino other) other e.ino
    | none => peer

def buildWith (procs : List Process) (tables : EndpointTables)
    (mqueueDevice : Option (BitVec 64)) : Index :=
  let st := (readingOrder procs).foldl (enterProcess host width)
    { index := { tables, mqueueDevice } }
  { st.index with peer := st.inet.foldl (pairEntry st.inet) (fun _ => none) }

structure Piece where
  text : Text
  holder : Option Holder
  deriving DecidableEq, Repr

def Piece.of (h : Holder) : Piece := { text := h.text, holder := some h }

variable (index : Index)

def unixSocket (n : BitVec 64) : List Piece :=
  { text := "->INO=".toList ++ Text.ofNat n.toNat, holder := none } ::
    (index.sockets (.unix n)).reverse.map Piece.of

/-- The pending connections from `next` on, each once. -/
def unixIncoming (ino : BitVec 64) :
    Nat → Option (BitVec 64) → List (BitVec 64) → List Piece
  | 0, _, _ => []
  | _ + 1, none, _ => []
  | fuel + 1, some n, walked =>
    if n = ino ∨ n ∈ walked then []
    else
      (if n ≠ 0 then index.unixSocket n else []) ++
        unixIncoming ino fuel ((index.tables.unix.lookup n).bind UnixEnds.incoming) (n :: walked)

/-- A walk meets each socket of the table at most once, and one it does not list. -/
def unixEnds (ino : BitVec 64) (forced : Bool) : List Piece :=
  let ends := (index.tables.unix.lookup ino).getD {}
  let incoming := index.unixIncoming ino (index.tables.unix.length + 2) ends.incoming []
  match ends.peer.filter (fun p => p != 0) with
  | some peer => index.unixSocket peer ++ if forced then [] else incoming
  | none => incoming

def otherHolders (k : Key) (p : Process) (f : OpenFile) : List Piece :=
  ((index.inOrder k).filter (fun h => h.pid != p.pid || h.fd != f.fd)).map Piece.of

def ptyEnds (k : Key) (n : Nat) (side : Option Side) : List Piece :=
  let want := match side with
    | some .master => Side.slave
    | _ => Side.master
  let out := ((index.inOrder k).filter (fun h => h.side == some want)).map Piece.of
  match side, out with
  | some .master, first :: rest =>
    { first with text := "->/dev/pts/".toList ++ Text.ofNat n ++ [' '] ++ first.text } :: rest
  | _, _ => out

def endsOf (k : Key) (side : Option Side) (p : Process) (f : OpenFile) (forced : Bool) :
    List Piece :=
  match k with
  | .pipe _ | .mq _ | .eventFd _ => index.otherHolders k p f
  | .inet ino =>
    match index.peer ino with
    | some peer => (index.sockets (.inet peer)).reverse.map Piece.of
    | none => []
  | .unix ino => index.unixEnds ino forced
  | .pty n => index.ptyEnds k n side

def ends (p : Process) (f : OpenFile) (forced : Bool) : List Piece :=
  match index.key p f with
  | none => []
  | some (k, side) => index.endsOf k side p f forced

end Index

/-- An entry and descriptor, which `+E` lists a row by. -/
abbrev RowKey := Nat × Option Nat × FdType

def rowKeys (p : Process) : List RowKey := p.files.map (fun f => (p.pid, p.tid, f.fd))

def candidates (index : Index) (procs : List Process) : List Process :=
  (procs.map (fun p => { p with files := p.files.filter (fun f => (index.key p f).isSome) })).filter
    (fun p => !p.files.isEmpty)

def addPieces (host : Host) (f : OpenFile) (pieces : List Index.Piece) : OpenFile :=
  pieces.foldl (fun f piece => f.addPrintedAddition host piece.text) f

theorem addPieces_unnamed (host : Host) (f : OpenFile) (pieces : List Index.Piece) :
    (addPieces host f pieces).unnamed = f.unnamed := by
  induction pieces generalizing f with
  | nil => rfl
  | cons piece pieces ih =>
    exact (ih _).trans (f.addPrintedAddition_unnamed host piece.text)

def annotateRow (host : Host) (index : Index) (p : Process) (forced : Bool) (f : OpenFile) :
    OpenFile :=
  addPieces host f (index.ends p.header f forced)

def annotateEntry (host : Host) (index : Index) (forced : Bool) (p : Process) : Process :=
  { p with files := p.files.map (annotateRow host index p forced) }

def forcedKeys (index : Index) (out : List Process) : List RowKey :=
  out.flatMap (fun p => p.files.flatMap (fun f =>
    (index.ends p.header f false).filterMap (fun piece =>
      piece.holder.map (fun h => (h.pid, h.tid, h.fd)))))

def fdNumber : FdType → Option Nat
  | .handle n => some n
  | _ => none

def insertRow (files : List OpenFile) (f : OpenFile) : List OpenFile :=
  let n := fdNumber f.fd
  let behind := fun (g : OpenFile) => match fdNumber g.fd, n with
    | some m, some n => decide (n < m)
    | some _, none => true
    | none, _ => false
  files.insertIdx ((files.findIdx? behind).getD files.length) f

def entryAfter (p c : Process) : Bool :=
  c.pid < p.pid || (p.pid == c.pid && match p.tid, c.tid with
    | some s, some t => decide (t < s)
    | some _, none => true
    | none, _ => false)

def mergeEntry (out : List Process) (c : Process) : List Process :=
  match out.findIdx? (fun p => p.pid == c.pid && p.tid == c.tid) with
  | some i => out.modify i (fun p => { p with files := c.files.foldl insertRow p.files })
  | none => out.insertIdx ((out.findIdx? (fun p => entryAfter p c)).getD out.length) c

def addForced (host : Host) (index : Index) (forced shown : List RowKey) (out : List Process)
    (c : Process) : List Process :=
  let files := c.files.filter (fun f =>
    forced.contains (c.pid, c.tid, f.fd) && !shown.contains (c.pid, c.tid, f.fd))
  if files.isEmpty then out
  else mergeEntry out (annotateEntry host index true { c with files })

def annotate (host : Host) (index : Index) (out : List Process)
    (cands : Option (List Process)) : List Process :=
  let named := out.map (annotateEntry host index false)
  match cands with
  | none => named
  | some cands =>
    let forced := forcedKeys index out
    if forced.isEmpty then named
    else cands.foldl (addForced host index forced (named.flatMap rowKeys)) named

namespace Selection

variable (sel : Selection)

def applyWith (procs : List Process) (tables : EndpointTables) : List Process :=
  match sel.endpoints, sel.endpointsInCore with
  | some mode, true =>
    let index := Index.buildWith sel.host sel.commandWidth procs tables sel.mqueueDevice
    let cands := if mode = .files then some (candidates index procs) else none
    annotate sel.host index (sel.applyRows procs) cands
  | _, _ => sel.applyRows procs

def apply (procs : List Process) : List Process := sel.applyWith procs {}

theorem applyWith_of_not_every (h : sel.readsEveryProcess = false) (procs : List Process)
    (tables : EndpointTables) : sel.applyWith procs tables = sel.applyRows procs := by
  unfold applyWith
  unfold readsEveryProcess at h
  split
  · simp_all
  · rfl

theorem apply_of_no_endpoints (h : sel.endpoints = none) (procs : List Process) :
    sel.apply procs = sel.applyRows procs :=
  sel.applyWith_of_not_every (by simp [readsEveryProcess, h]) procs {}

end Selection

end Lsof.Core
