import Lsof.Core.Model

/-! # The filters of a selection

The pieces of a selection that decide about one row by themselves: `-i`, `-s`
and `-d`, and the records a path argument leaves.
-/

namespace Lsof.Core

open Lsof.Basis

structure InetSpec where
  text : Text := []
  proto : Option Protocol := none
  family : Option Nat := none
  ports : List (Nat × Nat) := []
  host : Option IpAddr := none
  deriving DecidableEq, Repr

structure InetFilter where
  enabled : Bool := false
  all : Bool := false
  allFamily : Option Nat := none
  specs : List InetSpec := []
  deriving DecidableEq, Repr

def familyMatches (family : Option Nat) (f : OpenFile) : Bool :=
  match family with
  | none => true
  | some fam => (fam == 6) == (f.fileType == .ipv6)

namespace InetFilter

/-- A bare `-i`, `-i 4` or `-i 6` joins what earlier ones said. -/
def addAll (inet : InetFilter) (family : Option Nat) : InetFilter :=
  let allFamily := match family with
    | none => none
    | some ft =>
      if !inet.all then some ft
      else match inet.allFamily with
        | some cur => if cur != ft then none else some cur
        | none => some ft
  { inet with enabled := true, allFamily, all := true }

/-- Whether the bare `-i` was given: by itself, or with nothing beside it. -/
def bare (inet : InetFilter) : Bool :=
  inet.all || (inet.enabled && inet.specs.isEmpty)

def allMatches (inet : InetFilter) (f : OpenFile) : Bool :=
  inet.bare && f.isInternet && familyMatches inet.allFamily f

end InetFilter

namespace InetSpec

def protoMatches (spec : InetSpec) (sock : SocketInfo) : Bool :=
  match spec.proto with
  | none => true
  | some p =>
    p == sock.protocol ||
      (p == .other "ICMP".toList && sock.protocol == .other "ICMPV6".toList)

def endMatches (spec : InetSpec) (a : Option SocketAddr) : Bool :=
  match a with
  | none => false
  | some a =>
    (!a.ip.isUnspecified || a.port != 0) &&
      (match spec.host with
        | some h => a.ip == h
        | none => true) &&
      (spec.ports.isEmpty || spec.ports.any (fun r => r.1 ≤ a.port && a.port ≤ r.2))

def «matches» (spec : InetSpec) (f : OpenFile) : Bool :=
  match f.socket with
  | none => false
  | some sock =>
    if !f.isInternet || !familyMatches spec.family f then false
    else if !spec.protoMatches sock then false
    else if spec.host.isNone && spec.ports.isEmpty then true
    else spec.endMatches sock.local_ || spec.endMatches sock.remote

theorem isInternet_of_matches {spec : InetSpec} {f : OpenFile} (h : spec.matches f = true) : f.isInternet = true := by
  unfold «matches» at h
  split at h
  · cases h
  · split at h
    · cases h
    · rename_i hguard
      simp only [Bool.or_eq_true, Bool.not_eq_true', not_or, Bool.not_eq_false] at hguard
      exact hguard.1

end InetSpec

theorem InetFilter.isInternet_of_allMatches {inet : InetFilter} {f : OpenFile}
    (h : inet.allMatches f = true) : f.isInternet = true := by
  simp only [InetFilter.allMatches, Bool.and_eq_true] at h
  exact h.1.2

structure StateFilter where
  «include» : List TcpState := []
  exclude : List TcpState := []
  deriving DecidableEq, Repr

def StateFilter.admits (filter : StateFilter) (host : Host) (f : OpenFile) : Bool :=
  match f.socket.bind SocketInfo.filterState with
  | none => true
  | some state =>
    if !(tcpStateTable host).contains state then true
    else if filter.exclude.contains state then false
    else filter.include.isEmpty || filter.include.contains state

inductive FdKind where
  | cwd
  | rtd
  | txt
  | mem
  | del
  | noFd
  | unknown
  | otherDialect (name : Text)
  deriving DecidableEq, Repr

inductive FdSpec where
  | named (kind : FdKind)
  | num (n : Nat)
  | range (lo hi : Nat)
  deriving DecidableEq, Repr

def FdSpec.matches : FdSpec → FdType → Bool
  | .named .cwd, .cwd => true
  | .named .rtd, .root => true
  | .named .txt, .txt => true
  | .named .mem, .mem => true
  | .named .del, .deleted => true
  | .named .noFd, .noFd => true
  | .named .unknown, .unknown => true
  | .named (.otherDialect name), .ctty => name == "ctty".toList
  | .named (.otherDialect name), .jail => name == "jd.".toList
  | .num n, .handle h => h == n
  | .range a b, .handle h => a ≤ h && h ≤ b
  | _, _ => false

structure FdFilter where
  «include» : List FdSpec := []
  exclude : List FdSpec := []
  deriving DecidableEq, Repr

def FdFilter.matches (filter : FdFilter) (fd : FdType) : Bool :=
  if filter.exclude.any (fun s => s.matches fd) then false
  else filter.include.isEmpty || filter.include.any (fun s => s.matches fd)

/-- A path argument, or an entry `+d` or `+D` made of one. -/
structure PathItem where
  id : Option FileId := none
  fsDevice : Option (BitVec 64) := none
  name : Bytes := []
  spelled : Option Bytes := none
  deriving DecidableEq, Repr

/-- The name a row takes from the item it locates. A file system names none. -/
def PathItem.rowName (item : PathItem) : Option Bytes :=
  if item.fsDevice.isSome then none else some (item.spelled.getD item.name)

/-- A mounted file system, as far as a row's NFS test reads it. -/
structure MountEntry where
  dir : Bytes
  device : Option (BitVec 64) := none
  deriving DecidableEq, Repr

def matchedName (path : Bytes) : Option Text := Utf8.decode path

/-- Whether `name` is `dir` itself or a path beneath it, on a `\` boundary. -/
def underDir (name dir : Text) : Bool :=
  name == dir ||
    (let dir := Text.trimEndMatches '\\' dir
     name.startsWith dir && (name.bytes[dir.byteLen]? == some ('\\'.toNat.toUInt8)))

/-- Whether `name` is `dir` itself or an entry directly in it. -/
def directlyInDir (name dir : Text) : Bool :=
  underDir name dir &&
    (let dir := Text.trimEndMatches '\\' dir
     if dir.byteLen < name.byteLen then
       match Text.splitAt? (dir.byteLen + 1) name with
       | some halves => !halves.2.contains '\\'
       | none => true
     else true)

/-- `-u`, compared with the whole account name and with the part after the domain. -/
def userMatches (needle : Text) (user : Option Text) : Bool :=
  match user with
  | none => false
  | some user =>
    let u := user.toAsciiLowercase
    let n := needle.toAsciiLowercase
    u == n || Text.afterLast '\\' u == n

end Lsof.Core
