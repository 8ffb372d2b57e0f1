import Lsof.Core.Model

/-! # `-i` in the C

`enter_network_address` and `enter_nwad` read a specification into the list of
network addresses; `process_proc_sock`, `ent_inaddr` and `is_nw_addr` look the
ends of a connection up in it. Names of hosts and services, which the C looks
up, are outside the model.
-/

namespace Lsof.Original

open Lsof.Basis

inductive Af where
  | inet
  | inet6
  deriving DecidableEq, Repr

/-- `struct nwad`. The address is its sixteen bytes, of which AF_INET uses the
first four; no port is −1. -/
structure Nwad where
  proto : Option Text := none
  af : Option Af := none
  a : BitVec 128 := 0
  sport : Int := -1
  eport : Int := -1
  deriving DecidableEq, Repr

def first4 (a : BitVec 128) : BitVec 32 := (a >>> 96).setWidth 32

def last4 (a : BitVec 128) : BitVec 32 := a.setWidth 32

def rest12 (a : BitVec 128) : BitVec 96 := a.setWidth 96

/-- Sixteen bytes with the first four replaced. -/
def setFirst4 (a : BitVec 128) (b : BitVec 32) : BitVec 128 := b ++ rest12 a

/-- `Fnet`, `FnetTy`, `Nwad` and how many entered it. -/
structure NetContext where
  fnet : Bool := false
  fnetTy : Nat := 0
  nwad : List Nwad := []
  na : Nat := 0
  deriving DecidableEq, Repr

inductive NetError where
  | unknownProtocol (name : Text)
  | unacceptableAddress
  | ipv4Prohibited
  | ipv6Prohibited
  | unacceptablePort
  | invalidService
  | incomplete
  | limit
  /-- A host name, to be looked up. -/
  | hostName (hn : Text)
  /-- A service name, to be looked up. -/
  | serviceName (sn : Text)
  deriving DecidableEq, Repr

def maxNwad : Nat := 100

/-- `enter_nwad`, for an address that came from no look-up. -/
def enterNwad (ctx : NetContext) (n : Nwad) (sp ep : Int) : Except NetError NetContext :=
  if n.proto.isNone && first4 n.a == 0 && (n.af != some .inet6 || rest12 n.a == 0) && sp == -1 then
    .error .incomplete
  else if maxNwad ≤ ctx.na then .error .limit
  else .ok { ctx with nwad := { n with sport := sp, eport := ep } :: ctx.nwad, na := ctx.na + 1 }

def intDigit (n : Int) (c : Char) : Int := (n * 10 + (c.toNat - '0'.toNat : Nat)).bmod (2 ^ 32)

/-- The loop of `isIPv4addr`: the octets done, and the one being assembled, −1
before its first digit. -/
def ipv4Loop (ov : List Int) (cur : Int) : Text → Option (List Int × Text)
  | [] => if ov.length = 3 ∧ 0 ≤ cur ∧ cur ≤ 255 then some (ov ++ [cur], []) else none
  | c :: hn =>
    if c = ':' then
      if ov.length = 3 ∧ 0 ≤ cur ∧ cur ≤ 255 then some (ov ++ [cur], c :: hn) else none
    else if c = '.' then
      if cur < 0 ∨ 255 < cur then none
      else if 3 < ov.length + 1 then none
      else ipv4Loop (ov ++ [cur]) (-1) hn
    else if c.isDigit then
      ipv4Loop ov (if cur < 0 then ((c.toNat - '0'.toNat : Nat) : Int) else intDigit cur c) hn
    else none

def octets (ov : List Int) : BitVec 32 :=
  BitVec.ofNat 32 (ov.foldl (fun a o => a * 256 + (o % 256).toNat) 0)

/-- `isIPv4addr`: the address and where it ends. -/
def isIPv4addr (hn : Text) : Option (BitVec 32 × Text) :=
  match hn with
  | [] => none
  | c :: rest =>
    if !c.isDigit then none
    else (ipv4Loop [] ((c.toNat - '0'.toNat : Nat) : Int) rest).map (fun r => (octets r.1, r.2))

/-- `IN6_IS_ADDR_V4MAPPED`. -/
def isV4Mapped (a : BitVec 128) : Bool := a >>> 32 == 0xffff

/-- The address after `@`, put into `n`, and what follows it. -/
def enterAddress (parse6 : Text → Option (BitVec 128)) (ft : Nat) (n : Nwad) (wa : Text) :
    Except NetError (Nwad × Text) :=
  match wa with
  | [] => .error .unacceptableAddress
  | c :: rest =>
    if c = ':' then .error .unacceptableAddress
    else match isIPv4addr wa with
      | some (a, p) =>
        if ft = 6 then .error .ipv4Prohibited
        else .ok ({ n with a := setFirst4 n.a a, af := some .inet }, p)
      | none =>
        if c = '[' then
          if ft = 4 then .error .ipv6Prohibited
          else match Text.splitLast ']' rest with
            | none => .error .unacceptableAddress
            | some (text, after) =>
              match parse6 text with
              | none => .error .unacceptableAddress
              | some a =>
                if a = 0 then .error .unacceptableAddress
                else if isV4Mapped a then
                  if ft = 6 then .error .ipv4Prohibited
                  else .ok ({ n with a := setFirst4 a (last4 a), af := some .inet }, after)
                else .ok ({ n with a, af := some .inet6 }, after)
        else .error (.hostName (wa.takeWhile (· != ':')))

/-- The numbers of a port list: `sp`, `ep` and `pr`. -/
structure Ports where
  sp : Int := 0
  ep : Int := 0
  pr : Bool := false
  deriving DecidableEq, Repr

def endPort (ctx : NetContext) (n : Nwad) (ports : Ports) : Except NetError NetContext :=
  let ep := if ports.pr then ports.ep else ports.sp
  if ep < ports.sp then .error .unacceptablePort else enterNwad ctx n ports.sp ep

/-- The two loops over the port list. `fresh` is set at the head of the inner
one, where a character that is no digit starts a service name. -/
def portLoop (n : Nwad) (fresh : Bool) (ports : Ports) (ctx : NetContext) :
    Text → Except NetError NetContext
  | [] => endPort ctx n ports
  | c :: wa =>
    if fresh && !c.isDigit then
      let sn := (c :: wa).takeWhile (· != ',')
      .error (if sn.isEmpty then .invalidService else .serviceName sn)
    else if c = ',' then
      match endPort ctx n ports with
      | .error err => .error err
      | .ok ctx => if wa.isEmpty then .ok ctx else portLoop n true {} ctx wa
    else if c = '-' then
      if ports.pr then .error .unacceptablePort
      else portLoop n true { ports with pr := true } ctx wa
    else if c.isDigit then
      let ports := if ports.pr then { ports with ep := intDigit ports.ep c }
        else { ports with sp := intDigit ports.sp c }
      portLoop n false ports ctx wa
    else .error .unacceptablePort

def protocolName (wa : Text) : Except NetError (Option Text × Text) :=
  let stop := fun c => c == '@' || c == ':'
  match wa with
  | [] => .ok (none, [])
  | c :: _ =>
    if stop c then .ok (none, wa)
    else
      let name := wa.takeWhile (fun c => !stop c)
      let lower := Text.toAsciiLowercase name
      if lower ≠ "tcp".toList ∧ lower ≠ "udp".toList ∧ lower ≠ "udplite".toList then
        .error (.unknownProtocol name)
      else .ok (some lower, wa.dropWhile (fun c => !stop c))

def enterHost (parse6 : Text → Option (BitVec 128)) (ft : Nat) (n : Nwad) (wa : Text) :
    Except NetError (Nwad × Text) :=
  match wa with
  | '@' :: wa => enterAddress parse6 ft n wa
  | _ => .ok (n, wa)

def enterTail (ctx : NetContext) (n : Nwad) (wa : Text) : Except NetError NetContext :=
  match wa with
  | [] => enterNwad ctx n (-1) (-1)
  | ':' :: list =>
    if list.isEmpty then .error .unacceptablePort else portLoop n true {} ctx list
  | _ => .error .unacceptablePort

def enterSpec (parse6 : Text → Option (BitVec 128)) (ctx : NetContext) (ft : Nat) (wa : Text) :
    Except NetError NetContext := do
  let (proto, wa) ← protocolName wa
  let af := if ft = 4 then some Af.inet else if ft = 6 then some Af.inet6 else none
  let (n, wa) ← enterHost parse6 ft { proto, af } wa
  enterTail ctx n wa

/-- The bare `-i4` and `-i6`. -/
def enterVersion (ctx : NetContext) (ft : Nat) : NetContext :=
  if !ctx.fnet then { ctx with fnet := true, fnetTy := ft }
  else if ctx.fnetTy ≠ 0 then
    if ctx.fnetTy ≠ ft then { ctx with fnetTy := 0 } else ctx
  else { ctx with fnetTy := ft }

def enterNetworkAddress (parse6 : Text → Option (BitVec 128)) (ctx : NetContext) (na : Text) :
    Except NetError NetContext :=
  match na with
  | '4' :: wa => if wa.isEmpty then .ok (enterVersion ctx 4) else enterSpec parse6 ctx 4 wa
  | '6' :: wa => if wa.isEmpty then .ok (enterVersion ctx 6) else enterSpec parse6 ctx 6 wa
  | wa => enterSpec parse6 ctx (if ctx.fnet then ctx.fnetTy else 0) wa

/-- The option `-i`: without a value it takes every version. -/
def optionI (parse6 : Text → Option (BitVec 128)) (ctx : NetContext) :
    Option Text → Except NetError NetContext
  | none => .ok { ctx with fnet := true, fnetTy := 0 }
  | some na => enterNetworkAddress parse6 ctx na

def optionsI (parse6 : Text → Option (BitVec 128)) (ctx : NetContext) (opts : List (Option Text)) :
    Except NetError NetContext :=
  opts.foldlM (optionI parse6) ctx

inductive InAddr where
  | inet (a : BitVec 32)
  | inet6 (a : BitVec 128)
  deriving DecidableEq, Repr

def InAddr.af : InAddr → Af
  | .inet _ => .inet
  | .inet6 _ => .inet6

/-- Whether an entry has another address; an entry of zeros has none. -/
def Nwad.otherAddress (n : Nwad) : InAddr → Bool
  | .inet6 ia => n.a != 0 && ia != n.a
  | .inet ia => first4 n.a != 0 && ia != first4 n.a

def isNwAddr (iproto : Text) (ia : InAddr) (p : Nat) : List Nwad → Bool
  | [] => false
  | n :: rest =>
    if n.proto.any (fun proto => proto.toAsciiLowercase != iproto.toAsciiLowercase) then
      isNwAddr iproto ia p rest
    else if n.af.any (fun af => af != ia.af) then isNwAddr iproto ia p rest
    else if n.otherAddress ia then isNwAddr iproto ia p rest
    else if n.sport == -1 || (decide (n.sport ≤ p) && decide (p ≤ n.eport)) then true
    else isNwAddr iproto ia p rest

abbrev InEnd := InAddr × Nat

/-- `ent_inaddr`, as far as it sets `SELNA`. -/
def entInaddr (ctx : NetContext) (iproto : Text) (la fa : Option InEnd) : Bool :=
  !ctx.nwad.isEmpty &&
    (fa.any (fun e => isNwAddr iproto e.1 e.2 ctx.nwad) ||
      la.any (fun e => isNwAddr iproto e.1 e.2 ctx.nwad))

inductive Table where
  | tcp
  | udp
  | udplite
  deriving DecidableEq, Repr

def Table.iproto : Table → Text
  | .tcp => "TCP".toList
  | .udp => "UDP".toList
  | .udplite => "UDPLITE".toList

/-- Local and foreign address of a record. -/
inductive Addrs where
  | v4 (laddr faddr : BitVec 32)
  | v6 (laddr faddr : BitVec 128)
  deriving DecidableEq, Repr

structure Record where
  table : Table
  addrs : Addrs
  lport : Nat
  fport : Nat
  deriving DecidableEq, Repr

namespace Record

/-- Whether `process_proc_sock` sets `SELNET`. -/
def selNet (ctx : NetContext) (r : Record) : Bool :=
  match r.addrs with
  | .v4 _ _ => ctx.fnet && ctx.fnetTy != 6
  | .v6 _ _ => ctx.fnet && ctx.fnetTy != 4

def end6 (addr : BitVec 128) (port : Nat) : Option (BitVec 128) :=
  if addr ≠ 0 ∨ port ≠ 0 then some addr else none

def end4 (addr : BitVec 32) (port : Nat) : Option InEnd :=
  if addr ≠ 0 ∨ port ≠ 0 then some (.inet addr, port) else none

/-- Whether `process_proc_sock` sets `SELNA`: where an end is a mapped IPv4
address, both ends are taken for IPv4 ones. -/
def selNa (ctx : NetContext) (r : Record) : Bool :=
  match r.addrs with
  | .v4 laddr faddr =>
    entInaddr ctx r.table.iproto (end4 laddr r.lport) (end4 faddr r.fport)
  | .v6 laddr faddr =>
    let fa := end6 faddr r.fport
    let la := end6 laddr r.lport
    if fa.any isV4Mapped || la.any isV4Mapped then
      entInaddr ctx r.table.iproto (la.map (fun a => (.inet (last4 a), r.lport)))
        (fa.map (fun a => (.inet (last4 a), r.fport)))
    else
      entInaddr ctx r.table.iproto (la.map (fun a => (.inet6 a, r.lport)))
        (fa.map (fun a => (.inet6 a, r.fport)))

end Record

end Lsof.Original
