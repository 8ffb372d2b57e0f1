import Lsof.Core.Escape
import Lsof.Core.Filter

/-! # Reading `-i`

`parse_inet`: a specification `[46][proto][@host][:ports]`, read from left to
right with the first error its own. How an IPv6 address is spelt is left to the
standard library, here a parameter.
-/

namespace Lsof.Cli

open Lsof.Basis Lsof.Core

inductive InetError where
  | unknownProtocol (token : Text)
  | unacceptableAddress
  | ipv4Prohibited
  | ipv6Prohibited
  | hostName
  | unacceptablePort
  | invalidService
  | serviceName
  | incomplete
  | limit
  deriving DecidableEq, Repr

/-- The most address specifications taken, over every `-i`. -/
def maxNwad : Nat := 100

def InetError.message (esc : Escaper) (spec : Text) : InetError → Text
  | .unknownProtocol token =>
    "unknown protocol name (".toList ++ esc.text token ++ ") in: -i ".toList ++ esc.text spec
  | .unacceptableAddress => "unacceptable Internet address in: -i ".toList ++ esc.text spec
  | .ipv4Prohibited => "IPv4 addresses are prohibited: -i ".toList ++ esc.text spec
  | .ipv6Prohibited => "IPv6 addresses are prohibited: -i ".toList ++ esc.text spec
  | .hostName =>
    "host names are not resolved: -i ".toList ++ esc.text spec ++ " (give the address)".toList
  | .unacceptablePort => "unacceptable port specification in: -i ".toList ++ esc.text spec
  | .invalidService => "invalid service name: -i ".toList ++ esc.text spec
  | .serviceName =>
    "service names are not resolved: -i ".toList ++ esc.text spec ++
      " (give the port number)".toList
  | .incomplete => "incomplete Internet address specification: -i ".toList ++ esc.text spec
  | .limit => "network address limit (".toList ++ Text.ofNat maxNwad ++ ") exceeded: -i ".toList ++
      esc.text spec

def satDigit (n : Nat) (c : Char) : Nat :=
  min (min (n * 10) (2 ^ 32 - 1) + (c.toNat - '0'.toNat)) (2 ^ 32 - 1)

def satValue (digits : Text) : Nat := digits.foldl satDigit 0

/-- `::ffff:a.b.c.d` as `a.b.c.d`. -/
def toIpv4Mapped (ip : BitVec 128) : Option (BitVec 32) :=
  if ip >>> 32 = 0xffff then some (ip.setWidth 32) else none

def octetOf (part : Text) : Option Nat :=
  if part.isEmpty || !Text.isDigits part then none
  else if satValue part ≤ 255 then some (satValue part)
  else none

def ofOctets (a b c d : Nat) : BitVec 32 := BitVec.ofNat 32 (((a * 256 + b) * 256 + c) * 256 + d)

def ipv4Addr (s : Text) : Option (BitVec 32 × Text) :=
  let text := s.takeWhile (· != ':')
  let rest := s.dropWhile (· != ':')
  if !text.head?.any Char.isDigit then none
  else match (text.splitOn '.').mapM octetOf with
    | some [a, b, c, d] => some (ofOctets a b c d, rest)
    | _ => none

def readAddress (parse6 : Text → Option (BitVec 128)) (family : Option Nat) (after : Text) :
    Except InetError (IpAddr × Text) :=
  if after.isEmpty || after.head? == some ':' then .error .unacceptableAddress
  else match ipv4Addr after with
    | some (octets, rest) =>
      if family == some 6 then .error .ipv4Prohibited else .ok (.v4 octets, rest)
    | none =>
      match after with
      | '[' :: inner =>
        if family == some 4 then .error .ipv6Prohibited
        else match Text.splitLast ']' inner with
          | none => .error .unacceptableAddress
          | some (text, rest) =>
            match parse6 text with
            | none => .error .unacceptableAddress
            | some ip =>
              if ip = 0 then .error .unacceptableAddress
              else match toIpv4Mapped ip with
                | some v4 =>
                  if family == some 6 then .error .ipv4Prohibited
                  else .ok (.v4 v4, rest)
                | none => .ok (.v6 ip, rest)
      | _ => .error .hostName

def inetProtocol (token : Text) : Option Protocol :=
  let is := fun (name : Text) => token.toAsciiLowercase == name
  if is "tcp".toList then some .tcp
  else if is "udp".toList then some .udp
  else if is "udplite".toList then some .udpLite
  else none

/-- What was entered: how many addresses by every `-i`, and the ports of this one. -/
structure Entering where
  entries : Nat
  ports : List (Nat × Nat) := []
  deriving DecidableEq, Repr

/-- `enter`: an address without a port needs a protocol or a host. -/
def enterAddress (proto : Option Protocol) (host : Option IpAddr) (st : Entering)
    (range : Option (Nat × Nat)) : Except InetError Entering :=
  if range.isNone && proto.isNone && host.isNone then .error .incomplete
  else if maxNwad ≤ st.entries then .error .limit
  else .ok { entries := st.entries + 1, ports := st.ports ++ range.toList }

structure PortEntry where
  start : Nat := 0
  stop : Nat := 0
  range : Bool := false
  deriving DecidableEq, Repr

namespace PortEntry

def push (e : PortEntry) (c : Char) : PortEntry :=
  if e.range then { e with stop := satDigit e.stop c } else { e with start := satDigit e.start c }

def finish (e : PortEntry) (proto : Option Protocol) (host : Option IpAddr) (st : Entering) :
    Except InetError Entering :=
  let stop := if e.range then e.stop else e.start
  if stop < e.start then .error .unacceptablePort
  else enterAddress proto host st (some (e.start, stop))

end PortEntry

/-- The list of ports, one entry after the other. `fresh` is set where a number
has to start. -/
def readPorts (proto : Option Protocol) (host : Option IpAddr) (fresh : Bool) (e : PortEntry)
    (st : Entering) : Text → Except InetError Entering
  | [] => e.finish proto host st
  | c :: rest =>
    if fresh && !c.isDigit then .error (if c = ',' then .invalidService else .serviceName)
    else if c = ',' then
      match e.finish proto host st with
      | .error err => .error err
      | .ok st =>
        -- A trailing comma ends the list.
        if rest.isEmpty then .ok st else readPorts proto host true {} st rest
    else if c = '-' then
      if e.range then .error .unacceptablePort
      else readPorts proto host true { e with range := true } st rest
    else if c.isDigit then readPorts proto host false (e.push c) st rest
    else .error .unacceptablePort

def enteredAddresses (inet : InetFilter) : Nat :=
  (inet.specs.map (fun s => max s.ports.length 1)).sum

def readHost (parse6 : Text → Option (BitVec 128)) (family : Option Nat) (s : Text) :
    Except InetError (Option IpAddr × Text) :=
  match s with
  | '@' :: after => (readAddress parse6 family after).map (fun r => (some r.1, r.2))
  | _ => .ok (none, s)

def readProtocol (s : Text) : Except InetError (Option Protocol × Text) :=
  if s.isEmpty || s.head? == some '@' || s.head? == some ':' then .ok (none, s)
  else
    let token := s.takeWhile (fun c => c != '@' && c != ':')
    match inetProtocol token with
    | none => .error (.unknownProtocol token)
    | some proto => .ok (some proto, s.dropWhile (fun c => c != '@' && c != ':'))

def readTail (proto : Option Protocol) (host : Option IpAddr) (st : Entering) (s : Text) :
    Except InetError Entering :=
  match s with
  | [] => enterAddress proto host st none
  | ':' :: list =>
    if list.isEmpty then .error .unacceptablePort else readPorts proto host true {} st list
  | _ => .error .unacceptablePort

def readVersion (spec : Text) : Option (Nat × Text) :=
  match spec with
  | '4' :: rest => some (4, rest)
  | '6' :: rest => some (6, rest)
  | _ => none

def readSpec (parse6 : Text → Option (BitVec 128)) (inet : InetFilter) (text : Text)
    (family : Option Nat) (s : Text) : Except InetError InetFilter := do
  let (proto, s) ← readProtocol s
  let (host, s) ← readHost parse6 family s
  -- An all-zero address is no constraint.
  let host := host.filter (fun ip => !ip.isUnspecified)
  let st ← readTail proto host { entries := enteredAddresses inet } s
  return { inet with
    enabled := true
    specs := inet.specs ++ [{ text, proto, family, ports := st.ports, host }] }

/-- `parse_inet`. No value is the bare form, as is a version alone. -/
def parseInet (parse6 : Text → Option (BitVec 128)) (inet : InetFilter) :
    Option Text → Except InetError InetFilter
  | none => .ok (inet.addAll none)
  | some spec =>
    match readVersion spec with
    | some (ft, []) => .ok (inet.addAll (some ft))
    | some (ft, rest) => readSpec parse6 inet spec (some ft) rest
    | none => readSpec parse6 inet spec (if inet.all then inet.allFamily else none) spec

def parseSpecInto (parse6 : Text → Option (BitVec 128)) (text : Text) (family : Option Nat) (s : Text) :
    ExceptT InetError (StateM InetFilter) Unit := do
  let (proto, s) ← readProtocol s
  let (host, s) ← readHost parse6 family s
  let host := host.filter (fun ip => !ip.isUnspecified)
  let st ← readTail proto host { entries := enteredAddresses (← get) } s
  modify fun inet => { inet with enabled := true }
  modify fun inet => { inet with specs := inet.specs ++ [{ text, proto, family, ports := st.ports, host }] }

def parseInetInto (parse6 : Text → Option (BitVec 128)) (spec : Option Text) :
    ExceptT InetError (StateM InetFilter) Unit := do
  match spec with
  | none => modify fun inet => inet.addAll none
  | some spec =>
    match readVersion spec with
    | some (ft, []) => modify fun inet => inet.addAll (some ft)
    | some (ft, rest) => parseSpecInto parse6 spec (some ft) rest
    | none =>
      let inet ← get
      parseSpecInto parse6 spec (if inet.all then inet.allFamily else none) spec

def parseInets (parse6 : Text → Option (BitVec 128)) (inet : InetFilter) (opts : List (Option Text)) :
    Except InetError InetFilter :=
  opts.foldlM (parseInet parse6) inet

end Lsof.Cli
