import Lsof.Basis.InStep
import Lsof.Original.NetNumbers

/-! # What the parts of a specification enter

The parts of a `-i` in both programs: the protocol, the address and the list of
ports give the same result or the same error, and what the C enters into its
list is one entry for each range of ports lsof-rs keeps.
-/

namespace Lsof.Original

open Lsof.Basis Lsof.Core List

def protoName : Protocol → Text
  | .tcp => "tcp".toList
  | .udp => "udp".toList
  | .udpLite => "udplite".toList
  | .other name => name

/-- Whether an address was typed. One of zeros is kept as none. -/
def addressed (s : InetSpec) : Bool := s.text.contains '@'

def familyOf (s : InetSpec) : Option Af :=
  match s.host with
  | some (.v4 _) => some .inet
  | some (.v6 _) => some .inet6
  | none =>
    if addressed s then some .inet
    else if s.family = some 4 then some .inet
    else if s.family = some 6 then some .inet6
    else none

def SameAddress (n : Nwad) : Option IpAddr → Prop
  | none => first4 n.a = 0 ∧ (n.af = some .inet ∨ n.a = 0)
  | some (.v4 b) => first4 n.a = b ∧ b ≠ 0 ∧ n.af = some .inet
  | some (.v6 b) => n.a = b ∧ b ≠ 0 ∧ n.af = some .inet6

structure Template (s : InetSpec) (n : Nwad) : Prop where
  proto : n.proto = s.proto.map protoName
  af : n.af = familyOf s
  address : SameAddress n s.host

def Nwad.withRange (n : Nwad) (range : Option (Nat × Nat)) : Nwad :=
  { n with sport := range.elim (-1) (fun r => (r.1 : Int)), eport := range.elim (-1) (fun r => (r.2 : Int)) }

def EntryOf (s : InetSpec) (range : Option (Nat × Nat)) (n : Nwad) : Prop :=
  ∃ template, Template s template ∧ n = template.withRange range

def rangesOf (ports : List (Nat × Nat)) : List (Option (Nat × Nat)) :=
  if ports.isEmpty then [none] else ports.map some

def entriesOf (specs : List InetSpec) : List (InetSpec × Option (Nat × Nat)) :=
  specs.flatMap (fun s => (rangesOf s.ports).map (fun r => (s, r)))

/-- What the parts of a specification say of one another: an address is never of
the version that was excluded. -/
structure Parsed (s : InetSpec) : Prop where
  proto : ∀ name, s.proto ≠ some (.other name)
  family : ∀ ft, s.family = some ft → ft = 4 ∨ ft = 6
  host4 : ∀ b, s.host = some (.v4 b) → s.family ≠ some 6
  host6 : ∀ b, s.host = some (.v6 b) → s.family ≠ some 4
  zero : s.host = none → addressed s = true → s.family ≠ some 6

structure NetAgree (ctx : NetContext) (inet : InetFilter) : Prop where
  fnet : ctx.fnet = inet.all
  fnetTy : ctx.fnetTy = inet.allFamily.getD 0
  family : ∀ ft, inet.allFamily = some ft → ft = 4 ∨ ft = 6
  enabled : inet.enabled = (inet.all || !inet.specs.isEmpty)
  na : ctx.na = Cli.enteredAddresses inet
  parsed : ∀ s ∈ inet.specs, Parsed s
  nwad : List.Forall₂ (fun n e => EntryOf e.1 e.2 n) ctx.nwad.reverse (entriesOf inet.specs)

/-- The error of lsof-rs for an error of the C. Names it does not look up. -/
def errorOf : NetError → Cli.InetError
  | .unknownProtocol name => .unknownProtocol name
  | .unacceptableAddress => .unacceptableAddress
  | .ipv4Prohibited => .ipv4Prohibited
  | .ipv6Prohibited => .ipv6Prohibited
  | .unacceptablePort => .unacceptablePort
  | .invalidService => .invalidService
  | .incomplete => .incomplete
  | .limit => .limit
  | .hostName _ => .hostName
  | .serviceName _ => .serviceName

/-- The two programs give related results, or refuse with the same error. -/
abbrev SameResult {α β : Type} (rel : α → β → Prop) :
    Except NetError α → Except Cli.InetError β → Prop :=
  InStep errorOf rel

theorem inetProtocol_same (token rest : Text) :
    SameResult (fun a b => a.1 = b.1.map protoName ∧ a.2 = b.2)
      (if Text.toAsciiLowercase token ≠ "tcp".toList ∧ Text.toAsciiLowercase token ≠ "udp".toList ∧
          Text.toAsciiLowercase token ≠ "udplite".toList then
        .error (.unknownProtocol token)
      else .ok (some (Text.toAsciiLowercase token), rest))
      (match Cli.inetProtocol token with
        | none => .error (.unknownProtocol token)
        | some proto => .ok (some proto, rest)) := by
  unfold Cli.inetProtocol
  generalize Text.toAsciiLowercase token = lower
  by_cases htcp : lower = "tcp".toList
  · subst htcp
    exact .ok ⟨rfl, rfl⟩
  · by_cases hudp : lower = "udp".toList
    · subst hudp
      exact .ok ⟨rfl, rfl⟩
    · by_cases hlite : lower = "udplite".toList
      · subst hlite
        exact .ok ⟨rfl, rfl⟩
      · rw [if_pos ⟨htcp, hudp, hlite⟩]
        simp only [beq_iff_eq, htcp, hudp, hlite, if_false]
        exact .error _

theorem protocolName_same (wa : Text) :
    SameResult (fun a b => a.1 = b.1.map protoName ∧ a.2 = b.2) (protocolName wa) (Cli.readProtocol wa) := by
  unfold protocolName Cli.readProtocol
  cases wa with
  | nil => exact .ok ⟨rfl, rfl⟩
  | cons c rest =>
    by_cases hat : c = '@'
    · subst hat
      exact .ok ⟨rfl, rfl⟩
    · by_cases hcolon : c = ':'
      · subst hcolon
        exact .ok ⟨rfl, rfl⟩
      · have hstop : (c == '@' || c == ':') = false := by simp [hat, hcolon]
        have hwhile : (fun c => !(c == '@' || c == ':')) = (fun c => c != '@' && c != ':') := by
          funext c
          simp [bne]
        have hguard : ((c :: rest).isEmpty || (c :: rest).head? == some '@' ||
            (c :: rest).head? == some ':') = false := by simp [hat, hcolon]
        simp only [hstop, hguard, Bool.false_eq_true, if_false, hwhile]
        generalize (c :: rest).takeWhile (fun c => c != '@' && c != ':') = token
        exact inetProtocol_same token _

theorem first4_setFirst4 (a : BitVec 128) (b : BitVec 32) : first4 (setFirst4 a b) = b := by
  unfold first4 setFirst4
  apply BitVec.eq_of_getLsbD_eq
  intro i hi
  rw [BitVec.getLsbD_setWidth, BitVec.getLsbD_ushiftRight, BitVec.getLsbD_append]
  simp [hi]

theorem eq_zero_of_parts {a : BitVec 128} (hfirst : first4 a = 0) (hrest : rest12 a = 0) : a = 0 := by
  apply BitVec.eq_of_getLsbD_eq
  intro i hi
  by_cases h : i < 96
  · have hbit := congrArg (fun x => x.getLsbD i) hrest
    simpa [rest12, h] using hbit
  · have hbit := congrArg (fun x => x.getLsbD (i - 96)) hfirst
    have hlt : i - 96 < 32 := by omega
    have hadd : 96 + (i - 96) = i := by omega
    simpa [first4, hlt, hadd] using hbit

def HasAddress (n : Nwad) : IpAddr → Prop
  | .v4 b => first4 n.a = b ∧ n.af = some .inet
  | .v6 b => n.a = b ∧ b ≠ 0 ∧ n.af = some .inet6

theorem bracketed_same (parse6 : Text → Option (BitVec 128)) (family : Option Nat) (n : Nwad) (inner : Text) :
    SameResult (fun a b => HasAddress a.1 b.1 ∧ a.1.proto = n.proto ∧ a.2 = b.2) (match Text.splitLast ']' inner with
        | none => .error .unacceptableAddress
        | some (text, after) =>
          match parse6 text with
          | none => .error .unacceptableAddress
          | some a =>
            if a = 0 then .error .unacceptableAddress
            else if isV4Mapped a then
              if family = some 6 then .error .ipv4Prohibited
              else .ok ({ n with a := setFirst4 a (last4 a), af := some .inet }, after)
            else .ok ({ n with a, af := some .inet6 }, after))
      (match Text.splitLast ']' inner with
        | none => .error .unacceptableAddress
        | some (text, rest) =>
          match parse6 text with
          | none => .error .unacceptableAddress
          | some ip =>
            if ip = 0 then .error .unacceptableAddress
            else match Cli.toIpv4Mapped ip with
              | some v4 =>
                if family = some 6 then .error .ipv4Prohibited else .ok (.v4 v4, rest)
              | none => .ok (.v6 ip, rest)) := by
  cases Text.splitLast ']' inner with
  | none => exact .error NetError.unacceptableAddress
  | some halves =>
    dsimp only
    cases parse6 halves.1 with
    | none => exact .error NetError.unacceptableAddress
    | some a =>
      dsimp only
      by_cases hzero : a = 0
      · simp only [hzero, if_true]
        exact .error NetError.unacceptableAddress
      · by_cases hmapped : a >>> 32 = 0xffff
        · have hc : isV4Mapped a = true := by simpa [isV4Mapped] using hmapped
          have hr : Cli.toIpv4Mapped a = some (last4 a) := if_pos hmapped
          simp only [hzero, if_false, hc, if_true, hr]
          by_cases h6 : family = some 6
          · simp only [h6, if_true]
            exact .error NetError.ipv4Prohibited
          · simp only [h6, if_false]
            exact .ok ⟨⟨first4_setFirst4 _ _, rfl⟩, rfl, rfl⟩
        · have hc : isV4Mapped a = false := by simpa [isV4Mapped] using hmapped
          have hr : Cli.toIpv4Mapped a = none := if_neg hmapped
          simp only [hzero, if_false, hc, Bool.false_eq_true, hr]
          exact .ok ⟨⟨rfl, hzero, rfl⟩, rfl, rfl⟩

theorem ft_eq_iff {family : Option Nat} {ft v : Nat} (hft : ft = family.getD 0) (hv : 0 < v) :
    ft = v ↔ family = some v := by
  cases family with
  | none =>
    have hne : ¬ ft = v := by
      rw [hft]
      exact Nat.ne_of_lt hv
    simp [hne]
  | some w => simp [hft]

theorem enterAddress_same (parse6 : Text → Option (BitVec 128)) {family : Option Nat} {ft : Nat}
    (hft : ft = family.getD 0) (n : Nwad) {wa : Text} (hwithin : Within wa) :
    SameResult (fun a b => HasAddress a.1 b.1 ∧ a.1.proto = n.proto ∧ a.2 = b.2)
      (enterAddress parse6 ft n wa) (Cli.readAddress parse6 family wa) := by
  have hsix : ft = 6 ↔ family = some 6 := ft_eq_iff hft (by decide)
  have hfour : ft = 4 ↔ family = some 4 := ft_eq_iff hft (by decide)
  cases wa with
  | nil => exact .error _
  | cons c rest =>
    by_cases hcolon : c = ':'
    · subst hcolon
      exact .error NetError.unacceptableAddress
    · have hguard : ((c :: rest).isEmpty || (c :: rest).head? == some ':') = false := by
        simp [hcolon]
      simp only [enterAddress, Cli.readAddress, hcolon, hguard, Bool.false_eq_true, if_false,
        isIPv4addr_eq hwithin, hsix, hfour, beq_iff_eq]
      cases Cli.ipv4Addr (c :: rest) with
      | some found =>
        by_cases h6 : family = some 6
        · simp only [h6, if_true]
          exact .error NetError.ipv4Prohibited
        · simp only [h6, if_false]
          exact .ok ⟨⟨first4_setFirst4 _ _, rfl⟩, rfl, rfl⟩
      | none =>
        by_cases hbracket : c = '['
        · subst hbracket
          simp only [if_true]
          by_cases h4 : family = some 4
          · simp only [h4, if_true]
            exact .error NetError.ipv6Prohibited
          · simp only [h4, if_false]
            exact bracketed_same parse6 family n rest
        · simp only [hbracket, if_false]
          split
          · rename_i inner heq
            exact absurd (List.cons.inj heq).1 hbracket
          · exact .error (NetError.hostName _)

theorem HasAddress.same {n : Nwad} {ip : IpAddr} (h : HasAddress n ip) :
    SameAddress n ((some ip).filter (fun ip => !ip.isUnspecified)) := by
  rw [Option.filter_some]
  cases ip with
  | v4 b =>
    by_cases hzero : b = 0
    · rw [if_neg (by simp [IpAddr.isUnspecified, hzero])]
      exact ⟨h.1.trans hzero, Or.inl h.2⟩
    · rw [if_pos (by simpa [IpAddr.isUnspecified] using hzero)]
      exact ⟨h.1, hzero, h.2⟩
  | v6 b =>
    rw [if_pos (by simpa [IpAddr.isUnspecified] using h.2.1)]
    exact h

section Entries

variable {n : Nwad} {proto : Option Protocol} {host : Option IpAddr}

theorem incomplete_same (hproto : n.proto = proto.map protoName) (haddress : SameAddress n host)
    (range : Option (Nat × Nat)) :
    (n.proto.isNone && first4 n.a == 0 && (n.af != some .inet6 || rest12 n.a == 0) &&
        (n.withRange range).sport == -1) = (range.isNone && proto.isNone && host.isNone) := by
  have hsport : ((n.withRange range).sport == -1) = range.isNone := by
    cases range with
    | none => rfl
    | some r =>
      have hne : (r.1 : Int) ≠ -1 := by omega
      exact beq_eq_false_iff_ne.mpr hne
  have hzero : (first4 n.a == 0 && (n.af != some .inet6 || rest12 n.a == 0)) = host.isNone := by
    cases host with
    | none =>
      cases haddress.2 with
      | inl hinet => simp [haddress.1, hinet]
      | inr hnull => simp [hnull, first4, rest12]
    | some ip =>
      cases ip with
      | v4 b =>
        have hne : first4 n.a ≠ 0 := haddress.1 ▸ haddress.2.1
        rw [beq_eq_false_iff_ne.mpr hne]
        rfl
      | v6 b =>
        have hne : n.a ≠ 0 := haddress.1 ▸ haddress.2.1
        have hparts : ¬ (first4 n.a = 0 ∧ rest12 n.a = 0) :=
          fun h => hne (eq_zero_of_parts h.1 h.2)
        simpa [haddress.2.2] using hparts
  rw [hsport, hproto, Option.isNone_map, Bool.and_assoc proto.isNone, hzero]
  cases range.isNone <;> simp

theorem enterNwad_same (hproto : n.proto = proto.map protoName) (haddress : SameAddress n host)
    {ctx : NetContext} {st : Cli.Entering} (hna : ctx.na = st.entries) (range : Option (Nat × Nat)) :
    SameResult (fun a b =>
        a = { ctx with nwad := n.withRange range :: ctx.nwad, na := st.entries + 1 } ∧
          b = { entries := st.entries + 1, ports := st.ports ++ range.toList })
      (enterNwad ctx n (n.withRange range).sport (n.withRange range).eport)
      (Cli.enterAddress proto host st range) := by
  unfold enterNwad Cli.enterAddress
  rw [incomplete_same hproto haddress range, hna]
  by_cases hincomplete : (range.isNone && proto.isNone && host.isNone) = true
  · rw [if_pos hincomplete, if_pos hincomplete]
    exact .error NetError.incomplete
  · rw [if_neg hincomplete, if_neg hincomplete]
    by_cases hlimit : maxNwad ≤ st.entries
    · rw [if_pos hlimit, if_pos (show Cli.maxNwad ≤ st.entries from hlimit)]
      exact .error NetError.limit
    · rw [if_neg hlimit, if_neg (show ¬ Cli.maxNwad ≤ st.entries from hlimit)]
      exact .ok ⟨rfl, rfl⟩

/-! ### Ports -/

structure PortsEntered (ctx₀ : NetContext) (n : Nwad) (ctx : NetContext) (st : Cli.Entering) :
    Prop where
  fnet : ctx.fnet = ctx₀.fnet
  fnetTy : ctx.fnetTy = ctx₀.fnetTy
  nwad : ctx.nwad.reverse = ctx₀.nwad.reverse ++ st.ports.map (fun r => n.withRange (some r))
  na : ctx.na = st.entries
  count : ctx.na = ctx₀.na + st.ports.length

/-- The entry being read is the same, and `run` the digits of its number so far. -/
structure SamePorts (run : Text) (ports : Ports) (e : Cli.PortEntry) : Prop where
  pr : ports.pr = e.range
  sp : ports.sp = e.start
  ep : ports.ep = e.stop
  number : (if e.range then e.stop else e.start) = Text.digitsValue run
  unread : e.range = false → e.stop = 0

namespace SamePorts

variable {run : Text} {ports : Ports} {e : Cli.PortEntry}

theorem nil : SamePorts [] {} {} := ⟨rfl, rfl, rfl, rfl, fun _ => rfl⟩

theorem other (h : SamePorts run ports e) (hrange : e.range = false) :
    SamePorts [] { ports with pr := true } { e with range := true } :=
  ⟨rfl, h.sp, h.ep, h.unread hrange, fun h => nomatch h⟩

theorem push (h : SamePorts run ports e) {c : Char} (hsmall : Text.digitsValue (run ++ [c]) < 2 ^ 31) :
    SamePorts (run ++ [c]) (if ports.pr then { ports with ep := intDigit ports.ep c }
        else { ports with sp := intDigit ports.sp c }) (e.push c) := by
  have hnumber := h.number
  unfold Cli.PortEntry.push
  rw [h.pr]
  cases hrange : e.range with
  | true =>
    simp only [hrange, if_true] at hnumber ⊢
    rw [h.ep, hnumber, satDigit_eq hsmall, intDigit_eq hsmall]
    exact ⟨rfl, h.sp, rfl, rfl, fun h => nomatch h⟩
  | false =>
    simp only [hrange, Bool.false_eq_true, if_false] at hnumber ⊢
    rw [h.sp, hnumber, satDigit_eq hsmall, intDigit_eq hsmall]
    exact ⟨rfl, rfl, h.ep, rfl, fun _ => h.unread hrange⟩

end SamePorts

variable {st : Cli.Entering}

theorem endPort_same (hproto : n.proto = proto.map protoName) (haddress : SameAddress n host)
    {ctx₀ ctx : NetContext} (hentered : PortsEntered ctx₀ n ctx st)
    {run : Text} {ports : Ports} {e : Cli.PortEntry} (hports : SamePorts run ports e) :
    SameResult (fun a b => PortsEntered ctx₀ n a b ∧ b.ports ≠ [])
      (endPort ctx n ports) (e.finish proto host st) := by
  unfold endPort Cli.PortEntry.finish
  have hstop : (if ports.pr then ports.ep else ports.sp) =
      ((if e.range then e.stop else e.start : Nat) : Int) := by
    rw [hports.pr, hports.ep, hports.sp]
    split <;> rfl
  dsimp only
  rw [hstop, hports.sp]
  simp only [Int.ofNat_lt]
  generalize (if e.range then e.stop else e.start) = stop
  by_cases hbelow : stop < e.start
  · rw [if_pos hbelow, if_pos hbelow]
    exact .error NetError.unacceptablePort
  · rw [if_neg hbelow, if_neg hbelow]
    refine (enterNwad_same hproto haddress hentered.na (some (e.start, stop))).imp ?_
    rintro a b ⟨rfl, rfl⟩
    have hcount := hentered.count
    rw [hentered.na] at hcount
    refine ⟨⟨hentered.fnet, hentered.fnetTy, ?_, rfl, ?_⟩, by simp⟩
    · simp [hentered.nwad]
    · simp [hcount, Nat.add_assoc]

/-- The two readings of a list of ports, character by character: `run` is the
part of the text that the number being read takes. -/
theorem portLoop_same (hproto : n.proto = proto.map protoName) (haddress : SameAddress n host)
    {ctx₀ : NetContext} (t : Text) {fresh : Bool} {run : Text} {ports : Ports} {e : Cli.PortEntry}
    {ctx : NetContext} (hports : SamePorts run ports e)
    (hrun : Text.isDigits run = true) (hwithin : Within (run ++ t)) (hentered : PortsEntered ctx₀ n ctx st) :
    SameResult (fun a b => PortsEntered ctx₀ n a b ∧ b.ports ≠ [])
      (portLoop n fresh ports ctx t) (Cli.readPorts proto host fresh e st t) := by
  induction t generalizing fresh run ports e ctx st with
  | nil => exact endPort_same hproto haddress hentered hports
  | cons c t ih =>
    have hrest : Within t :=
      hwithin.of_infix ((suffix_cons c t).trans (suffix_append run _)).isInfix
    unfold portLoop Cli.readPorts
    by_cases hfresh : (fresh && !c.isDigit) = true
    · rw [if_pos hfresh, if_pos hfresh]
      by_cases hcomma : c = ','
      · subst hcomma
        exact .error NetError.invalidService
      · have hname : (List.takeWhile (· != ',') (c :: t)).isEmpty = false := by
          simp [hcomma]
        simp only [hname, Bool.false_eq_true, if_false, hcomma]
        exact .error (NetError.serviceName _)
    · rw [if_neg hfresh, if_neg hfresh]
      by_cases hcomma : c = ','
      · rw [if_pos hcomma, if_pos hcomma]
        have hend := endPort_same hproto haddress hentered hports
        generalize endPort ctx n ports = entered, e.finish proto host st = finished at hend
        cases hend with
        | error err => exact .error err
        | ok hentered' =>
          dsimp only
          cases t with
          | nil => exact .ok hentered'
          | cons d t => exact ih SamePorts.nil rfl hrest hentered'.1
      · rw [if_neg hcomma, if_neg hcomma]
        by_cases hdash : c = '-'
        · rw [if_pos hdash, if_pos hdash, hports.pr]
          cases hrange : e.range with
          | true => exact .error NetError.unacceptablePort
          | false => exact ih (hports.other hrange) rfl hrest hentered
        · rw [if_neg hdash, if_neg hdash]
          by_cases hdigit : c.isDigit = true
          · rw [if_pos hdigit, if_pos hdigit]
            have hlonger := isDigits_concat hrun hdigit
            rw [append_cons] at hwithin
            have hsmall := hwithin _ hlonger (prefix_append _ _).isInfix
            exact ih (hports.push hsmall) hlonger hwithin hentered
          · rw [if_neg hdigit, if_neg hdigit]
            exact .error NetError.unacceptablePort

structure TailEntered (ctx₀ : NetContext) (n : Nwad) (ctx : NetContext) (st : Cli.Entering) :
    Prop where
  fnet : ctx.fnet = ctx₀.fnet
  fnetTy : ctx.fnetTy = ctx₀.fnetTy
  nwad : ctx.nwad.reverse = ctx₀.nwad.reverse ++ (rangesOf st.ports).map n.withRange
  count : ctx.na = ctx₀.na + max st.ports.length 1

theorem PortsEntered.tail {ctx₀ ctx : NetContext}
    (h : PortsEntered ctx₀ n ctx st) (hports : st.ports ≠ []) : TailEntered ctx₀ n ctx st := by
  have hranges : rangesOf st.ports = st.ports.map some := by simp [rangesOf, hports]
  have hlength : 0 < st.ports.length := length_pos_iff.mpr hports
  refine ⟨h.fnet, h.fnetTy, ?_, ?_⟩
  · rw [h.nwad, hranges, map_map]
    rfl
  · rw [h.count]
    omega

theorem enterTail_of_ne {ctx : NetContext} {c : Char} {list : Text} (hcolon : ¬ c = ':') :
    enterTail ctx n (c :: list) = .error .unacceptablePort := by
  unfold enterTail
  split <;> simp_all

theorem readTail_of_ne {c : Char} {list : Text} (hcolon : ¬ c = ':') :
    Cli.readTail proto host st (c :: list) = .error .unacceptablePort := by
  unfold Cli.readTail
  split <;> simp_all

theorem enterTail_same (hproto : n.proto = proto.map protoName) (haddress : SameAddress n host)
    (ctx : NetContext) {s : Text} (hwithin : Within s) :
    SameResult (TailEntered ctx n) (enterTail ctx n s) (Cli.readTail proto host { entries := ctx.na } s) := by
  cases s with
  | nil =>
    refine (@enterNwad_same n proto host hproto haddress ctx { entries := ctx.na } rfl none).imp ?_
    rintro a b ⟨rfl, rfl⟩
    exact ⟨rfl, rfl, by simp [rangesOf], by simp⟩
  | cons c list =>
    by_cases hcolon : c = ':'
    · subst hcolon
      show SameResult _ (if list.isEmpty then _ else _) (if list.isEmpty then _ else _)
      cases list.isEmpty with
      | true => exact .error NetError.unacceptablePort
      | false =>
        have hstart : PortsEntered ctx n ctx { entries := ctx.na } :=
          ⟨rfl, rfl, by simp, rfl, by simp⟩
        exact (portLoop_same hproto haddress list SamePorts.nil rfl hwithin.tail hstart).imp
          (fun a b h => h.1.tail h.2)
    · rw [enterTail_of_ne hcolon, readTail_of_ne hcolon]
      exact .error NetError.unacceptablePort

end Entries

end Lsof.Original
