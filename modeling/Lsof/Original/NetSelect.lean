import Lsof.Core.Selection
import Lsof.Original.NetOptions

/-! # What `-i` selects in both programs

The bare `-i` selects the same rows in both. For the specifications the C
decides end by end, with an IPv4-mapped end turned into an IPv4 one; lsof-rs
decides by the row's type and the whole address. Each rule is stated over the
ends of a record that are there, and the records the two rules part on are
those with a mapped end, those with no end at all, and the IPv6 ones an
all-zero IPv4 address was typed for.
-/

namespace Lsof.Original

open Lsof.Basis Lsof.Core List

def Table.protocol : Table → Protocol
  | .tcp => .tcp
  | .udp => .udp
  | .udplite => .udpLite

namespace Record

def localEnd (r : Record) : SocketAddr :=
  match r.addrs with
  | .v4 laddr _ => { ip := .v4 laddr, port := r.lport }
  | .v6 laddr _ => { ip := .v6 laddr, port := r.lport }

def remoteEnd (r : Record) : SocketAddr :=
  match r.addrs with
  | .v4 _ faddr => { ip := .v4 faddr, port := r.fport }
  | .v6 _ faddr => { ip := .v6 faddr, port := r.fport }

def fileType (r : Record) : FileType :=
  match r.addrs with
  | .v4 _ _ => .ipv4
  | .v6 _ _ => .ipv6

def ends (r : Record) : List SocketAddr :=
  [r.localEnd, r.remoteEnd].filter (fun e => !e.ip.isUnspecified || e.port != 0)

/-- Whether an end is an IPv4-mapped address, which makes both ends IPv4 to the C. -/
def mapped (r : Record) : Bool :=
  r.ends.any (fun e => match e.ip with
    | .v4 _ => false
    | .v6 a => isV4Mapped a)

end Record

/-- The row of a record: `SocketTable::parse_inet` and `socket_row`. -/
structure RowOf (r : Record) (f : OpenFile) : Prop where
  fileType : f.fileType = r.fileType
  socket : ∃ state tcp, f.socket = some
    { protocol := r.table.protocol, local_ := some r.localEnd, remote := some r.remoteEnd, state, tcp }

section Rows

variable {r : Record} {f : OpenFile}

theorem RowOf.isInternet (h : RowOf r f) : f.isInternet = true := by
  obtain ⟨state, tcp, hsocket⟩ := h.socket
  unfold OpenFile.isInternet
  rw [hsocket, h.fileType, Record.fileType]
  cases r.addrs <;> rfl

theorem RowOf.familyMatches_iff (h : RowOf r f) {family : Option Nat}
    (hfamily : ∀ v, family = some v → v = 4 ∨ v = 6) :
    familyMatches family f = true ↔ match r.addrs with
      | .v4 _ _ => family ≠ some 6
      | .v6 _ _ => family ≠ some 4 := by
  unfold familyMatches
  rw [h.fileType, Record.fileType]
  cases family with
  | none => cases r.addrs <;> simp
  | some v =>
    cases hfamily v rfl with
    | inl h4 =>
      subst h4
      cases r.addrs <;> simp
    | inr h6 =>
      subst h6
      cases r.addrs <;> simp

theorem allMatches_eq_selNet {ctx : NetContext} {inet : InetFilter} (h : NetAgree ctx inet)
    (hrow : RowOf r f) : inet.allMatches f = r.selNet ctx := by
  have hbare : inet.bare = ctx.fnet := by
    rw [h.fnet, InetFilter.bare, h.enabled]
    cases inet.all <;> cases inet.specs.isEmpty <;> rfl
  have hversion := hrow.familyMatches_iff h.family
  have h6 := ft_eq_iff h.fnetTy (show 0 < 6 by decide)
  have h4 := ft_eq_iff h.fnetTy (show 0 < 4 by decide)
  unfold InetFilter.allMatches Record.selNet
  rw [hbare, hrow.isInternet, Bool.and_true, Bool.eq_iff_iff, Bool.and_eq_true, hversion]
  cases r.addrs <;> simp [h4, h6]

end Rows

def protoFits (s : InetSpec) (t : Table) : Prop := ∀ p, s.proto = some p → p = t.protocol

def versionFits (s : InetSpec) (r : Record) : Prop :=
  match r.addrs with
  | .v4 _ _ => s.family ≠ some 6
  | .v6 _ _ => s.family ≠ some 4

def hostFits (s : InetSpec) (e : SocketAddr) : Prop := s.host = none ∨ s.host = some e.ip

def portFits (s : InetSpec) (port : Nat) : Prop :=
  s.ports = [] ∨ ∃ range ∈ s.ports, range.1 ≤ port ∧ port ≤ range.2

variable {s : InetSpec}

theorem protoMatches_iff {t : Table} {sock : SocketInfo}
    (hsock : sock.protocol = t.protocol) : s.protoMatches sock = true ↔ protoFits s t := by
  unfold InetSpec.protoMatches protoFits
  rw [hsock]
  cases s.proto with
  | none => simp
  | some p => cases t <;> simp [Table.protocol]

theorem endMatches_iff {e : SocketAddr} :
    s.endMatches (some e) = true ↔
      (!e.ip.isUnspecified || e.port != 0) = true ∧ hostFits s e ∧ portFits s e.port := by
  unfold InetSpec.endMatches hostFits portFits
  cases s.host with
  | none => simp
  | some h => simp [eq_comm (a := h), and_assoc]

/-- The rule of lsof-rs: the row's own version, and an end that fits by address
and port where the specification has either. -/
def MatchedBy (r : Record) (s : InetSpec) : Prop :=
  protoFits s r.table ∧ versionFits s r ∧
    ((s.host = none ∧ s.ports = []) ∨ ∃ e ∈ r.ends, hostFits s e ∧ portFits s e.port)

variable {r : Record}

theorem matches_iff {f : OpenFile} (hrow : RowOf r f) (hparsed : Parsed s) : s.matches f = true ↔ MatchedBy r s := by
  obtain ⟨state, tcp, hsocket⟩ := hrow.socket
  have hversion : familyMatches s.family f = true ↔ versionFits s r :=
    hrow.familyMatches_iff hparsed.family
  have hends : (∃ e ∈ r.ends, hostFits s e ∧ portFits s e.port) ↔
      (s.endMatches (some r.localEnd) || s.endMatches (some r.remoteEnd)) = true := by
    rw [Bool.or_eq_true, endMatches_iff, endMatches_iff]
    simp [Record.ends, mem_filter, or_and_right, exists_or]
  have hproto : s.protoMatches
      { protocol := r.table.protocol, local_ := some r.localEnd, remote := some r.remoteEnd, state
        tcp } = true ↔ protoFits s r.table := protoMatches_iff rfl
  unfold InetSpec.matches MatchedBy
  rw [hsocket, hends, ← hversion, ← hproto]
  dsimp only
  rw [hrow.isInternet]
  generalize s.protoMatches _ = proto, familyMatches s.family f = version,
    (s.endMatches (some r.localEnd) || s.endMatches (some r.remoteEnd)) = atEnd
  cases proto <;> cases version <;> simp [or_iff_not_imp_left]

def Nwad.takes (n : Nwad) (iproto : Text) (ia : InAddr) (p : Nat) : Bool :=
  !n.proto.any (fun proto => proto.toAsciiLowercase != iproto.toAsciiLowercase) &&
    !n.af.any (fun af => af != ia.af) && !n.otherAddress ia &&
    (n.sport == -1 || (decide (n.sport ≤ p) && decide (p ≤ n.eport)))

theorem isNwAddr_eq_any (iproto : Text) (ia : InAddr) (p : Nat) (nwad : List Nwad) :
    isNwAddr iproto ia p nwad = nwad.any (fun n => n.takes iproto ia p) := by
  induction nwad with
  | nil => rfl
  | cons n rest ih =>
    unfold isNwAddr
    rw [ih, any_cons, Nwad.takes]
    cases n.proto.any (fun proto => proto.toAsciiLowercase != iproto.toAsciiLowercase)
    · cases n.af.any (fun af => af != ia.af)
      · cases n.otherAddress ia
        · cases (n.sport == -1 || (decide (n.sport ≤ p) && decide (p ≤ n.eport))) <;> rfl
        · rfl
      · rfl
    · rfl

theorem entInaddr_eq (ctx : NetContext) (iproto : Text) (la fa : Option InEnd) :
    entInaddr ctx iproto la fa =
      (la.toList ++ fa.toList).any (fun e => ctx.nwad.any (fun n => n.takes iproto e.1 e.2)) := by
  unfold entInaddr
  simp only [isNwAddr_eq_any]
  cases ctx.nwad with
  | nil => cases la <;> cases fa <;> rfl
  | cons n rest =>
    cases la <;> cases fa <;> simp [Bool.or_comm]

def Record.seenAs (r : Record) (e : SocketAddr) : InAddr :=
  match e.ip with
  | .v4 a => .inet a
  | .v6 a => if r.mapped then .inet (last4 a) else .inet6 a

def present (e : SocketAddr) : Option SocketAddr :=
  if e.ip.isUnspecified ∧ e.port = 0 then none else some e

theorem ends_eq (r : Record) : r.ends = (present r.localEnd).toList ++ (present r.remoteEnd).toList := by
  have hkept : ∀ e : SocketAddr, (!e.ip.isUnspecified || e.port != 0) = true ↔
      ¬ (e.ip.isUnspecified = true ∧ e.port = 0) := by
    intro e
    cases e.ip.isUnspecified <;> simp
  unfold Record.ends present
  simp only [filter_cons, filter_nil, hkept]
  split <;> split <;> simp_all

theorem end4_eq (r : Record) (addr : BitVec 32) (port : Nat) :
    Record.end4 addr port = (present { ip := .v4 addr, port }).map (fun e => (r.seenAs e, e.port)) := by
  unfold Record.end4 present
  by_cases hzero : addr = 0 ∧ port = 0
  · rw [if_neg (by tauto), if_pos (by simpa [IpAddr.isUnspecified] using hzero)]
    rfl
  · rw [if_pos (by tauto), if_neg (by simpa [IpAddr.isUnspecified] using hzero)]
    rfl

theorem end6_eq (addr : BitVec 128) (port : Nat) :
    Record.end6 addr port = (present { ip := .v6 addr, port }).map (fun _ => addr) := by
  unfold Record.end6 present
  by_cases hzero : addr = 0 ∧ port = 0
  · rw [if_neg (by tauto), if_pos (by simpa [IpAddr.isUnspecified] using hzero)]
    rfl
  · rw [if_pos (by tauto), if_neg (by simpa [IpAddr.isUnspecified] using hzero)]
    rfl

theorem seenAs_end6 (r : Record) (addr : BitVec 128) (port : Nat) :
    (present { ip := .v6 addr, port }).map (fun e => (r.seenAs e, e.port)) =
      (Record.end6 addr port).map (fun a => (if r.mapped then .inet (last4 a) else .inet6 a, port)) := by
  rw [end6_eq, Option.map_map]
  unfold present
  split <;> rfl

theorem mapped_v6 {laddr faddr : BitVec 128} (haddrs : r.addrs = .v6 laddr faddr) :
    r.mapped = ((Record.end6 faddr r.fport).any isV4Mapped || (Record.end6 laddr r.lport).any isV4Mapped) := by
  unfold Record.mapped
  rw [ends_eq, Record.localEnd, Record.remoteEnd, haddrs, end6_eq, end6_eq, Bool.or_comm]
  dsimp only
  unfold present
  split <;> split <;> simp

theorem selNa_eq (ctx : NetContext) (r : Record) :
    r.selNa ctx = r.ends.any (fun e =>
      ctx.nwad.any (fun n => n.takes r.table.iproto (r.seenAs e) e.port)) := by
  have hlookup : r.selNa ctx = entInaddr ctx r.table.iproto
      ((present r.localEnd).map (fun e => (r.seenAs e, e.port)))
      ((present r.remoteEnd).map (fun e => (r.seenAs e, e.port))) := by
    unfold Record.selNa Record.localEnd Record.remoteEnd
    cases haddrs : r.addrs with
    | v4 laddr faddr =>
      dsimp only
      rw [end4_eq r, end4_eq r]
    | v6 laddr faddr =>
      dsimp only
      rw [seenAs_end6, seenAs_end6, mapped_v6 haddrs]
      split <;> simp_all
  rw [hlookup, entInaddr_eq, ends_eq]
  cases present r.localEnd <;> cases present r.remoteEnd <;> rfl

def hostSeen (s : InetSpec) (ia : InAddr) : Prop :=
  match s.host with
  | none => True
  | some (.v4 b) => ia = .inet b
  | some (.v6 b) => ia = .inet6 b

def familySeen (s : InetSpec) (ia : InAddr) : Prop := ∀ af, familyOf s = some af → af = ia.af

section Entry

variable {s : InetSpec} {n : Nwad}

theorem proto_takes (hparsed : Parsed s) (h : Template s n) (t : Table) :
    n.proto.any (fun proto => proto.toAsciiLowercase != t.iproto.toAsciiLowercase) = false ↔ protoFits s t := by
  have hother := hparsed.proto
  unfold protoFits
  rw [h.proto]
  cases hproto : s.proto with
  | none => simp
  | some p =>
    cases p with
    | other name => exact absurd hproto (hother name)
    | tcp => cases t <;> decide
    | udp => cases t <;> decide
    | udpLite => cases t <;> decide

theorem address_takes (h : Template s n) (ia : InAddr) :
    (n.af.any (fun af => af != ia.af) = false ∧ n.otherAddress ia = false) ↔ familySeen s ia ∧ hostSeen s ia := by
  have haddress := h.address
  have haf : n.af.any (fun af => af != ia.af) = false ↔ familySeen s ia := by
    unfold familySeen
    rw [h.af]
    cases familyOf s <;> simp
  rw [haf]
  apply and_congr_right
  intro hseen
  unfold hostSeen
  cases hhost : s.host with
  | none =>
    rw [hhost] at haddress
    cases ia with
    | inet a => simp [Nwad.otherAddress, haddress.1]
    | inet6 a =>
      cases haddress.2 with
      | inl hinet => exact nomatch hseen .inet (h.af.symm.trans hinet)
      | inr hzero => simp [Nwad.otherAddress, hzero]
  | some ip =>
    rw [hhost] at haddress
    cases ip with
    | v4 b =>
      have hlooked := hseen .inet (h.af.symm.trans haddress.2.2)
      cases ia with
      | inet a =>
        show (first4 n.a != 0 && a != first4 n.a) = false ↔ _
        rw [haddress.1, bne_iff_ne.mpr haddress.2.1]
        simp
      | inet6 a => cases hlooked
    | v6 b =>
      have hlooked := hseen .inet6 (h.af.symm.trans haddress.2.2)
      cases ia with
      | inet a => cases hlooked
      | inet6 a =>
        show (n.a != 0 && a != n.a) = false ↔ _
        rw [haddress.1, bne_iff_ne.mpr haddress.2.1]
        simp

theorem range_takes {range : Option (Nat × Nat)} {p : Nat} :
    ((n.withRange range).sport == -1 ||
        (decide ((n.withRange range).sport ≤ p) && decide (p ≤ (n.withRange range).eport))) = true ↔
      ∀ x, range = some x → x.1 ≤ p ∧ p ≤ x.2 := by
  cases range with
  | none => simp [Nwad.withRange]
  | some x =>
    have hne : (x.1 : Int) ≠ -1 := by omega
    simp [Nwad.withRange, hne]

end Entry

theorem EntryOf.takes_iff {n : Nwad} {range : Option (Nat × Nat)}
    (hparsed : Parsed s) (h : EntryOf s range n) (t : Table) (ia : InAddr) (p : Nat) :
    n.takes t.iproto ia p = true ↔
      protoFits s t ∧ (familySeen s ia ∧ hostSeen s ia) ∧ ∀ x, range = some x → x.1 ≤ p ∧ p ≤ x.2 := by
  obtain ⟨template, htemplate, rfl⟩ := h
  rw [← proto_takes hparsed htemplate t, ← address_takes htemplate ia, ← range_takes]
  unfold Nwad.takes
  simp only [Bool.and_eq_true, Bool.not_eq_true', and_assoc]
  exact Iff.rfl

theorem mem_entriesOf {specs : List InetSpec} {entry : InetSpec × Option (Nat × Nat)} :
    entry ∈ entriesOf specs ↔ entry.1 ∈ specs ∧ entry.2 ∈ rangesOf entry.1.ports := by
  unfold entriesOf
  rw [mem_flatMap]
  constructor
  · rintro ⟨s, hs, hentry⟩
    obtain ⟨range, hrange, rfl⟩ := mem_map.mp hentry
    exact ⟨hs, hrange⟩
  · intro h
    exact ⟨entry.1, h.1, mem_map.mpr ⟨entry.2, h.2, rfl⟩⟩

theorem exists_range_iff {port : Nat} :
    (∃ range ∈ rangesOf s.ports, ∀ x, range = some x → x.1 ≤ port ∧ port ≤ x.2) ↔ portFits s port := by
  unfold rangesOf portFits
  cases hports : s.ports with
  | nil => simp
  | cons x rest =>
    obtain ⟨lo, hi⟩ := x
    simp

def SeenBy (r : Record) (s : InetSpec) : Prop :=
  protoFits s r.table ∧ ∃ e ∈ r.ends,
    (familySeen s (r.seenAs e) ∧ hostSeen s (r.seenAs e)) ∧ portFits s e.port

theorem selNa_iff {ctx : NetContext} {inet : InetFilter} (h : NetAgree ctx inet) (r : Record) :
    r.selNa ctx = true ↔ ∃ s ∈ inet.specs, SeenBy r s := by
  have hentry : ∀ e : SocketAddr,
      (∃ n ∈ ctx.nwad, n.takes r.table.iproto (r.seenAs e) e.port = true) ↔
        ∃ s ∈ inet.specs, protoFits s r.table ∧
          (familySeen s (r.seenAs e) ∧ hostSeen s (r.seenAs e)) ∧ portFits s e.port := by
    intro e
    have htakes := exists_mem_iff_of_forall₂ h.nwad (fun n entry hmem hn =>
      hn.takes_iff (h.parsed _ (mem_entriesOf.mp hmem).1) r.table (r.seenAs e) e.port)
    simp only [mem_reverse] at htakes
    rw [htakes]
    constructor
    · rintro ⟨entry, hmem, hproto, hseen, hrange⟩
      have hfound := mem_entriesOf.mp hmem
      exact ⟨entry.1, hfound.1, hproto, hseen, exists_range_iff.mp ⟨entry.2, hfound.2, hrange⟩⟩
    · rintro ⟨s, hs, hproto, hseen, hport⟩
      obtain ⟨range, hmem, hrange⟩ := exists_range_iff.mpr hport
      exact ⟨(s, range), mem_entriesOf.mpr ⟨hs, hmem⟩, hproto, hseen, hrange⟩
  rw [selNa_eq]
  simp only [any_eq_true, hentry]
  constructor
  · rintro ⟨e, he, s, hs, hproto, hfits⟩
    exact ⟨s, hs, hproto, e, he, hfits⟩
  · rintro ⟨s, hs, hproto, e, he, hfits⟩
    exact ⟨e, he, s, hs, hproto, hfits⟩

theorem inet_seen (hparsed : Parsed s) (a : BitVec 32) :
    familySeen s (.inet a) ∧ hostSeen s (.inet a) ↔ s.family ≠ some 6 ∧ (s.host = none ∨ s.host = some (.v4 a)) := by
  unfold familySeen hostSeen familyOf
  cases hhost : s.host with
  | none =>
    have hzero := hparsed.zero hhost
    cases hat : addressed s with
    | true => simpa [InAddr.af] using hzero hat
    | false =>
      by_cases h4 : s.family = some 4
      · simp [h4, InAddr.af]
      · by_cases h6 : s.family = some 6 <;> simp [h4, h6, InAddr.af]
  | some ip =>
    cases ip with
    | v4 b => simpa [InAddr.af, eq_comm (a := a)] using fun _ => hparsed.host4 b hhost
    | v6 b => simp [InAddr.af]

theorem inet6_seen (hparsed : Parsed s) (a : BitVec 128) :
    familySeen s (.inet6 a) ∧ hostSeen s (.inet6 a) ↔
      s.family ≠ some 4 ∧ ((s.host = none ∧ addressed s = false) ∨ s.host = some (.v6 a)) := by
  unfold familySeen hostSeen familyOf
  cases hhost : s.host with
  | none =>
    cases hat : addressed s with
    | true => simp [InAddr.af]
    | false =>
      by_cases h4 : s.family = some 4
      · simp [h4, InAddr.af]
      · by_cases h6 : s.family = some 6 <;> simp [h4, h6, InAddr.af]
  | some ip =>
    cases ip with
    | v4 b => simp [InAddr.af]
    | v6 b => simpa [InAddr.af, eq_comm (a := a)] using fun _ => hparsed.host6 b hhost

/-- `0.0.0.0` was typed for an IPv6 record: no constraint to lsof-rs, an IPv4
address to the C. -/
def ZeroTyped (r : Record) (s : InetSpec) : Prop :=
  r.fileType = .ipv6 ∧ s.host = none ∧ addressed s = true

theorem ip_of_mem_ends {e : SocketAddr} (he : e ∈ r.ends) :
    match r.addrs with
      | .v4 _ _ => ∃ a, e.ip = .v4 a
      | .v6 _ _ => ∃ a, e.ip = .v6 a := by
  unfold Record.ends Record.localEnd Record.remoteEnd at he
  have hmem := mem_of_mem_filter he
  cases haddrs : r.addrs with
  | v4 laddr faddr =>
    simp only [haddrs, mem_cons, not_mem_nil, or_false] at hmem
    cases hmem with
    | inl hl => exact ⟨laddr, by rw [hl]⟩
    | inr hf => exact ⟨faddr, by rw [hf]⟩
  | v6 laddr faddr =>
    simp only [haddrs, mem_cons, not_mem_nil, or_false] at hmem
    cases hmem with
    | inl hl => exact ⟨laddr, by rw [hl]⟩
    | inr hf => exact ⟨faddr, by rw [hf]⟩

theorem seenBy_of_not_mapped (hparsed : Parsed s) (hmapped : r.mapped = false) :
    SeenBy r s ↔ protoFits s r.table ∧ (versionFits s r ∧ ¬ ZeroTyped r s) ∧
      ∃ e ∈ r.ends, hostFits s e ∧ portFits s e.port := by
  have hend : ∀ e ∈ r.ends, (familySeen s (r.seenAs e) ∧ hostSeen s (r.seenAs e)) ↔
      (versionFits s r ∧ ¬ ZeroTyped r s) ∧ hostFits s e := by
    intro e he
    have hip := ip_of_mem_ends he
    unfold versionFits ZeroTyped hostFits Record.seenAs Record.fileType
    cases haddrs : r.addrs with
    | v4 laddr faddr =>
      rw [haddrs] at hip
      obtain ⟨a, ha⟩ := hip
      simp [ha, inet_seen hparsed]
    | v6 laddr faddr =>
      rw [haddrs] at hip
      obtain ⟨a, ha⟩ := hip
      rw [ha]
      simp only [hmapped, Bool.false_eq_true, if_false, inet6_seen hparsed]
      cases s.host <;> cases addressed s <;> simp
  unfold SeenBy
  apply and_congr_right
  intro _
  constructor
  · rintro ⟨e, he, hseen, hport⟩
    have hfits := (hend e he).mp hseen
    exact ⟨hfits.1, e, he, hfits.2, hport⟩
  · rintro ⟨hversion, e, he, hhost, hport⟩
    exact ⟨e, he, (hend e he).mpr ⟨hversion, hhost⟩, hport⟩

theorem addrs_of_mapped (hmapped : r.mapped = true) : ∃ laddr faddr, r.addrs = .v6 laddr faddr := by
  cases haddrs : r.addrs with
  | v6 laddr faddr => exact ⟨laddr, faddr, rfl⟩
  | v4 laddr faddr =>
    obtain ⟨e, he, hv6⟩ := any_eq_true.mp hmapped
    have hip := ip_of_mem_ends he
    rw [haddrs] at hip
    obtain ⟨a, ha⟩ := hip
    rw [ha] at hv6
    cases hv6

theorem seenBy_of_mapped (hparsed : Parsed s) (hmapped : r.mapped = true) :
    SeenBy r s ↔ protoFits s r.table ∧ ∃ e ∈ r.ends, portFits s e.port ∧ s.family ≠ some 6 ∧
      (s.host = none ∨ ∃ a, e.ip = .v6 a ∧ s.host = some (.v4 (last4 a))) := by
  obtain ⟨laddr, faddr, haddrs⟩ := addrs_of_mapped hmapped
  have hend : ∀ e ∈ r.ends, (familySeen s (r.seenAs e) ∧ hostSeen s (r.seenAs e)) ↔
      s.family ≠ some 6 ∧ (s.host = none ∨ ∃ a, e.ip = .v6 a ∧ s.host = some (.v4 (last4 a))) := by
    intro e he
    have hip := ip_of_mem_ends he
    rw [haddrs] at hip
    obtain ⟨a, ha⟩ := hip
    unfold Record.seenAs
    simp [ha, hmapped, inet_seen hparsed]
  unfold SeenBy
  apply and_congr_right
  intro _
  constructor
  · rintro ⟨e, he, hseen, hport⟩
    exact ⟨e, he, hport, (hend e he).mp hseen⟩
  · rintro ⟨e, he, hport, hfits⟩
    exact ⟨e, he, (hend e he).mpr hfits, hport⟩

theorem matchedBy_of_mapped (hmapped : r.mapped = true) :
    MatchedBy r s ↔ protoFits s r.table ∧ ∃ e ∈ r.ends, portFits s e.port ∧ s.family ≠ some 4 ∧
      (s.host = none ∨ s.host = some e.ip) := by
  obtain ⟨laddr, faddr, haddrs⟩ := addrs_of_mapped hmapped
  have hversion : versionFits s r ↔ s.family ≠ some 4 := by rw [versionFits, haddrs]
  unfold MatchedBy
  rw [hversion]
  apply and_congr_right
  intro _
  constructor
  · rintro ⟨hfamily, hbare | ⟨e, he, hhost, hport⟩⟩
    · obtain ⟨e, he, _⟩ := any_eq_true.mp hmapped
      exact ⟨e, he, Or.inl hbare.2, hfamily, Or.inl hbare.1⟩
    · exact ⟨e, he, hport, hfamily, hhost⟩
  · rintro ⟨e, he, hport, hfamily, hhost⟩
    exact ⟨hfamily, Or.inr ⟨e, he, hhost, hport⟩⟩

def Both (r : Record) (s : InetSpec) : Prop :=
  protoFits s r.table ∧
    if r.mapped then s.host = none ∧ s.family = none ∧ ∃ e ∈ r.ends, portFits s e.port
    else versionFits s r ∧ ¬ ZeroTyped r s ∧ ∃ e ∈ r.ends, hostFits s e ∧ portFits s e.port

/-- Only in the C: a mapped end, which an IPv4 address or `-i4` is for. -/
def OnlyC (r : Record) (s : InetSpec) : Prop :=
  protoFits s r.table ∧ r.mapped = true ∧ ∃ e ∈ r.ends, portFits s e.port ∧
    ((s.host = none ∧ s.family = some 4) ∨ ∃ a, e.ip = .v6 a ∧ s.host = some (.v4 (last4 a)))

/-- Only in lsof-rs: a mapped end, which `-i6` or the IPv6 address of an end is
for; or no end at all, or a typed `0.0.0.0`. -/
def OnlyRs (r : Record) (s : InetSpec) : Prop :=
  protoFits s r.table ∧
    if r.mapped then ∃ e ∈ r.ends, portFits s e.port ∧
      ((s.host = none ∧ s.family = some 6) ∨ s.host = some e.ip)
    else versionFits s r ∧ s.host = none ∧
      ((s.ports = [] ∧ r.ends = []) ∨
        (ZeroTyped r s ∧ (s.ports = [] ∨ ∃ e ∈ r.ends, portFits s e.port)))

section Parting

variable {r : Record} {s : InetSpec}

theorem family_cases (hparsed : Parsed s) : s.family = none ∨ s.family = some 4 ∨ s.family = some 6 := by
  cases hfamily : s.family with
  | none => exact Or.inl rfl
  | some v =>
    cases hparsed.family v hfamily with
    | inl h4 => exact Or.inr (Or.inl (by rw [h4]))
    | inr h6 => exact Or.inr (Or.inr (by rw [h6]))

theorem parting_of_mapped (hparsed : Parsed s) (hmapped : r.mapped = true) :
    (Both r s ↔ SeenBy r s ∧ MatchedBy r s) ∧ (OnlyC r s ↔ SeenBy r s ∧ ¬ MatchedBy r s) ∧
      (OnlyRs r s ↔ MatchedBy r s ∧ ¬ SeenBy r s) := by
  rw [seenBy_of_mapped hparsed hmapped, matchedBy_of_mapped hmapped]
  obtain ⟨laddr, faddr, haddrs⟩ := addrs_of_mapped hmapped
  unfold Both OnlyC OnlyRs
  simp only [hmapped, if_true]
  by_cases hproto : protoFits s r.table
  · simp only [hproto, true_and]
    cases hhost : s.host with
    | none =>
      rcases family_cases hparsed with hf | hf | hf <;> simp [hf]
    | some ip =>
      cases ip with
      | v4 b =>
        -- no end of an IPv6 record is an IPv4 address to lsof-rs
        have hno : ∀ e ∈ r.ends, ¬ IpAddr.v4 b = e.ip := by
          intro e he hip
          have hend := ip_of_mem_ends he
          rw [haddrs] at hend
          obtain ⟨a, ha⟩ := hend
          rw [ha] at hip
          cases hip
        have hmatched : ¬ ∃ e ∈ r.ends, portFits s e.port ∧ s.family ≠ some 4 ∧
            (some (IpAddr.v4 b) = none ∨ some (IpAddr.v4 b) = some e.ip) := by
          rintro ⟨e, he, _, _, hip⟩
          simp [hno e he] at hip
        have hrs : ¬ ∃ e ∈ r.ends, portFits s e.port ∧
            ((some (IpAddr.v4 b) = none ∧ s.family = some 6) ∨ some (IpAddr.v4 b) = some e.ip) := by
          rintro ⟨e, he, _, hip⟩
          simp [hno e he] at hip
        have hfamily := hparsed.host4 b hhost
        rw [iff_false_intro hmatched, iff_false_intro hrs]
        simp [hfamily]
      | v6 b =>
        have hfamily := hparsed.host6 b hhost
        simp [hfamily]
  · simp [hproto]

theorem parting_of_not_mapped (hparsed : Parsed s) (hmapped : r.mapped = false) :
    (Both r s ↔ SeenBy r s ∧ MatchedBy r s) ∧ (OnlyC r s ↔ SeenBy r s ∧ ¬ MatchedBy r s) ∧
      (OnlyRs r s ↔ MatchedBy r s ∧ ¬ SeenBy r s) := by
  rw [seenBy_of_not_mapped hparsed hmapped]
  unfold Both OnlyC OnlyRs MatchedBy
  simp only [hmapped, Bool.false_eq_true, if_false, false_and, and_false]
  have hzero : ZeroTyped r s → s.host = none := fun h => h.2.1
  have hfits : s.host = none → ((∃ e ∈ r.ends, hostFits s e ∧ portFits s e.port) ↔
      ∃ e ∈ r.ends, portFits s e.port) := by
    intro hhost
    simp [hostFits, hhost]
  have hports : s.ports = [] → ((∃ e ∈ r.ends, portFits s e.port) ↔ ¬ r.ends = []) := by
    intro hports
    simp [portFits, hports, eq_nil_iff_forall_not_mem]
  generalize (∃ e ∈ r.ends, hostFits s e ∧ portFits s e.port) = atEnd at hfits ⊢
  generalize (∃ e ∈ r.ends, portFits s e.port) = portAtEnd at hfits hports ⊢
  by_cases hhost : s.host = none
  · have hends := hfits hhost
    by_cases hnone : s.ports = []
    · have hsome := hports hnone
      grind
    · grind
  · have htyped : ¬ ZeroTyped r s := fun h => hhost (hzero h)
    grind

theorem parting (hparsed : Parsed s) :
    (Both r s ↔ SeenBy r s ∧ MatchedBy r s) ∧ (OnlyC r s ↔ SeenBy r s ∧ ¬ MatchedBy r s) ∧
      (OnlyRs r s ↔ MatchedBy r s ∧ ¬ SeenBy r s) := by
  cases hmapped : r.mapped with
  | true => exact parting_of_mapped hparsed hmapped
  | false => exact parting_of_not_mapped hparsed hmapped

end Parting

/-- What a sequence of `-i` selects among the records of the tables. Both
programs take the sequence, the bare form is the same, and the specifications
are exactly where a record is selected in common, or each program has a
specification of its own for it, or neither has. -/
theorem fileTest_inet_iff {parse6 : Text → Option (BitVec 128)} {opts : List (Option Text)}
    {sel : Selection} {r : Record} {f : OpenFile} (hwithin : ∀ text, some text ∈ opts → Within text)
    (hopts : Cli.parseInets parse6 {} opts = .ok sel.inet) (hrow : RowOf r f) :
    ∃ ctx, optionsI parse6 {} opts = .ok ctx ∧ sel.fileTest f .net = r.selNet ctx ∧
      (sel.fileTest f .na = r.selNa ctx ↔ (∃ s ∈ sel.inet.specs, Both r s) ∨
          ((∃ s ∈ sel.inet.specs, OnlyC r s) ↔ ∃ s ∈ sel.inet.specs, OnlyRs r s)) := by
  have hsame := optionsI_same parse6 opts NetAgree.nil hwithin
  rw [hopts] at hsame
  generalize optionsI parse6 {} opts = result at hsame ⊢
  cases hsame with
  | @ok ctx _ hagree =>
    refine ⟨ctx, rfl, allMatches_eq_selNet hagree hrow, ?_⟩
    have hmatched : sel.fileTest f .na = true ↔ ∃ s ∈ sel.inet.specs, MatchedBy r s := by
      show sel.inet.specs.any (fun s => s.matches f) = true ↔ _
      rw [any_eq_true]
      exact exists_congr fun s => and_congr_right fun hs => matches_iff hrow (hagree.parsed s hs)
    rw [Bool.eq_iff_iff, hmatched, selNa_iff hagree r]
    refine Iff.comm.trans (exists_iff_exists_iff.trans ?_)
    have hparting := fun s (hs : s ∈ sel.inet.specs) => @parting r s (hagree.parsed s hs)
    apply or_congr
    · exact exists_congr fun s => and_congr_right fun hs => (hparting s hs).1.symm
    · apply iff_congr
      · exact exists_congr fun s => and_congr_right fun hs => (hparting s hs).2.1.symm
      · exact exists_congr fun s => and_congr_right fun hs => (hparting s hs).2.2.symm

/-! ### A mapped end

A socket that listens on `::ffff:10.0.0.1` and the option `-i @10.0.0.1`: the C
takes the end for the IPv4 address, lsof-rs compares it as an IPv6 one. -/

def mappedListener : Record :=
  { table := .tcp, addrs := .v6 0xffff0a000001 0, lport := 80, fport := 0 }

def mappedListenerRow : OpenFile :=
  { fd := .handle 3
    fileType := .ipv6
    socket := some
      { protocol := .tcp
        local_ := some { ip := .v6 0xffff0a000001, port := 80 }
        remote := some { ip := .v6 0, port := 0 }
        state := some (.tcp .listen) } }

theorem mappedListener_row : RowOf mappedListener mappedListenerRow :=
  ⟨rfl, some (.tcp .listen), none, rfl⟩

/-- The specification of `-i @10.0.0.1`. -/
def tenSpec : InetSpec := { text := "@10.0.0.1".toList, host := some (.v4 0x0a000001) }

def tenSelection : Selection := { inet := { enabled := true, specs := [tenSpec] } }

theorem parseInets_ten : Cli.parseInets (fun _ => none) {} [some "@10.0.0.1".toList] = .ok tenSelection.inet := by
  decide

theorem mappedListener_missed :
    ∃ ctx, optionsI (fun _ => none) {} [some "@10.0.0.1".toList] = .ok ctx ∧
      Cli.parseInets (fun _ => none) {} [some "@10.0.0.1".toList] = .ok tenSelection.inet ∧
      RowOf mappedListener mappedListenerRow ∧ mappedListener.selNa ctx = true ∧
      tenSelection.fileTest mappedListenerRow .na = false := by
  refine ⟨{ nwad := [{ af := some .inet, a := setFirst4 0 0x0a000001 }], na := 1 }, ?_,
    parseInets_ten, mappedListener_row, ?_, ?_⟩ <;> decide

theorem fileTest_inet_iff_ten :
    ∃ ctx, optionsI (fun _ => none) {} [some "@10.0.0.1".toList] = .ok ctx ∧
      tenSelection.fileTest mappedListenerRow .net = mappedListener.selNet ctx ∧
      (tenSelection.fileTest mappedListenerRow .na = mappedListener.selNa ctx ↔
        (∃ s ∈ tenSelection.inet.specs, Both mappedListener s) ∨
          ((∃ s ∈ tenSelection.inet.specs, OnlyC mappedListener s) ↔
            ∃ s ∈ tenSelection.inet.specs, OnlyRs mappedListener s)) := by
  refine fileTest_inet_iff ?_ parseInets_ten mappedListener_row
  intro text hmem
  have htext : text = "@10.0.0.1".toList := by simpa using hmem
  exact Within.of_length (by rw [htext]; decide)

end Lsof.Original
