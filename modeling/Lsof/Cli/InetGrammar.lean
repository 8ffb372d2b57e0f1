import Lsof.Cli.InetAddress

/-! # The grammar of `-i`

What an `-i` may say: a version, a protocol, an address, a list of ports.
`parse_inet` takes a text exactly where the grammar does, enters what the grammar
reads in it, and leaves the filter as it was where it refuses.
-/

namespace Lsof.Cli

open Lsof.Basis Lsof.Core List

def protocolNames : List (Text × Protocol) :=
  [("tcp".toList, .tcp), ("udp".toList, .udp), ("udplite".toList, .udpLite)]

/-- A protocol in any case, or none. -/
inductive ProtoText : Text → Option Protocol → Prop where
  | absent : ProtoText [] none
  | named {token : Text} {proto : Protocol} (h : (token.toAsciiLowercase, proto) ∈ protocolNames) :
      ProtoText token (some proto)

theorem inetProtocol_iff {token : Text} {proto : Protocol} :
    inetProtocol token = some proto ↔ (token.toAsciiLowercase, proto) ∈ protocolNames := by
  rw [inetProtocol]
  dsimp only
  generalize token.toAsciiLowercase = name
  constructor
  · intro h
    split at h
    next htcp => exact Option.some.inj h ▸ beq_iff_eq.mp htcp ▸ by decide
    split at h
    next hudp => exact Option.some.inj h ▸ beq_iff_eq.mp hudp ▸ by decide
    split at h
    next hlite => exact Option.some.inj h ▸ beq_iff_eq.mp hlite ▸ by decide
    · exact absurd h nofun
  · intro h
    simp only [protocolNames, mem_cons, Prod.mk.injEq, not_mem_nil, or_false] at h
    rcases h with ⟨rfl, rfl⟩ | ⟨rfl, rfl⟩ | ⟨rfl, rfl⟩
    · rfl
    · rfl
    · rfl

theorem not_mem_of_protocolNames {token : Text} {proto : Protocol} (h : (token.toAsciiLowercase, proto) ∈ protocolNames)
    {c : Char} (hc : ∀ entry ∈ protocolNames, c.toLower ∉ entry.1) : c ∉ token :=
  fun hmem => hc _ h (mem_map_of_mem hmem)

def Opens (rest : Text) : Prop := rest = [] ∨ rest.head? = some '@' ∨ rest.head? = some ':'

variable {proto : Option Protocol}

theorem readProtocol_of_protoText {text rest : Text} (h : ProtoText text proto)
    (hrest : Opens rest) : readProtocol (text ++ rest) = .ok (proto, rest) := by
  cases h with
  | absent =>
    rw [nil_append, readProtocol, if_pos]
    rcases hrest with rfl | hat | hcolon
    · rfl
    · rw [hat]
      simp
    · rw [hcolon]
      simp
  | @named token proto hnamed =>
    have hall : ∀ c ∈ text, (c != '@' && c != ':') = true := by
      intro c hc
      have hat : '@' ∉ text := not_mem_of_protocolNames hnamed (by decide)
      have hcolon : ':' ∉ text := not_mem_of_protocolNames hnamed (by decide)
      rw [Bool.and_eq_true, bne_iff_ne, bne_iff_ne]
      exact ⟨fun h => hat (h ▸ hc), fun h => hcolon (h ▸ hc)⟩
    have hne : text ≠ [] := by
      rintro rfl
      simp [protocolNames, Text.toAsciiLowercase] at hnamed
    have hstop : rest.takeWhile (fun c => c != '@' && c != ':') = [] ∧
        rest.dropWhile (fun c => c != '@' && c != ':') = rest := by
      cases rest with
      | nil => exact ⟨rfl, rfl⟩
      | cons c rest =>
        rcases hrest with hnil | hat | hcolon
        · exact absurd hnil (cons_ne_nil _ _)
        · obtain rfl := Option.some.inj hat
          exact ⟨rfl, rfl⟩
        · obtain rfl := Option.some.inj hcolon
          exact ⟨rfl, rfl⟩
    obtain ⟨c, more, rfl⟩ := exists_cons_of_ne_nil hne
    have hc := hall c mem_cons_self
    rw [Bool.and_eq_true, bne_iff_ne, bne_iff_ne] at hc
    rw [readProtocol, if_neg (by simp [hc.1, hc.2])]
    dsimp only
    rw [takeWhile_append_of_pos hall, dropWhile_append_of_pos hall, hstop.1, hstop.2, append_nil,
      inetProtocol_iff.mpr hnamed]

theorem protoText_of_readProtocol {s rest : Text}
    (h : readProtocol s = .ok (proto, rest)) : ∃ text, s = text ++ rest ∧ ProtoText text proto := by
  unfold readProtocol at h
  split at h
  · obtain ⟨rfl, rfl⟩ := Prod.mk.inj (Except.ok.inj h)
    exact ⟨[], rfl, .absent⟩
  · dsimp only at h
    split at h
    · exact absurd h nofun
    next found hfound =>
      obtain ⟨rfl, rfl⟩ := Prod.mk.inj (Except.ok.inj h)
      exact ⟨_, takeWhile_append_dropWhile.symm, .named (inetProtocol_iff.mp hfound)⟩

/-- A specification after its version, and what it says. -/
def SpecText (parse6 : Text → Option (BitVec 128)) (family : Option Nat) (s : Text) (proto : Option Protocol)
    (host : Option IpAddr) (ports : List (Nat × Nat)) : Prop :=
  ∃ protoText hostText portText, s = protoText ++ (hostText ++ portText) ∧ ProtoText protoText proto ∧
    HostText parse6 family hostText host ∧ PortText portText ports

def addressGiven (host : Option IpAddr) : Option IpAddr := host.filter fun ip => !ip.isUnspecified

variable {rs : List (Nat × Nat)} {text : Text}

theorem PortText.follows (h : PortText text rs) : Follows text := by
  cases h with
  | absent => exact .inl rfl
  | list => exact .inr rfl

variable {parse6 : Text → Option (BitVec 128)} {family : Option Nat} {host : Option IpAddr}

theorem HostText.opens {text rest : Text}
    (h : HostText parse6 family text host) (hrest : Follows rest) : Opens (text ++ rest) := by
  cases h with
  | absent => exact hrest.imp id .inr
  | dotted => exact .inr (.inl rfl)
  | bracketed => exact .inr (.inl rfl)
  | mapped => exact .inr (.inl rfl)

theorem PortItem.not_mem {item : Text} {r : Nat × Nat} (h : PortItem item r) : ']' ∉ item := by
  cases h with
  | port hds => exact hds.not_mem rfl
  | range hlow hhigh =>
    simp only [mem_append, mem_cons, not_or]
    exact ⟨hlow.not_mem rfl, by decide, hhigh.not_mem rfl⟩

theorem PortList.not_mem (h : PortList text rs) : ']' ∉ text := by
  induction h with
  | last hitem => exact hitem.not_mem
  | trailing hitem =>
    simp only [mem_append, mem_singleton, not_or]
    exact ⟨hitem.not_mem, by decide⟩
  | noHigh hlow =>
    simp only [mem_append, mem_singleton, not_or]
    exact ⟨hlow.not_mem rfl, by decide⟩
  | more hitem _ ih =>
    simp only [mem_append, mem_cons, not_or]
    exact ⟨hitem.not_mem, by decide, ih⟩

theorem PortText.not_mem (h : PortText text rs) : ']' ∉ text := by
  cases h with
  | absent => exact not_mem_nil
  | list hlist => exact not_mem_cons_of_ne_of_not_mem (by decide) hlist.not_mem

theorem ProtoText.not_mem (h : ProtoText text proto) {c : Char}
    (hc : ∀ entry ∈ protocolNames, c.toLower ∉ entry.1) : c ∉ text := by
  cases h with
  | absent => exact not_mem_nil
  | named hnamed => exact not_mem_of_protocolNames hnamed hc

theorem SpecText.head?_ne {s : Text} {ports : List (Nat × Nat)}
    (h : SpecText parse6 family s proto host ports) {c : Char} (hc : ∀ entry ∈ protocolNames, c.toLower ∉ entry.1)
    (hat : c ≠ '@') (hcolon : c ≠ ':') : s.head? ≠ some c := by
  obtain ⟨protoText, hostText, portText, rfl, hproto, hhost, hports⟩ := h
  intro hhead
  cases protoText with
  | nil =>
    rcases hhost.opens hports.follows with hnil | hopens | hopens
    · rw [nil_append, hnil] at hhead
      exact absurd hhead nofun
    · exact hat (Option.some.inj (hhead.symm.trans hopens))
    · exact hcolon (Option.some.inj (hhead.symm.trans hopens))
  | cons d protoText => exact hproto.not_mem hc (Option.some.inj hhead ▸ mem_cons_self)

theorem SpecText.of_nil {ports : List (Nat × Nat)} (h : SpecText parse6 family [] proto host ports) :
    proto = none ∧ host = none ∧ ports = [] := by
  obtain ⟨protoText, hostText, portText, htext, hproto, hhost, hports⟩ := h
  obtain ⟨rfl, hrest⟩ := append_eq_nil_iff.mp htext.symm
  obtain ⟨rfl, rfl⟩ := append_eq_nil_iff.mp hrest
  refine ⟨?_, ?_, ?_⟩
  · cases hproto with
    | absent => rfl
    | named hnamed => simp [protocolNames, Text.toAsciiLowercase] at hnamed
  · cases hhost
    rfl
  · cases hports
    rfl

theorem readSpec_iff {inet inet' : InetFilter} {text s : Text} :
    readSpec parse6 inet text family s = .ok inet' ↔
      ∃ proto host ports, SpecText parse6 family s proto host ports ∧
        (proto ≠ none ∨ addressGiven host ≠ none ∨ ports ≠ []) ∧
        enteredAddresses inet + max ports.length 1 ≤ maxNwad ∧
        inet' = { inet with
          enabled := true
          specs := inet.specs ++ [{ text, proto, family, ports, host := addressGiven host }] } := by
  constructor
  · intro h
    unfold readSpec at h
    cases hproto : readProtocol s with
    | error e => simp [hproto, bind, Except.bind] at h
    | ok found =>
      obtain ⟨proto, s₁⟩ := found
      cases hhost : readHost parse6 family s₁ with
      | error e => simp [hproto, hhost, bind, Except.bind] at h
      | ok found =>
        obtain ⟨host, s₂⟩ := found
        cases htail : readTail proto (host.filter fun ip => !ip.isUnspecified)
            { entries := enteredAddresses inet } s₂ with
        | error e => simp [hproto, hhost, htail, bind, Except.bind] at h
        | ok st =>
          simp only [hproto, hhost, htail, bind, Except.bind, pure, Except.pure, Except.ok.injEq] at h
          obtain ⟨protoText, rfl, hprotoText⟩ := protoText_of_readProtocol hproto
          obtain ⟨hostText, rfl, hhostText⟩ := hostText_of_readHost hhost
          obtain ⟨ports, hportText, hsome, hroom, rfl⟩ := readTail_iff.mp htail
          exact ⟨proto, host, ports, ⟨protoText, hostText, s₂, rfl, hprotoText, hhostText, hportText⟩, hsome,
            hroom, h.symm⟩
  · rintro ⟨proto, host, ports, ⟨protoText, hostText, portText, rfl, hproto, hhost, hports⟩, hsome, hroom, rfl⟩
    have hread := readProtocol_of_protoText hproto (hhost.opens hports.follows)
    have hhostRead := readHost_of_hostText hhost hports.follows hports.not_mem
    have htail : readTail proto (addressGiven host) { entries := enteredAddresses inet } portText =
        .ok { entries := enteredAddresses inet + max ports.length 1, ports := [] ++ ports } :=
      readTail_iff.mpr ⟨ports, hports, hsome, hroom, rfl⟩
    unfold readSpec
    unfold addressGiven at htail
    simp only [hread, hhostRead, htail, bind, Except.bind, pure, Except.pure]
    rfl

section Run

variable (parse6 : Text → Option (BitVec 128)) (inet : InetFilter)

def outcome (r : Except InetError InetFilter) : Except InetError Unit × InetFilter :=
  match r with
  | .ok inet' => (.ok (), inet')
  | .error e => (.error e, inet)

theorem run_lift_bind {α β : Type} (r : Except InetError α) (f : α → ExceptT InetError (StateM InetFilter) β) :
    ((liftM r : ExceptT InetError (StateM InetFilter) α) >>= f).run.run inet =
      match r with
      | .error e => (.error e, inet)
      | .ok a => (f a).run.run inet := by
  cases r with
  | error e => rfl
  | ok a => rfl

theorem run_get_bind {β : Type} (f : InetFilter → ExceptT InetError (StateM InetFilter) β) :
    ((get : ExceptT InetError (StateM InetFilter) InetFilter) >>= f).run.run inet = (f inet).run.run inet := rfl

theorem run_parseSpecInto (text : Text) (family : Option Nat) (s : Text) :
    (parseSpecInto parse6 text family s).run.run inet = outcome inet (readSpec parse6 inet text family s) := by
  unfold parseSpecInto readSpec
  rw [run_lift_bind]
  cases readProtocol s with
  | error e => rfl
  | ok found =>
    dsimp only
    rw [run_lift_bind]
    cases hhost : readHost parse6 family found.2 with
    | error e =>
      simp only [bind, Except.bind, hhost]
      rfl
    | ok host =>
      dsimp only
      rw [run_get_bind, run_lift_bind]
      cases htail : readTail found.1 (host.1.filter fun ip => !ip.isUnspecified)
          { entries := enteredAddresses inet } host.2 with
      | error e =>
        simp only [bind, Except.bind, hhost, htail]
        rfl
      | ok st =>
        simp only [bind, Except.bind, hhost, htail]
        rfl

theorem run_parseInetInto (spec : Option Text) :
    (parseInetInto parse6 spec).run.run inet = outcome inet (parseInet parse6 inet spec) := by
  cases spec with
  | none => rfl
  | some spec =>
    unfold parseInetInto parseInet
    dsimp only
    split
    · rfl
    · exact run_parseSpecInto parse6 inet _ _ _
    · rw [run_get_bind]
      exact run_parseSpecInto parse6 inet _ _ _

/-- The version a specification begins with or inherits, and what follows it. -/
inductive VersionText : Text → Option Nat → Text → Prop where
  | four {s : Text} : VersionText ('4' :: s) (some 4) s
  | six {s : Text} : VersionText ('6' :: s) (some 6) s
  | inherited {s : Text} : VersionText s (if inet.all then inet.allFamily else none) s

/-- A text the grammar takes, and the filter after it. -/
inductive Accepted (text : Text) : InetFilter → Prop where
  | four (h : text = ['4']) : Accepted text (inet.addAll (some 4))
  | six (h : text = ['6']) : Accepted text (inet.addAll (some 6))
  | spec {family : Option Nat} {s : Text} {proto : Option Protocol} {host : Option IpAddr}
      {ports : List (Nat × Nat)} (hversion : VersionText inet text family s)
      (hspec : SpecText parse6 family s proto host ports)
      (hsome : proto ≠ none ∨ addressGiven host ≠ none ∨ ports ≠ [])
      (hroom : enteredAddresses inet + max ports.length 1 ≤ maxNwad) :
      Accepted text { inet with
        enabled := true
        specs := inet.specs ++ [{ text, proto, family, ports, host := addressGiven host }] }

theorem readVersion_of_ne {s : Text} (hfour : s.head? ≠ some '4') (hsix : s.head? ≠ some '6') :
    readVersion s = none := by
  unfold readVersion
  split
  · exact absurd rfl hfour
  · exact absurd rfl hsix
  · rfl

theorem parseInet_of_versionText {text s : Text} {family : Option Nat} (h : VersionText inet text family s)
    (hne : s ≠ []) (hfour : s.head? ≠ some '4') (hsix : s.head? ≠ some '6') :
    parseInet parse6 inet (some text) = readSpec parse6 inet text family s := by
  obtain ⟨c, rest, rfl⟩ := exists_cons_of_ne_nil hne
  cases h with
  | four => rfl
  | six => rfl
  | inherited => rw [parseInet, readVersion_of_ne hfour hsix]

theorem parseInet_iff {text : Text} {inet' : InetFilter} :
    parseInet parse6 inet (some text) = .ok inet' ↔ Accepted parse6 inet text inet' := by
  constructor
  · intro h
    have hspec : ∀ {family s}, VersionText inet text family s → readSpec parse6 inet text family s = .ok inet' →
        Accepted parse6 inet text inet' := by
      intro family s hversion hread
      obtain ⟨proto, host, ports, hspec, hsome, hroom, rfl⟩ := readSpec_iff.mp hread
      exact .spec hversion hspec hsome hroom
    unfold parseInet at h
    dsimp only at h
    unfold readVersion at h
    split at h
    next ft hversion =>
      split at hversion
      · cases hversion
        exact Except.ok.inj h ▸ .four rfl
      · cases hversion
        exact Except.ok.inj h ▸ .six rfl
      · exact absurd hversion nofun
    next ft rest _ hversion =>
      split at hversion
      · cases hversion
        exact hspec .four h
      · cases hversion
        exact hspec .six h
      · exact absurd hversion nofun
    next => exact hspec .inherited h
  · intro h
    cases h with
    | four htext => rw [htext]; rfl
    | six htext => rw [htext]; rfl
    | @spec family s proto host ports hversion hspec hsome hroom =>
      have hne : s ≠ [] := by
        rintro rfl
        obtain ⟨rfl, rfl, rfl⟩ := hspec.of_nil
        simp [addressGiven] at hsome
      rw [parseInet_of_versionText parse6 inet hversion hne
        (hspec.head?_ne (by decide) (by decide) (by decide)) (hspec.head?_ne (by decide) (by decide) (by decide))]
      exact readSpec_iff.mpr ⟨proto, host, ports, hspec, hsome, hroom, rfl⟩

/-- `parse_inet` takes the texts the grammar takes, with what it reads in them, and
refuses the others without a change. -/
theorem parseInetInto_iff (text : Text) :
    (∀ inet', (parseInetInto parse6 (some text)).run.run inet = (.ok (), inet') ↔ Accepted parse6 inet text inet') ∧
      ∀ e, ((parseInetInto parse6 (some text)).run.run inet).1 = .error e →
        ((parseInetInto parse6 (some text)).run.run inet).2 = inet := by
  rw [run_parseInetInto]
  cases hparse : parseInet parse6 inet (some text) with
  | error e =>
    refine ⟨fun inet' => ⟨nofun, fun haccepted => ?_⟩, fun _ _ => rfl⟩
    exact absurd (hparse.symm.trans ((parseInet_iff parse6 inet).mpr haccepted)) nofun
  | ok inet' =>
    refine ⟨fun other => ⟨fun h => ?_, fun haccepted => ?_⟩, fun e h => absurd h nofun⟩
    · obtain rfl := (Prod.mk.inj h).2
      exact (parseInet_iff parse6 inet).mp hparse
    · have hsame := hparse.symm.trans ((parseInet_iff parse6 inet).mpr haccepted)
      rw [Except.ok.inj hsame]
      rfl

end Run

/-- An IPv4 address in brackets is refused under version 4, as any address in
brackets is. -/
theorem parseInet_mapped_under_four :
    let parse6 : Text → Option (BitVec 128) := fun t =>
      if t = "::ffff:1.2.3.4".toList then some 0xffff01020304 else none
    let entered : Text → Option Nat → InetFilter := fun text family =>
      { enabled := true, specs := [{ text, family, proto := none, ports := [], host := some (.v4 0x01020304) }] }
    parseInet parse6 {} (some "4@[::ffff:1.2.3.4]".toList) = .error .ipv6Prohibited ∧
      parseInet parse6 {} (some "4@1.2.3.4".toList) = .ok (entered "4@1.2.3.4".toList (some 4)) ∧
      parseInet parse6 {} (some "@[::ffff:1.2.3.4]".toList) = .ok (entered "@[::ffff:1.2.3.4]".toList none) := by
  decide +kernel

end Lsof.Cli
