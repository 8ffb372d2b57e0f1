import Lsof.Original.NetEntries

/-! # `-i` in both programs

Both read a sequence of `-i` the same way: where every number fits an `int`
they refuse the same specifications, and what the C enters into its list are
the specifications lsof-rs keeps.
-/

namespace Lsof.Original

open Lsof.Basis Lsof.Core List

variable {proto : Option Protocol} {host : Option IpAddr}

theorem not_mem_of_readPorts {st' : Cli.Entering} (t : Text) {fresh : Bool} {e : Cli.PortEntry} {st : Cli.Entering}
    (h : Cli.readPorts proto host fresh e st t = .ok st') : '@' ∉ t := by
  induction t generalizing fresh e st with
  | nil => exact not_mem_nil
  | cons c t ih =>
    unfold Cli.readPorts at h
    have hstep : c ≠ '@' ∧ '@' ∉ t := by
      by_cases hfresh : (fresh && !c.isDigit) = true
      · rw [if_pos hfresh] at h
        cases h
      · rw [if_neg hfresh] at h
        by_cases hcomma : c = ','
        · rw [if_pos hcomma] at h
          refine ⟨by simp [hcomma], ?_⟩
          split at h
          · cases h
          · cases t with
            | nil => exact not_mem_nil
            | cons d t => exact ih h
        · rw [if_neg hcomma] at h
          by_cases hdash : c = '-'
          · rw [if_pos hdash] at h
            refine ⟨by simp [hdash], ?_⟩
            split at h
            · cases h
            · exact ih h
          · rw [if_neg hdash] at h
            split at h
            · rename_i hdigit
              refine ⟨?_, ih h⟩
              rintro rfl
              exact absurd hdigit (by decide)
            · cases h
    rw [mem_cons, not_or]
    exact ⟨hstep.1.symm, hstep.2⟩

theorem not_mem_of_readTail
    {st st' : Cli.Entering} {s : Text} (h : Cli.readTail proto host st s = .ok st') : '@' ∉ s := by
  unfold Cli.readTail at h
  split at h
  · exact not_mem_nil
  · split at h
    · cases h
    · rw [mem_cons, not_or]
      exact ⟨by decide, not_mem_of_readPorts _ h⟩
  · cases h

variable {s s' : Text}

theorem mem_of_readProtocol (h : Cli.readProtocol s = .ok (proto, s')) : '@' ∈ s ↔ '@' ∈ s' := by
  unfold Cli.readProtocol at h
  split at h
  · cases h
    rfl
  · dsimp only at h
    split at h
    · cases h
    · cases h
      conv_lhs => rw [← takeWhile_append_dropWhile (l := s) (p := fun c => c != '@' && c != ':')]
      rw [mem_append, or_iff_right]
      intro hmem
      exact absurd (mem_takeWhile_imp hmem) (by decide)

theorem suffix_of_readProtocol (h : Cli.readProtocol s = .ok (proto, s')) : s' <:+ s := by
  unfold Cli.readProtocol at h
  split at h
  · cases h
    exact suffix_rfl
  · dsimp only at h
    split at h
    · cases h
    · cases h
      exact dropWhile_suffix _

theorem suffix_of_ipv4Addr {s : Text} {found : BitVec 32 × Text}
    (h : Cli.ipv4Addr s = some found) : found.2 <:+ s := by
  unfold Cli.ipv4Addr at h
  dsimp only at h
  split at h
  · cases h
  · split at h
    · cases h
      exact dropWhile_suffix _
    · cases h

/-- An address of a version that is not excluded. -/
def Permitted (family : Option Nat) : IpAddr → Prop
  | .v4 _ => family ≠ some 6
  | .v6 _ => family ≠ some 4

variable {family : Option Nat}

theorem readAddress_ok {parse6 : Text → Option (BitVec 128)}
    {s : Text} {read : IpAddr × Text} (h : Cli.readAddress parse6 family s = .ok read) :
    read.2 <:+ s ∧ Permitted family read.1 := by
  unfold Cli.readAddress at h
  split at h
  · cases h
  · split at h
    · rename_i hfound
      split at h
      · cases h
      · rename_i h6
        cases h
        exact ⟨suffix_of_ipv4Addr hfound, by simpa [Permitted] using h6⟩
    · split at h
      · split at h
        · cases h
        · rename_i h4
          split at h
          · cases h
          · rename_i hsplit
            have hsuffix := (Text.suffix_of_splitLast hsplit).trans (suffix_cons '[' _)
            split at h
            · cases h
            · split at h
              · cases h
              · split at h
                · split at h
                  · cases h
                  · rename_i h6
                    cases h
                    exact ⟨hsuffix, by simpa [Permitted] using h6⟩
                · cases h
                  exact ⟨hsuffix, by simpa [Permitted] using h4⟩
      · cases h

structure HostRead (n : Nwad) (family : Option Nat) (s : Text) (a : Nwad × Text)
    (b : Option IpAddr × Text) : Prop where
  rest : a.2 = b.2
  suffix : b.2 <:+ s
  proto : a.1.proto = n.proto
  typed : ∀ ip, b.1 = some ip → HasAddress a.1 ip ∧ '@' ∈ s
  permitted : ∀ ip, b.1 = some ip → Permitted family ip
  untyped : b.1 = none → a.1 = n ∧ b.2 = s

theorem enterHost_same (parse6 : Text → Option (BitVec 128)) {ft : Nat}
    (hft : ft = family.getD 0) (n : Nwad) {s : Text} (hwithin : Within s) :
    SameResult (HostRead n family s) (enterHost parse6 ft n s) (Cli.readHost parse6 family s) := by
  have hnone : SameResult (HostRead n family s) (.ok (n, s)) (.ok (none, s)) :=
    .ok ⟨rfl, suffix_rfl, rfl, fun _ h => (nomatch h), fun _ h => (nomatch h), fun _ => ⟨rfl, rfl⟩⟩
  cases s with
  | nil => exact hnone
  | cons c after =>
    by_cases hat : c = '@'
    · subst hat
      have haddress := (enterAddress_same parse6 hft n hwithin.tail).and_right
        (fun b hb => readAddress_ok hb)
      show SameResult _ (enterAddress parse6 ft n after)
        (Except.map _ (Cli.readAddress parse6 family after))
      generalize enterAddress parse6 ft n after = x, Cli.readAddress parse6 family after = y
        at haddress
      cases haddress with
      | error e => exact .error e
      | ok h =>
        refine .ok ⟨h.1.2.2, h.2.1.trans (suffix_cons _ _), h.1.2.1, ?_, ?_, fun h => nomatch h⟩
        · rintro ip ⟨rfl⟩
          exact ⟨h.1.1, mem_cons_self⟩
        · rintro ip ⟨rfl⟩
          exact h.2.2
    · have hc : enterHost parse6 ft n (c :: after) = .ok (n, c :: after) := by
        unfold enterHost
        split <;> simp_all
      have hr : Cli.readHost parse6 family (c :: after) = .ok (none, c :: after) := by
        unfold Cli.readHost
        split <;> simp_all
      rw [hc, hr]
      exact hnone

variable {n n' : Nwad}

theorem HostRead.address (hn : n.a = 0) (h : HostRead n family s (n', s') (host, s')) :
    SameAddress n' (host.filter (fun ip => !ip.isUnspecified)) := by
  cases host with
  | none =>
    have hsame : n' = n := (h.untyped rfl).1
    show first4 n'.a = 0 ∧ (n'.af = some .inet ∨ n'.a = 0)
    rw [hsame, hn]
    exact ⟨rfl, Or.inr rfl⟩
  | some ip => exact (h.typed ip rfl).1.same

theorem HostRead.template {s s' text : Text} {ports : List (Nat × Nat)} {ft : Nat}
    (hft : ft = family.getD 0) (h : HostRead n family s (n', s') (host, s'))
    (hproto : n.proto = proto.map protoName) (hn : n.a = 0)
    (haf : n.af = if ft = 4 then some .inet else if ft = 6 then some .inet6 else none)
    (htext : '@' ∈ text ↔ '@' ∈ s) (htail : '@' ∉ s') :
    Template { text, proto, family, ports, host := host.filter (fun ip => !ip.isUnspecified) } n' := by
  refine ⟨h.proto.trans hproto, ?_, h.address hn⟩
  cases host with
  | none =>
    have hsame : n' = n := (h.untyped rfl).1
    have hrest : s' = s := (h.untyped rfl).2
    have hat : addressed { text, proto, family, ports, host := none } = false := by
      simpa [addressed, htext, ← hrest] using htail
    show n'.af = if addressed { text, proto, family, ports, host := none } = true then _ else _
    rw [hsame, haf, hat]
    simp only [ft_eq_iff hft (show 0 < 4 by decide), ft_eq_iff hft (show 0 < 6 by decide),
      Bool.false_eq_true, if_false]
  | some ip =>
    obtain ⟨hread, hmem⟩ := h.typed ip rfl
    have hat : text.contains '@' = true := by simpa using htext.mpr hmem
    cases ip with
    | v4 b =>
      rw [hread.2, Option.filter_some]
      split
      · rfl
      · exact (if_pos hat).symm
    | v6 b =>
      rw [hread.2.2, Option.filter_some, if_pos (by simpa [IpAddr.isUnspecified] using hread.2.1)]
      rfl

theorem proto_of_readProtocol
    (h : Cli.readProtocol s = .ok (proto, s')) (name : Text) : proto ≠ some (.other name) := by
  unfold Cli.readProtocol at h
  split at h
  · cases h
    exact nofun
  · dsimp only at h
    split at h
    · cases h
    · rename_i p hp
      cases h
      unfold Cli.inetProtocol at hp
      dsimp only at hp
      split_ifs at hp <;> cases hp <;> simp

theorem HostRead.parsed {s s' text : Text} {ports : List (Nat × Nat)}
    (h : HostRead n family s (n', s') (host, s')) (hproto : ∀ name, proto ≠ some (.other name))
    (hfamily : ∀ ft, family = some ft → ft = 4 ∨ ft = 6) (htext : '@' ∈ text ↔ '@' ∈ s) (htail : '@' ∉ s') :
    Parsed { text, proto, family, ports, host := host.filter (fun ip => !ip.isUnspecified) } where
  proto := hproto
  family := hfamily
  host4 := fun b hb => h.permitted (.v4 b) (Option.filter_eq_some_iff.mp hb).1
  host6 := fun b hb => h.permitted (.v6 b) (Option.filter_eq_some_iff.mp hb).1
  zero := by
    intro hnone hat
    have hmem : '@' ∈ s := htext.mp (by simpa [addressed] using hat)
    cases host with
    | none =>
      have hrest : s' = s := (h.untyped rfl).2
      exact absurd (hrest ▸ hmem) htail
    | some ip =>
      have hread := h.typed ip rfl
      cases ip with
      | v4 b => exact h.permitted _ rfl
      | v6 b =>
        have hzero : b = 0 := by simpa [IpAddr.isUnspecified, Option.filter_some] using hnone
        exact absurd hzero hread.1.2.1

variable {inet : InetFilter}

theorem NetAgree.enter {ctx ctx' : NetContext} (h : NetAgree ctx inet)
    {n : Nwad} {st : Cli.Entering} (hentered : TailEntered ctx n ctx' st) {spec : InetSpec}
    (hports : spec.ports = st.ports) (htemplate : Template spec n) (hparsed : Parsed spec) :
    NetAgree ctx' { inet with enabled := true, specs := inet.specs ++ [spec] } where
  fnet := hentered.fnet.trans h.fnet
  fnetTy := hentered.fnetTy.trans h.fnetTy
  family := h.family
  enabled := by simp
  na := by
    rw [hentered.count, h.na, ← hports]
    simp [Cli.enteredAddresses]
  parsed := by
    intro s hs
    rw [mem_append, mem_singleton] at hs
    cases hs with
    | inl hold => exact h.parsed s hold
    | inr hnew => exact hnew ▸ hparsed
  nwad := by
    rw [hentered.nwad, ← hports]
    have hentries : entriesOf (inet.specs ++ [spec]) =
        entriesOf inet.specs ++ (rangesOf spec.ports).map (fun r => (spec, r)) := by
      simp [entriesOf]
    rw [hentries]
    refine rel_append h.nwad ?_
    rw [forall₂_map_left_iff, forall₂_map_right_iff, forall₂_same]
    exact fun range _ => ⟨n, htemplate, rfl⟩

theorem enterSpec_same (parse6 : Text → Option (BitVec 128)) {ctx : NetContext} {inet : InetFilter}
    (h : NetAgree ctx inet) {family : Option Nat} {ft : Nat} (hft : ft = family.getD 0)
    (hfamily : ∀ v, family = some v → v = 4 ∨ v = 6) {text s : Text}
    (htext : '@' ∈ text ↔ '@' ∈ s) (hwithin : Within s) :
    SameResult NetAgree (enterSpec parse6 ctx ft s) (Cli.readSpec parse6 inet text family s) := by
  unfold enterSpec Cli.readSpec
  refine ((protocolName_same s).and_right (fun b hb => And.intro (mem_of_readProtocol hb)
      (And.intro (suffix_of_readProtocol hb) (proto_of_readProtocol hb)))).bind ?_
  rintro ⟨name, s₁⟩ ⟨proto, s₁'⟩ ⟨⟨hname, hs₁⟩, hmem, hsuffix, hproto⟩
  dsimp only at hname hs₁ hmem hsuffix hproto ⊢
  subst hs₁
  have hwithin₁ : Within s₁ := hwithin.of_infix hsuffix.isInfix
  refine (enterHost_same parse6 hft _ hwithin₁).bind ?_
  rintro ⟨n, s₂⟩ ⟨host, s₂'⟩ hhost
  have hs₂ : s₂ = s₂' := hhost.rest
  subst hs₂
  dsimp only
  have hwithin₂ : Within s₂ := hwithin₁.of_infix hhost.suffix.isInfix
  rw [← h.na]
  have htail := (enterTail_same (hhost.proto.trans hname) (hhost.address rfl) ctx hwithin₂).and_right
    (fun st hst => not_mem_of_readTail hst)
  refine htail.map_right ?_
  rintro ctx' st ⟨hentered, hnot⟩
  exact h.enter hentered rfl
    (hhost.template hft hname rfl rfl (htext.trans hmem) hnot)
    (hhost.parsed hproto hfamily (htext.trans hmem) hnot)

theorem NetAgree.nil : NetAgree {} {} where
  fnet := rfl
  fnetTy := rfl
  family := fun _ h => nomatch h
  enabled := rfl
  na := rfl
  parsed := fun _ h => nomatch h
  nwad := List.Forall₂.nil

variable {ctx : NetContext}

theorem NetAgree.addAll_none (h : NetAgree ctx inet) :
    NetAgree { ctx with fnet := true, fnetTy := 0 } (inet.addAll none) where
  fnet := rfl
  fnetTy := rfl
  family := fun _ h => nomatch h
  enabled := rfl
  na := h.na
  parsed := h.parsed
  nwad := h.nwad

theorem fnetTy_enterVersion (h : NetAgree ctx inet) (ft : Nat) :
    (enterVersion ctx ft).fnetTy = (inet.addAll (some ft)).allFamily.getD 0 := by
  unfold enterVersion InetFilter.addAll
  rw [h.fnet]
  cases inet.all with
  | false => rfl
  | true =>
    have hty := h.fnetTy
    cases hfamily : inet.allFamily with
    | none =>
      have hzero : ctx.fnetTy = 0 := by rw [hty, hfamily]; rfl
      simp [hzero]
    | some cur =>
      have hcur : ctx.fnetTy = cur := by rw [hty, hfamily]; rfl
      have hpos : cur ≠ 0 := by
        have := h.family cur hfamily
        omega
      by_cases hsame : cur = ft
      · subst hsame
        simp [hcur, hpos]
      · simp [hcur, hpos, hsame]

theorem version_addAll {ft v : Nat} (hft : ft = 4 ∨ ft = 6) (hfamily : ∀ w, inet.allFamily = some w → w = 4 ∨ w = 6)
    (h : (inet.addAll (some ft)).allFamily = some v) : v = 4 ∨ v = 6 := by
  unfold InetFilter.addAll at h
  dsimp only at h
  split at h
  · cases h
    exact hft
  · split at h
    · rename_i cur hcur
      split at h
      · cases h
      · cases h
        exact hfamily _ hcur
    · cases h
      exact hft

theorem NetAgree.addAll_some (h : NetAgree ctx inet) {ft : Nat} (hft : ft = 4 ∨ ft = 6) :
    NetAgree (enterVersion ctx ft) (inet.addAll (some ft)) := by
  have hkept : (enterVersion ctx ft).fnet = true ∧ (enterVersion ctx ft).na = ctx.na ∧
      (enterVersion ctx ft).nwad = ctx.nwad := by
    unfold enterVersion
    cases hfnet : ctx.fnet with
    | false => simp
    | true =>
      simp only [Bool.not_true, Bool.false_eq_true, if_false]
      split
      · split <;> simp [hfnet]
      · simp
  exact
    { fnet := hkept.1, fnetTy := fnetTy_enterVersion h ft
      family := fun v hv => version_addAll hft h.family hv, enabled := rfl
      na := hkept.2.1.trans h.na, parsed := h.parsed, nwad := hkept.2.2 ▸ h.nwad }

theorem optionI_same (parse6 : Text → Option (BitVec 128))
    (h : NetAgree ctx inet) (opt : Option Text) (hwithin : ∀ text, opt = some text → Within text) :
    SameResult NetAgree (optionI parse6 ctx opt) (Cli.parseInet parse6 inet opt) := by
  cases opt with
  | none => exact .ok h.addAll_none
  | some text =>
    have hnumbers := hwithin text rfl
    show SameResult NetAgree (enterNetworkAddress parse6 ctx text) _
    unfold enterNetworkAddress
    split
    · rename_i wa
      cases wa with
      | nil => exact .ok (h.addAll_some (Or.inl rfl))
      | cons d rest =>
        have htext : '@' ∈ '4' :: d :: rest ↔ '@' ∈ d :: rest := by simp
        exact @enterSpec_same parse6 ctx inet h (some 4) 4 rfl (by simp) _ _ htext hnumbers.tail
    · rename_i wa
      cases wa with
      | nil => exact .ok (h.addAll_some (Or.inr rfl))
      | cons d rest =>
        have htext : '@' ∈ '6' :: d :: rest ↔ '@' ∈ d :: rest := by simp
        exact @enterSpec_same parse6 ctx inet h (some 6) 6 rfl (by simp) _ _ htext hnumbers.tail
    · rename_i h4 h6
      have hversion : Cli.readVersion text = none := by
        unfold Cli.readVersion
        split
        · exact absurd rfl (h4 _)
        · exact absurd rfl (h6 _)
        · rfl
      have hparse : Cli.parseInet parse6 inet (some text) = Cli.readSpec parse6 inet text
          (if inet.all then inet.allFamily else none) text := by
        simp only [Cli.parseInet, hversion]
      rw [hparse]
      refine enterSpec_same parse6 h ?_ ?_ Iff.rfl hnumbers
      · rw [h.fnet, h.fnetTy]
        split <;> rfl
      · intro v hv
        split at hv
        · exact h.family v hv
        · cases hv

theorem optionsI_same (parse6 : Text → Option (BitVec 128)) (opts : List (Option Text)) (h : NetAgree ctx inet)
    (hwithin : ∀ text, some text ∈ opts → Within text) :
    SameResult NetAgree (optionsI parse6 ctx opts) (Cli.parseInets parse6 inet opts) := by
  refine InStep.foldlM opts ?_ h
  intro opt hmem ctx' inet' h'
  refine optionI_same parse6 h' opt ?_
  rintro text rfl
  exact hwithin text hmem

end Lsof.Original
