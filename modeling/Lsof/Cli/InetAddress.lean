import Lsof.Cli.InetPorts

/-! # The address of `-i`

The grammar of the address after `@`: four decimal numbers, or an IPv6 address in
brackets; and that the reader takes exactly what it takes, as far as a version
that was given permits.
-/

namespace Lsof.Cli

open Lsof.Basis Lsof.Core List

def IsOctet (part : Text) (o : Nat) : Prop := Digits part ∧ Text.digitsValue part = o ∧ o ≤ 255

theorem octetOf_iff {part : Text} {o : Nat} : octetOf part = some o ↔ IsOctet part o := by
  rw [octetOf, satValue_eq_enteredValue, IsOctet, Digits]
  by_cases hdigits : (part.isEmpty || !Text.isDigits part) = true
  · rw [if_pos hdigits]
    refine ⟨nofun, fun h => ?_⟩
    have hall : Text.isDigits part = true := all_eq_true.mpr h.1.2
    rw [hall, Bool.not_true, Bool.or_false, List.isEmpty_iff] at hdigits
    exact absurd hdigits h.1.1
  · rw [if_neg hdigits]
    simp only [Bool.or_eq_true, Bool.not_eq_true', not_or, List.isEmpty_iff, Bool.not_eq_false] at hdigits
    have hall : ∀ c ∈ part, c.isDigit = true := all_eq_true.mp hdigits.2
    unfold enteredValue
    by_cases hsmall : min (Text.digitsValue part) (2 ^ 32 - 1) ≤ 255
    · rw [if_pos hsmall]
      have hvalue : min (Text.digitsValue part) (2 ^ 32 - 1) = Text.digitsValue part := by omega
      rw [hvalue] at hsmall ⊢
      constructor
      · intro h
        obtain rfl := Option.some.inj h
        exact ⟨⟨hdigits.1, hall⟩, rfl, hsmall⟩
      · exact fun h => congrArg some h.2.1
    · rw [if_neg hsmall]
      refine ⟨nofun, fun h => ?_⟩
      have hvalue := h.2.1
      have hle := h.2.2
      omega

def dottedText (a b c d : Text) : Text := a ++ '.' :: (b ++ '.' :: (c ++ '.' :: d))

inductive DottedAddress : Text → BitVec 32 → Prop where
  | mk {a b c d : Text} {o₁ o₂ o₃ o₄ : Nat} (ha : IsOctet a o₁) (hb : IsOctet b o₂) (hc : IsOctet c o₃)
      (hd : IsOctet d o₄) : DottedAddress (dottedText a b c d) (ofOctets o₁ o₂ o₃ o₄)

theorem splitOn_dotted {a b c d : Text} (h : ∀ part ∈ [a, b, c, d], '.' ∉ part) :
    (dottedText a b c d).splitOn '.' = [a, b, c, d] := by
  have hjoin : dottedText a b c d = ['.'].intercalate [a, b, c, d] := by
    simp [dottedText, List.intercalate, List.intersperse]
  rw [hjoin]
  exact splitOn_intercalate '.' h (cons_ne_nil _ _)

theorem IsOctet.not_mem {part : Text} {o : Nat} (h : IsOctet part o) {c : Char} (hc : c.isDigit = false) : c ∉ part :=
  h.1.not_mem hc

def Follows (rest : Text) : Prop := rest = [] ∨ rest.head? = some ':'

theorem takeWhile_follows {text rest : Text} (htext : ':' ∉ text) (hrest : Follows rest) :
    (text ++ rest).takeWhile (· != ':') = text ∧ (text ++ rest).dropWhile (· != ':') = rest := by
  have hall : ∀ c ∈ text, (c != ':') = true := fun c hc => bne_iff_ne.mpr fun hcolon => htext (hcolon ▸ hc)
  rw [takeWhile_append_of_pos hall, dropWhile_append_of_pos hall]
  rcases hrest with rfl | hhead
  · exact ⟨append_nil _, rfl⟩
  · cases rest with
    | nil => exact absurd hhead nofun
    | cons c rest =>
      obtain rfl := Option.some.inj hhead
      exact ⟨append_nil _, rfl⟩

theorem mapM_eq_some_iff {α β : Type} {f : α → Option β} {xs : List α} {ys : List β} :
    xs.mapM f = some ys ↔ List.Forall₂ (fun x y => f x = some y) xs ys := by
  induction xs generalizing ys with
  | nil =>
    constructor
    · intro h
      exact Option.some.inj h ▸ .nil
    · intro h
      cases h
      rfl
  | cons x xs ih =>
    rw [mapM_cons]
    constructor
    · intro h
      obtain ⟨y, hy, htail⟩ := Option.bind_eq_some_iff.mp h
      obtain ⟨ys', hys', hpure⟩ := Option.bind_eq_some_iff.mp htail
      exact Option.some.inj hpure ▸ .cons hy (ih.mp hys')
    · intro h
      cases h with
      | cons hy htail => simp [hy, ih.mpr htail]

theorem ipv4Addr_iff {s rest : Text} {ip : BitVec 32} :
    ipv4Addr s = some (ip, rest) ↔ ∃ text, s = text ++ rest ∧ DottedAddress text ip ∧ Follows rest := by
  constructor
  · intro h
    unfold ipv4Addr at h
    dsimp only at h
    split at h
    · exact absurd h nofun
    split at h
    next o₁ o₂ o₃ o₄ hparts =>
      obtain ⟨rfl, rfl⟩ := Prod.mk.inj (Option.some.inj h)
      refine ⟨s.takeWhile (· != ':'), takeWhile_append_dropWhile.symm, ?_, ?_⟩
      · have htext := @List.intercalate_splitOn _ (s.takeWhile (· != ':')) _ _ '.'
        have hoctets := mapM_eq_some_iff.mp hparts
        generalize (s.takeWhile (· != ':')).splitOn '.' = parts at htext hoctets
        obtain _ | ⟨ha, _ | ⟨hb, _ | ⟨hc, _ | ⟨hd, _ | _⟩⟩⟩⟩ := hoctets
        rw [← htext]
        simpa [dottedText, List.intercalate, List.intersperse] using
          DottedAddress.mk (octetOf_iff.mp ha) (octetOf_iff.mp hb) (octetOf_iff.mp hc) (octetOf_iff.mp hd)
      · have hhead := head?_dropWhile_not (· != ':') s
        cases hrest : s.dropWhile (· != ':') with
        | nil => exact .inl rfl
        | cons c rest =>
          rw [hrest] at hhead
          exact .inr (by simpa using hhead)
    · exact absurd h nofun
  · rintro ⟨text, rfl, @⟨a, b, c, d, o₁, o₂, o₃, o₄, ha, hb, hc, hd⟩, hrest⟩
    have hdot : ∀ part ∈ [a, b, c, d], '.' ∉ part := by
      simp only [forall_mem_cons]
      exact ⟨ha.not_mem rfl, hb.not_mem rfl, hc.not_mem rfl, hd.not_mem rfl, forall_mem_nil _⟩
    have hcolon : ':' ∉ dottedText a b c d := by
      simp only [dottedText, mem_append, mem_cons, not_or]
      exact ⟨ha.not_mem rfl, by decide, hb.not_mem rfl, by decide, hc.not_mem rfl, by decide, hd.not_mem rfl⟩
    obtain ⟨htake, hdrop⟩ := takeWhile_follows hcolon hrest
    have hoctets : [a, b, c, d].mapM octetOf = some [o₁, o₂, o₃, o₄] :=
      mapM_eq_some_iff.mpr (.cons (octetOf_iff.mpr ha) (.cons (octetOf_iff.mpr hb)
        (.cons (octetOf_iff.mpr hc) (.cons (octetOf_iff.mpr hd) .nil))))
    have hfirst : (dottedText a b c d).head?.any Char.isDigit = true := by
      obtain ⟨x, a, rfl⟩ := exists_cons_of_ne_nil ha.1.1
      exact ha.1.2 x mem_cons_self
    unfold ipv4Addr
    dsimp only
    rw [htake, hdrop, hfirst, splitOn_dotted hdot, hoctets]
    rfl

/-- An address after `@`, or none. An IPv4 address is refused under version 6, one
in brackets under version 4, and an IPv4 address in brackets under either. -/
inductive HostText (parse6 : Text → Option (BitVec 128)) (family : Option Nat) : Text → Option IpAddr → Prop where
  | absent : HostText parse6 family [] none
  | dotted {text : Text} {ip : BitVec 32} (hdotted : DottedAddress text ip) (hfamily : family ≠ some 6) :
      HostText parse6 family ('@' :: text) (some (.v4 ip))
  | bracketed {text : Text} {ip : BitVec 128} (hparse : parse6 text = some ip) (hzero : ip ≠ 0)
      (hmapped : toIpv4Mapped ip = none) (hfamily : family ≠ some 4) :
      HostText parse6 family ('@' :: '[' :: (text ++ [']'])) (some (.v6 ip))
  | mapped {text : Text} {ip : BitVec 128} {v4 : BitVec 32} (hparse : parse6 text = some ip)
      (hmapped : toIpv4Mapped ip = some v4) (hfour : family ≠ some 4) (hsix : family ≠ some 6) :
      HostText parse6 family ('@' :: '[' :: (text ++ [']'])) (some (.v4 v4))

theorem ipv4Addr_bracket (inner : Text) : ipv4Addr ('[' :: inner) = none := by
  simp [ipv4Addr]

theorem readAddress_bracket {parse6 : Text → Option (BitVec 128)} {family : Option Nat} {text rest : Text}
    {ip : BitVec 128} (hparse : parse6 text = some ip) (hzero : ip ≠ 0) (hfamily : family ≠ some 4)
    (hclose : ']' ∉ rest) :
    readAddress parse6 family ('[' :: (text ++ ']' :: rest)) =
      match toIpv4Mapped ip with
      | some v4 => if family == some 6 then .error .ipv4Prohibited else .ok (.v4 v4, rest)
      | none => .ok (.v6 ip, rest) := by
  rw [readAddress, if_neg (by simp), ipv4Addr_bracket]
  dsimp only
  rw [if_neg (by simpa using hfamily), Text.splitLast_append hclose]
  dsimp only
  rw [hparse]
  exact if_neg hzero

theorem readHost_of_hostText {parse6 : Text → Option (BitVec 128)} {family : Option Nat} {text rest : Text}
    {host : Option IpAddr} (h : HostText parse6 family text host) (hrest : Follows rest) (hclose : ']' ∉ rest) :
    readHost parse6 family (text ++ rest) = .ok (host, rest) := by
  cases h with
  | absent =>
    rcases hrest with rfl | hhead
    · rfl
    · cases rest with
      | nil => exact absurd hhead nofun
      | cons c rest =>
        obtain rfl := Option.some.inj hhead
        rfl
  | @dotted text ip hdotted hfamily =>
    have haddr := ipv4Addr_iff.mpr ⟨text, rfl, hdotted, hrest⟩
    obtain ⟨c, more, htext, hc⟩ : ∃ c more, text ++ rest = c :: more ∧ c.isDigit = true := by
      obtain @⟨a, b, c, d, o₁, o₂, o₃, o₄, ha, hb, hc, hd⟩ := hdotted
      obtain ⟨x, a, rfl⟩ := exists_cons_of_ne_nil ha.1.1
      exact ⟨x, _, rfl, ha.1.2 x mem_cons_self⟩
    have hhead : ¬ ((text ++ rest).isEmpty || (text ++ rest).head? == some ':') = true := by
      rw [htext]
      simp only [isEmpty_cons, head?_cons, Bool.false_or, beq_iff_eq, Option.some.injEq]
      rintro rfl
      exact absurd hc (by decide)
    rw [cons_append, readHost, readAddress.eq_def, if_neg hhead, haddr]
    dsimp only
    rw [if_neg (by simpa using hfamily)]
    rfl
  | bracketed hparse hzero hmapped hfamily =>
    rw [cons_append, cons_append, append_assoc, singleton_append, readHost,
      readAddress_bracket hparse hzero hfamily hclose, hmapped]
    rfl
  | @mapped text ip v4 hparse hmapped hfour hsix =>
    have hzero : ip ≠ 0 := by
      rintro rfl
      exact absurd hmapped (by simp [toIpv4Mapped])
    rw [cons_append, cons_append, append_assoc, singleton_append, readHost,
      readAddress_bracket hparse hzero hfour hclose, hmapped]
    dsimp only
    rw [if_neg (by simpa using hsix)]
    rfl

theorem hostText_of_readAddress {parse6 : Text → Option (BitVec 128)} {family : Option Nat} {after : Text}
    {found : IpAddr × Text} (h : readAddress parse6 family after = .ok found) :
    ∃ text, '@' :: after = text ++ found.2 ∧ HostText parse6 family text (some found.1) := by
  unfold readAddress at h
  split at h
  · exact absurd h nofun
  split at h
  next octets rest haddr =>
    split at h
    · exact absurd h nofun
    next hfamily =>
      obtain ⟨text, rfl, hdotted, -⟩ := ipv4Addr_iff.mp haddr
      obtain rfl := Except.ok.inj h
      exact ⟨'@' :: text, rfl, .dotted hdotted (by simpa using hfamily)⟩
  next =>
    split at h
    next inner _ _ =>
      split at h
      · exact absurd h nofun
      next hfour =>
        split at h
        · exact absurd h nofun
        next text rest hsplit =>
          have htext : '@' :: '[' :: inner = '@' :: '[' :: (text ++ [']']) ++ rest := by
            rw [Text.eq_of_splitLast hsplit]
            simp
          rw [htext]
          split at h
          · exact absurd h nofun
          next ip hparse =>
            split at h
            · exact absurd h nofun
            next hzero =>
              have hbracket : family ≠ some 4 := by simpa using hfour
              split at h
              next v4 hmapped =>
                split at h
                · exact absurd h nofun
                next hsix =>
                  obtain rfl := Except.ok.inj h
                  exact ⟨_, rfl, .mapped hparse hmapped hbracket (by simpa using hsix)⟩
              next hmapped =>
                obtain rfl := Except.ok.inj h
                exact ⟨_, rfl, .bracketed hparse hzero hmapped hbracket⟩
    · exact absurd h nofun

theorem hostText_of_readHost {parse6 : Text → Option (BitVec 128)} {family : Option Nat} {s rest : Text}
    {host : Option IpAddr} (h : readHost parse6 family s = .ok (host, rest)) :
    ∃ text, s = text ++ rest ∧ HostText parse6 family text host := by
  unfold readHost at h
  split at h
  next after =>
    cases haddress : readAddress parse6 family after with
    | error e =>
      rw [haddress] at h
      exact absurd h nofun
    | ok found =>
      rw [haddress] at h
      obtain ⟨rfl, rfl⟩ := Prod.mk.inj (Except.ok.inj h)
      exact hostText_of_readAddress haddress
  next =>
    obtain ⟨rfl, rfl⟩ := Prod.mk.inj (Except.ok.inj h)
    exact ⟨[], rfl, .absent⟩

end Lsof.Cli
