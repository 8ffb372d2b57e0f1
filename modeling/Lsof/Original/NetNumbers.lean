import Lsof.Cli.InetArgs
import Lsof.Original.Network

/-! # Numbers of `-i` in both programs

Where every number typed fits the C's `int`, its wrapping digits and the
saturating ones of lsof-rs assemble the same value, and the two readings of a
dotted address are one: the C walks the characters, lsof-rs splits at the dots.
-/

namespace Lsof.Original

open Lsof.Basis Lsof.Core List

/-- Every number in a text fits an `int`. -/
def Within (t : Text) : Prop :=
  ∀ run, Text.isDigits run = true → run <:+: t → Text.digitsValue run < 2 ^ 31

theorem Within.of_infix {s t : Text} (h : Within t) (hs : s <:+: t) : Within s :=
  fun run hrun hin => h run hrun (hin.trans hs)

variable {c : Char}

theorem Within.tail {t : Text} (h : Within (c :: t)) : Within t :=
  h.of_infix (suffix_cons c t).isInfix

theorem Within.nil : Within [] := by
  intro run _ hin
  rw [infix_nil.mp hin]
  decide

section Digits

variable {run : Text} {c : Char}

theorem digitsValue_concat : Text.digitsValue (run ++ [c]) = 10 * Text.digitsValue run + (c.toNat - '0'.toNat) := by
  simp [Text.digitsValue]

theorem isDigits_concat (hrun : Text.isDigits run = true) (hc : c.isDigit = true) :
    Text.isDigits (run ++ [c]) = true := by
  simp only [Text.isDigits, List.all_append, all_cons, all_nil, Bool.and_true] at *
  rw [hrun, hc]
  rfl

theorem satDigit_eq (h : Text.digitsValue (run ++ [c]) < 2 ^ 31) :
    Cli.satDigit (Text.digitsValue run) c = Text.digitsValue (run ++ [c]) := by
  rw [digitsValue_concat] at h ⊢
  unfold Cli.satDigit
  omega

theorem intDigit_eq (h : Text.digitsValue (run ++ [c]) < 2 ^ 31) :
    intDigit (Text.digitsValue run) c = Text.digitsValue (run ++ [c]) := by
  rw [digitsValue_concat] at h ⊢
  unfold intDigit
  have hvalue : ((Text.digitsValue run : Int) * 10 + ((c.toNat - '0'.toNat : Nat) : Int)) =
      ((10 * Text.digitsValue run + (c.toNat - '0'.toNat) : Nat) : Int) := by
    push_cast
    omega
  rw [hvalue]
  apply Int.bmod_eq_of_le <;> omega

theorem satValue_eq (hrun : Text.isDigits run = true) (hwithin : Within run) :
    Cli.satValue run = Text.digitsValue run := by
  induction run using List.reverseRecOn with
  | nil => rfl
  | append_singleton run c ih =>
    have hinit : Text.isDigits run = true := by
      simp only [Text.isDigits, List.all_append, Bool.and_eq_true] at hrun ⊢
      exact hrun.1
    have hsmall := hwithin (run ++ [c]) hrun infix_rfl
    have hrest := ih hinit (hwithin.of_infix (prefix_append run [c]).isInfix)
    rw [← satDigit_eq hsmall, ← hrest]
    simp [Cli.satValue]

theorem digitsValue_lt (hrun : Text.isDigits run = true) : Text.digitsValue run < 10 ^ run.length := by
  induction run using List.reverseRecOn with
  | nil => decide
  | append_singleton run c ih =>
    simp only [Text.isDigits, List.all_append, all_cons, all_nil, Bool.and_true, Bool.and_eq_true] at hrun ih
    have hrest := ih hrun.1
    have hdigit : c.toNat - '0'.toNat ≤ 9 := by
      have hrange := hrun.2
      simp only [Char.isDigit, Bool.and_eq_true, decide_eq_true_eq] at hrange
      have hle : c.toNat ≤ '9'.toNat := hrange.2
      have h9 : '9'.toNat = 57 := rfl
      have h0 : '0'.toNat = 48 := rfl
      omega
    rw [digitsValue_concat, length_append, length_singleton, Nat.pow_succ]
    omega

end Digits

theorem Within.of_length {t : Text} (h : t.length ≤ 9) : Within t := by
  intro run hrun hin
  have hlength : run.length ≤ 9 := Nat.le_trans hin.length_le h
  calc Text.digitsValue run
      < 10 ^ run.length := digitsValue_lt hrun
    _ ≤ 10 ^ 9 := Nat.pow_le_pow_right (by decide) hlength
    _ < 2 ^ 31 := by decide

/-- The octet being assembled, as the C has it: −1 before its first digit. -/
def assembling (cur : Text) : Int := if cur.isEmpty then -1 else (Text.digitsValue cur : Int)

variable {cur : Text}

theorem assembling_eq (h : 0 ≤ assembling cur) : assembling cur = Text.digitsValue cur := by
  unfold assembling at h ⊢
  split at h
  · omega
  · rename_i hne
    simp [hne]

theorem assembling_concat (h : Text.digitsValue (cur ++ [c]) < 2 ^ 31) :
    (if assembling cur < 0 then ((c.toNat - '0'.toNat : Nat) : Int)
      else intDigit (assembling cur) c) = assembling (cur ++ [c]) := by
  unfold assembling
  cases cur with
  | nil => simp [Text.digitsValue]
  | cons d cur =>
    have hpos : ¬ ((Text.digitsValue (d :: cur) : Nat) : Int) < 0 := by omega
    simp only [isEmpty_cons, cons_append, Bool.false_eq_true, if_false, if_neg hpos]
    exact intDigit_eq h

theorem octetOf_eq (hcur : Text.isDigits cur = true) (hwithin : Within cur) :
    Cli.octetOf cur =
      if 0 ≤ assembling cur ∧ assembling cur ≤ 255 then some (Text.digitsValue cur) else none := by
  unfold Cli.octetOf assembling
  rw [satValue_eq hcur hwithin, hcur]
  cases hempty : cur.isEmpty with
  | true => simp
  | false =>
    by_cases h : Text.digitsValue cur ≤ 255
    · have h' : (Text.digitsValue cur : Int) ≤ 255 := by omega
      simp [h, h']
    · have h' : ¬ (Text.digitsValue cur : Int) ≤ 255 := by omega
      simp [h, h']

theorem octetOf_of_not_digit {part : Text} (hmem : c ∈ part) (hc : c.isDigit = false) : Cli.octetOf part = none := by
  have hno : Text.isDigits part = false := by
    rw [Text.isDigits, all_eq_false]
    exact ⟨c, hmem, by simp [hc]⟩
  simp [Cli.octetOf, hno]

theorem length_of_mapM {α β : Type} {f : α → Option β} {xs : List α} {ys : List β}
    (h : xs.mapM f = some ys) : ys.length = xs.length := by
  induction xs generalizing ys with
  | nil => simp_all
  | cons x xs ih =>
    simp only [mapM_cons, Option.bind_eq_bind, Option.bind_eq_some_iff, Option.pure_def, Option.some.injEq] at h
    obtain ⟨y, _, ys', hys, rfl⟩ := h
    simp [ih hys]

def dotted (cur t : Text) : List Text :=
  ((t.takeWhile (· != ':')).splitOn '.').modifyHead (cur ++ ·)

theorem dotted_ne_nil (cur t : Text) : dotted cur t ≠ [] := by
  unfold dotted
  have hne := splitOn_ne_nil '.' (t.takeWhile (· != ':'))
  revert hne
  cases (t.takeWhile (· != ':')).splitOn '.' <;> simp

theorem dotted_dot (cur t : Text) : dotted cur ('.' :: t) = cur :: dotted [] t := by
  simp only [dotted, takeWhile_cons, nil_append]
  rw [if_pos (by decide), splitOn_cons_eq_if_modifyHead, if_pos (by decide)]
  cases (t.takeWhile (· != ':')).splitOn '.' <;> simp

theorem dotted_cons (cur t : Text) (hcolon : ¬ c = ':') (hdot : ¬ c = '.') :
    dotted cur (c :: t) = dotted (cur ++ [c]) t := by
  simp [dotted, hcolon, hdot, splitOn_cons_eq_if_modifyHead]
  rfl

def fourOctets (ov : List Nat) (parts : List Text) (rest : Text) : Option (List Int × Text) :=
  (parts.mapM Cli.octetOf).bind (fun os =>
    if ov.length + os.length = 4 then some ((ov ++ os).map (fun (o : Nat) => (o : Int)), rest)
    else none)

theorem fourOctets_cons (ov : List Nat) (part : Text) (parts : List Text) (rest : Text) :
    fourOctets ov (part :: parts) rest = (Cli.octetOf part).bind (fun o => fourOctets (ov ++ [o]) parts rest) := by
  unfold fourOctets
  rw [mapM_cons]
  cases Cli.octetOf part with
  | none => rfl
  | some o =>
    cases parts.mapM Cli.octetOf with
    | none => rfl
    | some os =>
      have hlength : ov.length + (os.length + 1) = ov.length + 1 + os.length := by omega
      simp [hlength]

theorem fourOctets_of_four {ov : List Nat} (hov : 4 ≤ ov.length) {parts : List Text}
    (hparts : parts ≠ []) (rest : Text) : fourOctets ov parts rest = none := by
  unfold fourOctets
  cases hos : parts.mapM Cli.octetOf with
  | none => rfl
  | some os =>
    have hlength := length_of_mapM hos
    have hpos := length_pos_iff.mpr hparts
    simp only [Option.bind_some]
    rw [if_neg (by omega)]

theorem fourOctets_last (ov : List Nat) (hcur : Text.isDigits cur = true) (hwithin : Within cur) (rest : Text) :
    fourOctets ov [cur] rest =
      if ov.length = 3 ∧ 0 ≤ assembling cur ∧ assembling cur ≤ 255 then
        some (ov.map (fun (o : Nat) => (o : Int)) ++ [assembling cur], rest)
      else none := by
  rw [fourOctets_cons, octetOf_eq hcur hwithin]
  by_cases hin : 0 ≤ assembling cur ∧ assembling cur ≤ 255
  · have hvalue := assembling_eq hin.1
    rw [if_pos hin, Option.bind_some, hvalue]
    by_cases hthree : ov.length = 3
    · simp [fourOctets, hthree, ← hvalue, hin]
    · simp [fourOctets, hthree]
  · simp [hin]

theorem ipv4Loop_eq (t : Text) {ov : List Nat} {cur : Text} (hov : ov.length ≤ 3)
    (hcur : Text.isDigits cur = true) (hwithin : Within (cur ++ t)) :
    ipv4Loop (ov.map (fun (o : Nat) => (o : Int))) (assembling cur) t =
      fourOctets ov (dotted cur t) (t.dropWhile (· != ':')) := by
  have hwcur : Within cur := hwithin.of_infix (prefix_append cur t).isInfix
  induction t generalizing ov cur with
  | nil =>
    have hparts : dotted cur [] = [cur] := by simp [dotted]
    rw [hparts, fourOctets_last ov hcur hwcur]
    simp [ipv4Loop]
  | cons c t ih =>
    have hwtail : Within t :=
      hwithin.of_infix ((suffix_cons c t).trans (suffix_append cur (c :: t))).isInfix
    by_cases hcolon : c = ':'
    · have hparts : dotted cur (c :: t) = [cur] := by simp [dotted, hcolon]
      rw [hparts, fourOctets_last ov hcur hwcur]
      simp [ipv4Loop, hcolon]
    · have hdrop : (c :: t).dropWhile (· != ':') = t.dropWhile (· != ':') := by simp [hcolon]
      by_cases hdot : c = '.'
      · -- An octet ends.
        rw [hdrop, hdot, dotted_dot, ← hdot, fourOctets_cons, octetOf_eq hcur hwcur, ipv4Loop, if_neg hcolon,
          if_pos hdot]
        by_cases hin : 0 ≤ assembling cur ∧ assembling cur ≤ 255
        · rw [if_neg (by omega), if_pos hin, Option.bind_some]
          have hvalue : ov.map (fun (o : Nat) => (o : Int)) ++ [assembling cur] =
              (ov ++ [Text.digitsValue cur]).map (fun (o : Nat) => (o : Int)) := by
            simp [assembling_eq hin.1]
          by_cases hfour : 3 < ov.length + 1
          · rw [if_pos (by simpa using hfour), fourOctets_of_four (by simp; omega) (dotted_ne_nil [] t)]
          · rw [if_neg (by simpa using hfour), hvalue]
            exact @ih _ [] (by simp; omega) rfl hwtail Within.nil
        · have hout : assembling cur < 0 ∨ 255 < assembling cur := by omega
          rw [if_pos hout, if_neg hin]
          rfl
      · rw [hdrop, dotted_cons cur t hcolon hdot, ipv4Loop, if_neg hcolon, if_neg hdot]
        by_cases hdigit : c.isDigit = true
        · rw [if_pos hdigit]
          have hcur' := isDigits_concat hcur hdigit
          have hall : Within (cur ++ [c] ++ t) := by simpa using hwithin
          have hwcur' : Within (cur ++ [c]) :=
            hall.of_infix (prefix_append (cur ++ [c]) t).isInfix
          rw [← ih hov hcur' hall hwcur']
          congr 1
          exact assembling_concat (hwcur' _ hcur' infix_rfl)
        · -- A part with another character is no octet.
          rw [if_neg hdigit]
          obtain ⟨part, parts, hsplit⟩ := exists_cons_of_ne_nil
            (splitOn_ne_nil '.' (t.takeWhile (· != ':')))
          rw [dotted, hsplit, modifyHead_cons, fourOctets_cons,
            octetOf_of_not_digit (c := c) (by simp) (by simpa using hdigit)]
          rfl

theorem le_of_octetOf {part : Text} {o : Nat} (h : Cli.octetOf part = some o) : o ≤ 255 := by
  unfold Cli.octetOf at h
  split at h
  · cases h
  · split at h
    · rename_i hle
      cases h
      exact hle
    · cases h

theorem le_of_mapM_octetOf {parts : List Text} {os : List Nat}
    (h : parts.mapM Cli.octetOf = some os) : ∀ o ∈ os, o ≤ 255 := by
  induction parts generalizing os with
  | nil => simp_all
  | cons part parts ih =>
    simp only [mapM_cons, Option.bind_eq_bind, Option.bind_eq_some_iff, Option.pure_def, Option.some.injEq] at h
    obtain ⟨o, ho, os', hos, rfl⟩ := h
    intro o' ho'
    rcases mem_cons.mp ho' with rfl | ho'
    · exact le_of_octetOf ho
    · exact ih hos o' ho'

theorem octets_eq {a b c d : Nat} (h : ∀ o ∈ [a, b, c, d], o ≤ 255) :
    octets ([a, b, c, d].map (fun (o : Nat) => (o : Int))) = Cli.ofOctets a b c d := by
  have hcast : ∀ o ∈ [a, b, c, d], ((o : Int) % 256).toNat = o := by
    intro o ho
    have := h o ho
    omega
  simp only [mem_cons, not_mem_nil, or_false, forall_eq_or_imp, forall_eq] at hcast
  simp [octets, Cli.ofOctets, hcast]

theorem isIPv4addr_eq {s : Text} (hwithin : Within s) : isIPv4addr s = Cli.ipv4Addr s := by
  cases s with
  | nil => rfl
  | cons c rest =>
    by_cases hdigit : c.isDigit = true
    · have hcolon : ¬ c = ':' := by
        intro h
        subst h
        cases hdigit
      have hdot : ¬ c = '.' := by
        intro h
        subst h
        cases hdigit
      have hcur : Text.isDigits [c] = true := by simp [Text.isDigits, hdigit]
      have hloop := @ipv4Loop_eq rest [] [c] (by simp) hcur hwithin
      have hassembled : assembling [c] = ((c.toNat - '0'.toNat : Nat) : Int) := by
        simp [assembling, Text.digitsValue]
      have hparts : dotted [c] rest = ((c :: rest).takeWhile (· != ':')).splitOn '.' := by
        rw [← nil_append [c], ← dotted_cons [] rest hcolon hdot, dotted]
        cases ((c :: rest).takeWhile (· != ':')).splitOn '.' <;> simp
      have hhead : ((c :: rest).takeWhile (· != ':')).head?.any Char.isDigit = true := by
        simp [hcolon, hdigit]
      have hdrop : (c :: rest).dropWhile (· != ':') = rest.dropWhile (· != ':') := by
        simp [hcolon]
      rw [hassembled, hparts] at hloop
      simp only [map_nil] at hloop
      simp only [isIPv4addr, hdigit, Bool.not_true, Bool.false_eq_true, if_false, hloop,
        Cli.ipv4Addr, hhead, hdrop, fourOctets]
      cases hos : (((c :: rest).takeWhile (· != ':')).splitOn '.').mapM Cli.octetOf with
      | none => rfl
      | some os =>
        have hle := le_of_mapM_octetOf hos
        match os, hle with
        | [a, b, d, e], hle => simpa using octets_eq hle
        | [], _ => rfl
        | [_], _ => rfl
        | [_, _], _ => rfl
        | [_, _, _], _ => rfl
        | _ :: _ :: _ :: _ :: _ :: _, _ => simp
    · have hhead : ((c :: rest).takeWhile (· != ':')).head?.any Char.isDigit = false := by
        by_cases hcolon : c = ':'
        · simp [hcolon]
        · simpa [hcolon] using hdigit
      simp [isIPv4addr, hdigit, Cli.ipv4Addr, hhead]

end Lsof.Original
