import Lsof.Basis.Json
import Lsof.Basis.Numerals

/-! # Numbers as the C library reads them

White space, a sign, the mark of a base, and digits as far as they go. What is
left is where the end pointer stands; without a digit that is the whole text.
Numbers are kept in 64 bits, at their limits where they are too large.
-/

namespace Lsof.Original

open Lsof.Basis List

def isCSpace (c : Char) : Bool := c == ' ' || (0x09 ≤ c.toNat && c.toNat ≤ 0x0D)

def digitIn (base : Nat) (c : Char) : Option Nat :=
  let n := c.toNat
  let value :=
    if 0x30 ≤ n ∧ n ≤ 0x39 then some (n - 0x30)
    else if 0x41 ≤ n ∧ n ≤ 0x5A then some (n - 0x37)
    else if 0x61 ≤ n ∧ n ≤ 0x7A then some (n - 0x57)
    else none
  value.filter (· < base)

def digitsIn (base : Nat) (t : Text) : Text := t.takeWhile fun c => (digitIn base c).isSome

def valueIn (base : Nat) (ds : Text) : Nat := ds.foldl (fun v c => base * v + (digitIn base c).getD 0) 0

/-- Whether a minus leads, and what follows the sign. -/
def signOf (t : Text) : Bool × Text :=
  match t.dropWhile isCSpace with
  | '-' :: rest => (true, rest)
  | '+' :: rest => (false, rest)
  | rest => (false, rest)

def baseOf (base : Nat) (t : Text) : Nat × Text :=
  match t with
  | '0' :: x :: c :: rest =>
    if (x == 'x' || x == 'X') && (base == 0 || base == 16) && (digitIn 16 c).isSome then (16, c :: rest)
    else (if base = 0 then 8 else base, '0' :: x :: c :: rest)
  | '0' :: rest => (if base = 0 then 8 else base, '0' :: rest)
  | t => (if base = 0 then 10 else base, t)

def strto (base : Nat) (t : Text) : (Bool × Nat) × Text :=
  let sign := signOf t
  let based := baseOf base sign.2
  let ds := digitsIn based.1 based.2
  if ds.isEmpty then ((false, 0), t) else ((sign.1, valueIn based.1 ds), based.2.drop ds.length)

def strtoul (base : Nat) (t : Text) : Nat × Text :=
  let r := strto base t
  (if 2 ^ 64 ≤ r.1.2 then 2 ^ 64 - 1 else if r.1.1 then (2 ^ 64 - r.1.2) % 2 ^ 64 else r.1.2, r.2)

def LONG_MAX : Int := 2 ^ 63 - 1

def LONG_MIN : Int := -(2 ^ 63)

def strtol (base : Nat) (t : Text) : Int × Text :=
  let r := strto base t
  (if r.1.1 then max LONG_MIN (-(r.1.2 : Int)) else min LONG_MAX r.1.2, r.2)

/-- `atoi`, the low 32 bits of the `long`. -/
def atoi (t : Text) : Int := (BitVec.ofInt 32 (strtol 10 t).1).toInt

theorem digitIn_sixteen (c : Char) : digitIn 16 c = Text.hexDigitValue c := by
  unfold digitIn Text.hexDigitValue
  dsimp only
  by_cases hdigit : 0x30 ≤ c.toNat ∧ c.toNat ≤ 0x39
  · rw [if_pos hdigit, if_pos hdigit, Option.filter_some_pos (by simp; omega)]
  · rw [if_neg hdigit, if_neg hdigit]
    by_cases hupper : 0x41 ≤ c.toNat ∧ c.toNat ≤ 0x46
    · rw [if_pos hupper, if_pos (by omega), Option.filter_some_pos (by simp; omega)]
    · rw [if_neg hupper]
      by_cases hlower : 0x61 ≤ c.toNat ∧ c.toNat ≤ 0x66
      · rw [if_pos hlower, if_neg (by omega), if_pos (by omega), Option.filter_some_pos (by simp; omega)]
      · rw [if_neg hlower]
        -- the other letters are too large
        split
        · exact Option.filter_some_neg (by simp; omega)
        · split
          · exact Option.filter_some_neg (by simp; omega)
          · rfl

theorem digitIn_ten {c : Char} (h : c.isDigit = true) : digitIn 10 c = some (c.toNat - '0'.toNat) := by
  have hrange := Text.digit_range h
  unfold digitIn
  dsimp only
  rw [if_pos hrange, Option.filter_some_pos (by simp; omega)]
  rfl

variable {t : Text} {base : Nat}

theorem digitsIn_of_forall (h : ∀ c ∈ t, (digitIn base c).isSome = true) : digitsIn base t = t :=
  takeWhile_eq_self_iff.mpr h

theorem valueIn_ten (h : ∀ c ∈ t, c.isDigit = true) : valueIn 10 t = Text.digitsValue t := by
  unfold valueIn Text.digitsValue
  apply foldl_ext
  intro v c hc
  rw [digitIn_ten (h c hc), Option.getD_some]

theorem valueIn_sixteen (t : Text) : valueIn 16 t = Text.hexValue t := by
  unfold valueIn Text.hexValue
  simp only [digitIn_sixteen]

theorem signOf_of_hexDigit {c : Char} (h : (Text.hexDigitValue c).isSome = true) :
    signOf (c :: t) = (false, c :: t) := by
  have hrange := Text.hexDigit_range h
  have hspace : isCSpace c = false := by
    have hblank : c ≠ ' ' := fun heq => by
      rw [heq] at hrange
      exact absurd hrange.1 (by decide)
    simp only [isCSpace, Bool.or_eq_false_iff, beq_eq_false_iff_ne, Bool.and_eq_false_iff, decide_eq_false_iff_not]
    exact ⟨hblank, .inr (by omega)⟩
  have hskip : (c :: t).dropWhile isCSpace = c :: t := dropWhile_cons_of_neg (by simp [hspace])
  rw [signOf, hskip]
  split
  next heq =>
    rw [(List.cons.inj heq).1] at h
    exact absurd h (by decide)
  next heq =>
    rw [(List.cons.inj heq).1] at h
    exact absurd h (by decide)
  next => rfl

theorem baseOf_sixteen (h : ∀ c ∈ t, (Text.hexDigitValue c).isSome = true) : baseOf 16 t = (16, t) := by
  unfold baseOf
  split
  next x c rest =>
    have hx := h x (by simp)
    have hmark : (x == 'x' || x == 'X') = false := by
      rw [Bool.or_eq_false_iff, beq_eq_false_iff_ne, beq_eq_false_iff_ne]
      constructor
      · intro heq
        rw [heq] at hx
        exact absurd hx (by decide)
      · intro heq
        rw [heq] at hx
        exact absurd hx (by decide)
    rw [hmark]
    rfl
  next => rfl
  next => rfl

theorem strto_of_digits {c : Char} (hdigit : (Text.hexDigitValue c).isSome = true)
    {based : Nat} (hbase : baseOf base (c :: t) = (based, c :: t))
    (hall : ∀ d ∈ c :: t, (digitIn based d).isSome = true) :
    strto base (c :: t) = ((false, valueIn based (c :: t)), []) := by
  unfold strto
  simp [signOf_of_hexDigit hdigit, hbase, digitsIn_of_forall hall]

theorem strto_hexAtLeast (w n : Nat) : strto 16 (Text.hexAtLeast w n) = ((false, n), []) := by
  have hmem : ∀ c ∈ Text.hexAtLeast w n, (Text.hexDigitValue c).isSome = true :=
    fun c hc => Text.hexDigit_of_mem_hexAtLeast hc
  have hvalue := Text.hexValue_hexAtLeast w n
  cases htext : Text.hexAtLeast w n with
  | nil => exact absurd htext (Text.hexAtLeast_ne_nil w n)
  | cons c t =>
    rw [htext] at hmem hvalue
    have hall : ∀ d ∈ c :: t, (digitIn 16 d).isSome = true := fun d hd => by
      rw [digitIn_sixteen]
      exact hmem d hd
    rw [strto_of_digits (hmem c mem_cons_self) (baseOf_sixteen hmem) hall, valueIn_sixteen, hvalue]

theorem baseOf_ofNat {base n : Nat} (hbase : base = 0 ∨ base = 10) :
    Text.ofNat n = ['0'] ∧ n = 0 ∨ baseOf base (Text.ofNat n) = (10, Text.ofNat n) := by
  by_cases hzero : (Text.ofNat n).head? = some '0'
  · have htext := Json.ofNat_eq_zero_of_head hzero
    left
    refine ⟨htext, ?_⟩
    have hback : Nat.ofDigitChars 10 (Text.ofNat n) 0 = n := Nat.ofDigitChars_ten_toDigits
    rw [htext] at hback
    exact hback.symm
  · right
    unfold baseOf
    split
    next heq =>
      rw [heq] at hzero
      exact absurd rfl hzero
    next heq =>
      rw [heq] at hzero
      exact absurd rfl hzero
    next =>
      rcases hbase with rfl | rfl
      · rfl
      · rfl

theorem strto_ofNat (hbase : base = 0 ∨ base = 10) (n : Nat) : strto base (Text.ofNat n) = ((false, n), []) := by
  rcases @baseOf_ofNat base n hbase with ⟨htext, hn⟩ | hten
  · rw [htext, hn]
    rcases hbase with rfl | rfl
    · decide
    · decide
  · have hmem : ∀ c ∈ Text.ofNat n, c.isDigit = true := fun c hc => Text.isDigit_of_mem_ofNat hc
    have hvalue : Text.digitsValue (Text.ofNat n) = n := by
      rw [Text.digitsValue_eq]
      exact Nat.ofDigitChars_ten_toDigits
    cases htext : Text.ofNat n with
    | nil => exact absurd htext (Text.ofNat_ne_nil n)
    | cons c t =>
      rw [htext] at hmem hvalue hten
      have hhex : (Text.hexDigitValue c).isSome = true := by
        have hrange := Text.digit_range (hmem c mem_cons_self)
        simp [Text.hexDigitValue, hrange]
      have hall : ∀ d ∈ c :: t, (digitIn 10 d).isSome = true := fun d hd => by
        rw [digitIn_ten (hmem d hd)]
        rfl
      rw [strto_of_digits hhex hten hall, valueIn_ten hmem, hvalue]

theorem strtoul_ofNat {n : Nat} (h : n < 2 ^ 64) : strtoul 0 (Text.ofNat n) = (n, []) := by
  unfold strtoul
  simp only [strto_ofNat (.inl rfl)]
  rw [if_neg (by omega), if_neg (by simp)]

theorem strtol_hexAtLeast {n : Nat} (w : Nat) (h : n < 2 ^ 63) : strtol 16 (Text.hexAtLeast w n) = ((n : Int), []) := by
  have hmin : min LONG_MAX (n : Int) = n := by
    unfold LONG_MAX
    omega
  unfold strtol
  simp [strto_hexAtLeast, hmin]

theorem atoi_ofNat {n : Nat} (h : n < 2 ^ 31) : atoi (Text.ofNat n) = n := by
  have hmin : min LONG_MAX (n : Int) = n := by
    unfold LONG_MAX
    omega
  unfold atoi strtol
  simp only [strto_ofNat (.inr rfl), hmin]
  rw [if_neg (by simp), BitVec.toInt_ofInt]
  exact Int.bmod_eq_of_le (by omega) (by omega)

end Lsof.Original
