import Lsof.Basis.Chain
import Lsof.Basis.Utf8

/-! # Lines and columns

A text table is read line by line, a line by its columns, the last of which may
be the untouched rest of it. The lines of bytes that need not be text are those
of the text they are read as, each read by itself. What a pass enters under a
key is what the last line with that key says.
-/

namespace Lsof.Basis

open List

namespace Text

/-- A line without the carriage return before its newline. -/
def stripCr (line : Text) : Text := if line.getLast? = some '\r' then line.dropLast else line

theorem stripCr_cons {c : Char} (hc : c ≠ '\r') (t : Text) : stripCr (c :: t) = c :: stripCr t := by
  cases t with
  | nil => simp [stripCr, hc]
  | cons d t =>
    unfold stripCr
    rw [getLast?_cons_cons]
    split <;> rfl

theorem stripCr_append {s : Text} (hs : '\r' ∉ s) (t : Text) : stripCr (s ++ t) = s ++ stripCr t := by
  induction s with
  | nil => rfl
  | cons c s ih =>
    rw [mem_cons, not_or] at hs
    rw [cons_append, stripCr_cons (Ne.symm hs.1), ih hs.2, cons_append]

theorem stripCr_ne_iff {t : Text} : stripCr t ≠ t ↔ ∃ u, t = u ++ ['\r'] := by
  unfold stripCr
  split
  next hlast =>
    obtain ⟨u, rfl⟩ := getLast?_eq_some_iff.mp hlast
    simp
  next hlast =>
    simp only [ne_eq, not_true_eq_false, false_iff, not_exists]
    rintro u rfl
    simp at hlast

def lines (t : Text) : List Text :=
  let parts := t.splitOnP (· == '\n')
  parts.dropLast.map stripCr ++ (parts.getLast?.filter (fun last => !last.isEmpty)).toList

def isWhitespace (c : Char) : Bool :=
  let n := c.toNat
  (0x09 ≤ n && n ≤ 0x0D) || n == 0x20 || n == 0x85 || n == 0xA0 || n == 0x1680 ||
    (0x2000 ≤ n && n ≤ 0x200A) || n == 0x2028 || n == 0x2029 || n == 0x202F || n == 0x205F ||
    n == 0x3000

theorem isWhitespace_of_graphic {c : Char} (hlo : 0x21 ≤ c.toNat) (hhi : c.toNat < 0x7F) :
    isWhitespace c = false := by
  simp only [isWhitespace, Bool.or_eq_false_iff, Bool.and_eq_false_iff, decide_eq_false_iff_not, beq_eq_false_iff_ne]
  omega

def trimStart (t : Text) : Text := t.dropWhile isWhitespace

theorem mem_lines_drop {t part : Text} (h : part ∈ (t.splitOnP (· == '\n')).drop 1) (hne : part ≠ []) :
    part ∈ t.lines.drop 1 ∨ stripCr part ∈ t.lines.drop 1 := by
  unfold lines
  generalize t.splitOnP (· == '\n') = parts at h
  rcases eq_nil_or_concat parts with rfl | ⟨front, last, rfl⟩
  · simp at h
  · rw [concat_eq_append] at h ⊢
    dsimp only
    rw [dropLast_concat, getLast?_concat]
    cases front with
    | nil => simp at h
    | cons first front =>
      have hpart : part ∈ front ∨ part = last := by simpa using h
      rcases hpart with hpart | rfl
      · exact .inr (mem_append_left _ (mem_map_of_mem hpart))
      · exact .inl (mem_append_right _ (by simp [hne]))

theorem lines_of_terminated {t : Text} {parts : List Text}
    (h : t.splitOnP (· == '\n') = parts ++ [[]]) : t.lines = parts.map stripCr := by
  simp [lines, h]

end Text

/-- The lines of a byte string, the part after the last newline included. -/
def rawLines (bs : Bytes) : List Bytes := bs.splitOnP (· == 0x0A)

theorem rawLines_append (u v : Bytes) : rawLines (u ++ 0x0A :: v) = rawLines u ++ rawLines v :=
  splitOnP_append_cons u v rfl

theorem rawLines_of_not_mem {u : Bytes} (h : (0x0A : UInt8) ∉ u) : rawLines u = [u] := by
  refine splitOnP_eq_singleton fun b hb => ?_
  simp only [beq_eq_false_iff_ne]
  exact fun hnl => h (hnl ▸ hb)

theorem rawLines_prefix {x : Bytes} (hx : (0x0A : UInt8) ∉ x) (u : Bytes) :
    rawLines (x ++ u) = (x ++ (rawLines u).headD []) :: (rawLines u).tail := by
  induction hlen : u.length using Nat.strong_induction_on generalizing u with
  | _ n ih =>
    by_cases hnl : (0x0A : UInt8) ∈ u
    · obtain ⟨v, w, rfl⟩ := append_of_mem hnl
      rw [length_append, length_cons] at hlen
      have hne : rawLines v ≠ [] := splitOnP_ne_nil _ _
      rw [← append_assoc, rawLines_append, rawLines_append, ih v.length (by omega) v rfl]
      cases hv : rawLines v with
      | nil => exact absurd hv hne
      | cons first rest => rfl
    · rw [rawLines_of_not_mem hnl, rawLines_of_not_mem]
      · rfl
      · exact fun h => (mem_append.mp h).elim hx hnl

namespace Utf8

def Piece.shown : Piece → Char
  | .char c => c
  | .invalid _ => Char.ofNat 0xFFFD

theorem decodeLossy_eq (bs : Bytes) : decodeLossy bs = (pieces bs).map Piece.shown := by
  unfold decodeLossy
  congr 1

theorem decodeLossy_append_ascii (u : Bytes) {a : UInt8} (ha : a.toNat < 0x80) (v : Bytes) :
    decodeLossy (u ++ a :: v) = decodeLossy u ++ Char.ofNat a.toNat :: decodeLossy v := by
  simp [decodeLossy_eq, pieces_append_ascii u ha v, Piece.shown]

theorem decodeLossy_bytes_append (t : Text) (v : Bytes) : decodeLossy (t.bytes ++ v) = t ++ decodeLossy v := by
  simp [decodeLossy_eq, pieces_bytes_append, Piece.shown, Function.comp_def]

theorem decodeLossy_bytes (t : Text) : decodeLossy t.bytes = t := by
  simpa [decodeLossy_eq] using decodeLossy_bytes_append t []

variable {bs : Bytes}

theorem decodeLossy_of_decode {t : Text} (h : decode bs = some t) : decodeLossy bs = t := by
  rw [bytes_of_decode h, decodeLossy_bytes]

theorem bytes_injective {s t : Text} (h : s.bytes = t.bytes) : s = t := by
  rw [← decodeLossy_bytes s, h, decodeLossy_bytes]

theorem newline_mem_of_shown (h : '\n' ∈ decodeLossy bs) : (0x0A : UInt8) ∈ bs := by
  rw [decodeLossy_eq] at h
  obtain ⟨p, hp, hshown⟩ := mem_map.mp h
  cases p with
  | invalid bad =>
    have hbad : Char.ofNat 0xFFFD = '\n' := hshown
    exact absurd hbad (by decide)
  | char c =>
    have hc : c = '\n' := hshown
    rw [← flatMap_bytes_pieces bs]
    exact mem_flatMap.mpr ⟨_, hp, by rw [hc]; decide⟩

theorem not_mem_bytes_of_newline {t : Text} (h : '\n' ∉ t) : (0x0A : UInt8) ∉ t.bytes := by
  intro hmem
  obtain ⟨u, v, huv⟩ := append_of_mem hmem
  have hshown := decodeLossy_bytes t
  rw [huv, decodeLossy_append_ascii u (by decide)] at hshown
  exact h (hshown ▸ mem_append_right _ (mem_cons_self ..))

theorem lt_of_mem_bytes {t : Text} (h : ∀ c ∈ t, c.toNat < 0x80) {b : UInt8} (hb : b ∈ t.bytes) : b < 0x80 := by
  obtain ⟨c, hc, hbc⟩ := mem_flatMap.mp hb
  rw [encode_ascii (h c hc), mem_singleton] at hbc
  rw [hbc, UInt8.lt_iff_toNat_lt, toNat_ofNat_small (by have := h c hc; omega)]
  exact h c hc

theorem mem_pieces_of_rawLines {bs line : Bytes} {p : Piece} (hline : line ∈ rawLines bs)
    (hp : p ∈ pieces line) : p ∈ pieces bs := by
  induction hlen : bs.length using Nat.strong_induction_on generalizing bs with
  | _ n ih =>
    by_cases hnl : (0x0A : UInt8) ∈ bs
    · obtain ⟨u, v, rfl⟩ := append_of_mem hnl
      rw [length_append, length_cons] at hlen
      rw [rawLines_append, mem_append] at hline
      rw [pieces_append_ascii u (by decide) v, mem_append, mem_cons]
      rcases hline with hline | hline
      · exact .inl (ih u.length (by omega) hline rfl)
      · exact .inr (.inr (ih v.length (by omega) hline rfl))
    · rw [rawLines_of_not_mem hnl, mem_singleton] at hline
      exact hline ▸ hp

theorem decode_isSome : (decode bs).isSome = true ↔ ∀ bad, Piece.invalid bad ∉ pieces bs := by
  constructor
  · intro h bad hbad
    obtain ⟨t, ht⟩ := Option.isSome_iff_exists.mp h
    rw [bytes_of_decode ht, pieces_bytes] at hbad
    simp at hbad
  · intro h
    have hchars : pieces bs = (decodeLossy bs).map Piece.char := by
      rw [decodeLossy_eq, map_map]
      conv_lhs => rw [← map_id (pieces bs)]
      refine map_congr_left fun p hp => ?_
      cases p with
      | char c => rfl
      | invalid bad => exact absurd hp (h bad)
    have hbytes : bs = (decodeLossy bs).bytes := by
      conv_lhs => rw [← flatMap_bytes_pieces bs, hchars, flatMap_map]
      rfl
    rw [hbytes, decode_bytes]
    rfl

theorem decode_bytes_append (t : Text) (v : Bytes) : (decode (t.bytes ++ v)).isSome = (decode v).isSome := by
  rw [Bool.eq_iff_iff, decode_isSome, decode_isSome, pieces_bytes_append]
  simp

theorem decode_rawLines {bs line : Bytes} (h : (decode bs).isSome = true) (hline : line ∈ rawLines bs) :
    (decode line).isSome = true :=
  decode_isSome.mpr fun bad hbad => decode_isSome.mp h bad (mem_pieces_of_rawLines hline hbad)

theorem splitOnP_decodeLossy (bs : Bytes) :
    (decodeLossy bs).splitOnP (· == '\n') = (rawLines bs).map decodeLossy := by
  induction hlen : bs.length using Nat.strong_induction_on generalizing bs with
  | _ n ih =>
    by_cases hnl : (0x0A : UInt8) ∈ bs
    · obtain ⟨u, v, rfl⟩ := append_of_mem hnl
      rw [length_append, length_cons] at hlen
      have hu := ih u.length (by omega) u rfl
      have hv := ih v.length (by omega) v rfl
      have hchar : Char.ofNat (0x0A : UInt8).toNat = '\n' := rfl
      rw [decodeLossy_append_ascii u (by decide), hchar, splitOnP_append_cons _ _ (by rfl),
        rawLines_append, map_append, hu, hv]
    · rw [rawLines_of_not_mem hnl, splitOnP_eq_singleton]
      · rfl
      · intro c hc
        simp only [beq_eq_false_iff_ne]
        exact fun hnl' => hnl (newline_mem_of_shown (hnl' ▸ hc))

end Utf8

namespace Text

/-- Columns up to `k` of them, and the rest of the line. -/
def columns : Nat → Text → List Text
  | 0, rest => if rest.isEmpty then [] else [rest]
  | k + 1, rest =>
    if rest.any isWhitespace then
      rest.takeWhile (fun c => !isWhitespace c) ::
        columns k (trimStart (rest.dropWhile (fun c => !isWhitespace c)))
    else if rest.isEmpty then [] else [rest]

/-- At most `n` fields, the last of which is the untouched rest of the line. -/
def fieldsWithRest (line : Text) (n : Nat) : List Text := columns (n - 1) (trimStart line)

def Solid (t : Text) : Prop := ∀ c ∈ t, isWhitespace c = false

def Spaced (t : Text) : Prop := ∃ c rest, t = c :: rest ∧ isWhitespace c = true

theorem columns_nil (k : Nat) : columns k [] = [] := by
  cases k <;> rfl

theorem trimStart_append_space {x : Text} {w : Char} (hw : isWhitespace w = true) :
    trimStart (x ++ [w]) = if trimStart x = [] then [] else trimStart x ++ [w] := by
  unfold trimStart
  rw [dropWhile_append]
  simp [hw]

variable {k : Nat}

theorem solid_of_columns {t : Text} (h : 1 < (columns k t).length) : ((columns k t).getD 0 []).Solid := by
  cases k with
  | zero =>
    rw [columns] at h
    split at h
    · simp at h
    · simp at h
  | succ k =>
    rw [columns] at h ⊢
    split at h
    next hany =>
      rw [if_pos hany]
      intro c hc
      simpa using mem_takeWhile_imp hc
    next => split at h <;> simp at h

theorem columns_succ {token t : Text} (htoken : token.Solid) (ht : Spaced t) :
    columns (k + 1) (token ++ t) = token :: columns k (trimStart t) := by
  obtain ⟨c, rest, rfl, hc⟩ := ht
  have hpos : ∀ x ∈ token, (!isWhitespace x) = true := fun x hx => by simp [htoken x hx]
  have hany : (token ++ c :: rest).any isWhitespace = true := by simp [hc]
  rw [columns, if_pos hany, takeWhile_append_of_pos hpos, dropWhile_append_of_pos hpos]
  simp [hc]

theorem columns_last {token : Text} (htoken : token.Solid) (hne : token ≠ []) : columns k token = [token] := by
  have hany : ¬ token.any isWhitespace = true := by
    simp only [any_eq_true, not_exists, not_and]
    exact fun x hx => by simp [htoken x hx]
  cases k with
  | zero => simp [columns, hne]
  | succ k => rw [columns, if_neg hany, if_neg (by simpa using hne)]

theorem trimStart_of_solid {token : Text} (htoken : token.Solid) (hne : token ≠ []) (t : Text) :
    trimStart (token ++ t) = token ++ t := by
  cases token with
  | nil => exact absurd rfl hne
  | cons c token => simp [trimStart, htoken c (mem_cons_self ..)]

theorem trimStart_blank (t : Text) : trimStart (' ' :: t) = trimStart t := by
  rw [trimStart, dropWhile_cons, if_pos (by decide)]
  rfl

theorem columns_blank {token t : Text} (htoken : token.Solid) :
    columns (k + 1) (token ++ ' ' :: t) = token :: columns k (trimStart t) := by
  rw [columns_succ htoken ⟨' ', t, rfl, by decide⟩, trimStart_blank]

theorem solid_or_spaced (x : Text) : x.Solid ∨ ∃ token t, x = token ++ t ∧ token.Solid ∧ Spaced t := by
  induction x with
  | nil => exact .inl fun c hc => absurd hc (not_mem_nil)
  | cons c x ih =>
    cases hc : isWhitespace c with
    | true => exact .inr ⟨[], c :: x, rfl, fun d hd => absurd hd (not_mem_nil), c, x, rfl, hc⟩
    | false =>
      rcases ih with hsolid | ⟨token, t, rfl, htoken, ht⟩
      · exact .inl (forall_mem_cons.mpr ⟨hc, hsolid⟩)
      · exact .inr ⟨c :: token, t, rfl, forall_mem_cons.mpr ⟨hc, htoken⟩, ht⟩

theorem Spaced.append {t : Text} (h : Spaced t) (u : Text) : Spaced (t ++ u) := by
  obtain ⟨c, rest, rfl, hc⟩ := h
  exact ⟨c, rest ++ u, rfl, hc⟩

theorem columns_append_space {x : Text} {w : Char} (hw : isWhitespace w = true)
    (h : k < (columns k (x ++ [w])).length) :
    (columns k (x ++ [w])).take k = (columns k x).take k ∧ k ≤ (columns k x).length := by
  induction k generalizing x with
  | zero => simp
  | succ k ih =>
    rcases solid_or_spaced x with hsolid | ⟨token, t, rfl, htoken, ht⟩
    · -- nothing follows the only column
      rw [columns_succ hsolid ⟨w, [], rfl, hw⟩] at h
      simp [trimStart, hw, columns_nil] at h
    · rw [append_assoc, columns_succ htoken (ht.append [w]), trimStart_append_space hw] at h ⊢
      rw [columns_succ htoken ht]
      split at h
      next => simp [columns_nil] at h
      next hne =>
        rw [if_neg hne]
        obtain ⟨hcols, hlen⟩ := ih (Nat.lt_of_succ_lt_succ h)
        exact ⟨by rw [take_succ_cons, take_succ_cons, hcols], Nat.succ_le_succ hlen⟩

theorem fieldsWithRest_stripCr {line : Text} {n : Nat} (hn : 0 < n) (h : n ≤ (fieldsWithRest line n).length) :
    (fieldsWithRest (stripCr line) n).take (n - 1) = (fieldsWithRest line n).take (n - 1) ∧
      n - 1 ≤ (fieldsWithRest (stripCr line) n).length := by
  unfold stripCr
  split
  next hlast =>
    obtain ⟨x, rfl⟩ : ∃ x, line = x ++ ['\r'] := by
      obtain ⟨x, hx⟩ := getLast?_eq_some_iff.mp hlast
      exact ⟨x, hx⟩
    have hcr : isWhitespace '\r' = true := by decide
    rw [dropLast_concat]
    unfold fieldsWithRest at h ⊢
    rw [trimStart_append_space hcr] at h ⊢
    split at h
    next =>
      rw [columns_nil, length_nil] at h
      omega
    next hne =>
      rw [if_neg hne]
      have hfull : n - 1 < (columns (n - 1) (trimStart x ++ ['\r'])).length := by omega
      obtain ⟨hcols, hlen⟩ := columns_append_space hcr hfull
      exact ⟨hcols.symm, hlen⟩
  next => exact ⟨rfl, by omega⟩

end Text

namespace Text

theorem intercalate_cons (sep t : Text) (ts : List Text) :
    sep.intercalate (t :: ts) = t ++ ts.flatMap (sep ++ ·) := by
  induction ts generalizing t with
  | nil => rw [intercalate_singleton, flatMap_nil, append_nil]
  | cons u ts ih => rw [intercalate_cons_cons, ih, flatMap_cons, append_assoc, append_assoc]

theorem forall_mem_intercalate {P : Char → Prop} {sep : Text} {ts : List Text} (hsep : ∀ c ∈ sep, P c)
    (hts : ∀ t ∈ ts, ∀ c ∈ t, P c) : ∀ c ∈ sep.intercalate ts, P c := by
  cases ts with
  | nil => exact forall_mem_nil _
  | cons t ts =>
    rw [forall_mem_cons] at hts
    rw [intercalate_cons]
    refine forall_mem_append.mpr ⟨hts.1, fun c hc => ?_⟩
    obtain ⟨u, hu, hc⟩ := mem_flatMap.mp hc
    exact forall_mem_append.mpr ⟨hsep, hts.2 u hu⟩ c hc

end Text

namespace Text

def hexDigitValue (c : Char) : Option Nat :=
  let n := c.toNat
  if 0x30 ≤ n ∧ n ≤ 0x39 then some (n - 0x30)
  else if 0x41 ≤ n ∧ n ≤ 0x46 then some (n - 0x37)
  else if 0x61 ≤ n ∧ n ≤ 0x66 then some (n - 0x57)
  else none

def hexValue (t : Text) : Nat := t.foldl (fun v c => 16 * v + (hexDigitValue c).getD 0) 0

/-- An unsigned number of `w` bits in base sixteen: one `+` may lead, then
digits only and at least one, and the value has to fit. -/
def parseHex (w : Nat) (t : Text) : Option Nat :=
  let digits := match t with
    | '+' :: rest => rest
    | _ => t
  if !digits.isEmpty && digits.all (fun c => (hexDigitValue c).isSome) &&
      decide (hexValue digits < 2 ^ w) then
    some (hexValue digits)
  else none

def hexPad (digits : Text) : Nat → Nat → Text
  | 0, _ => []
  | w + 1, n => hexPad digits w (n / 16) ++ [digits.getD (n % 16) '0']

def upperHex : Text := "0123456789ABCDEF".toList

def lowerHex : Text := "0123456789abcdef".toList

def padLeft (w : Nat) (t : Text) : Text := List.replicate (w - t.length) ' ' ++ t

variable {digits : Text}

theorem hexDigitValue_getD (hd : digits = upperHex ∨ digits = lowerHex) {n : Nat}
    (hn : n < 16) : hexDigitValue (digits.getD n '0') = some n := by
  have hall : ∀ n ∈ List.range 16, hexDigitValue (upperHex.getD n '0') = some n ∧
      hexDigitValue (lowerHex.getD n '0') = some n := by decide
  have hboth := hall n (mem_range.mpr hn)
  rcases hd with rfl | rfl
  · exact hboth.1
  · exact hboth.2

variable {c : Char}

theorem hexDigit_range (h : (hexDigitValue c).isSome = true) : 0x30 ≤ c.toNat ∧ c.toNat ≤ 0x66 := by
  unfold hexDigitValue at h
  dsimp only at h
  split at h
  next => omega
  next =>
    split at h
    next => omega
    next =>
      split at h
      next => omega
      next => cases h

theorem length_hexPad (digits : Text) (w n : Nat) : (hexPad digits w n).length = w := by
  induction w generalizing n with
  | zero => rfl
  | succ w ih => simp [hexPad, ih]

theorem mem_hexPad (hd : digits = upperHex ∨ digits = lowerHex) {w n : Nat}
    (hc : c ∈ hexPad digits w n) : (hexDigitValue c).isSome = true := by
  induction w generalizing n with
  | zero => simp [hexPad] at hc
  | succ w ih =>
    rw [hexPad, mem_append, mem_singleton] at hc
    rcases hc with hc | hc
    · exact ih hc
    · rw [hc, hexDigitValue_getD hd (Nat.mod_lt _ (by decide))]
      rfl

theorem solid_hexPad (hd : digits = upperHex ∨ digits = lowerHex) (w n : Nat) :
    (hexPad digits w n).Solid := fun _ hc =>
  have hrange := hexDigit_range (mem_hexPad hd hc)
  isWhitespace_of_graphic (by omega) (by omega)

theorem hexPad_ne_nil (digits : Text) {w : Nat} (hw : 0 < w) (n : Nat) : hexPad digits w n ≠ [] := by
  intro h
  have hlen := length_hexPad digits w n
  rw [h, length_nil] at hlen
  omega

theorem hexValue_hexPad (hd : digits = upperHex ∨ digits = lowerHex) {w n : Nat}
    (hn : n < 16 ^ w) : hexValue (hexPad digits w n) = n := by
  induction w generalizing n with
  | zero =>
    have : n = 0 := by simpa using hn
    simp [this, hexPad, hexValue]
  | succ w ih =>
    have hdiv : n / 16 < 16 ^ w := by
      rw [Nat.pow_succ] at hn
      exact Nat.div_lt_of_lt_mul (by omega)
    have hrest := ih hdiv
    unfold hexValue at hrest ⊢
    rw [hexPad, foldl_append, hrest]
    simp only [foldl_cons, foldl_nil]
    rw [hexDigitValue_getD hd (Nat.mod_lt _ (by decide)), Option.getD_some]
    omega

theorem parseHex_hexPad (hd : digits = upperHex ∨ digits = lowerHex) {w bits n : Nat}
    (hw : 0 < w) (hn : n < 16 ^ w) (hbits : n < 2 ^ bits) : parseHex bits (hexPad digits w n) = some n := by
  have hmem : ∀ c ∈ hexPad digits w n, (hexDigitValue c).isSome = true := fun c hc => mem_hexPad hd hc
  have hlen := length_hexPad digits w n
  have hval := hexValue_hexPad hd hn
  generalize hexPad digits w n = t at hmem hlen hval
  have hplus : ∀ rest, t ≠ '+' :: rest := by
    intro rest h
    have := hmem '+' (by simp [h])
    simp [hexDigitValue] at this
  unfold parseHex
  split
  next => exact absurd rfl (hplus _)
  next =>
    have hne : t ≠ [] := fun h => by
      rw [h] at hlen
      simp at hlen
      omega
    have hall : t.all (fun c => (hexDigitValue c).isSome) = true := all_eq_true.mpr hmem
    simp [hne, hall, hval, hbits]

theorem digitsValue_eq (t : Text) : digitsValue t = Nat.ofDigitChars 10 t 0 := by
  rw [digitsValue, Nat.ofDigitChars_eq_foldl]

theorem isDigit_of_mem_ofNat {n : Nat} (hc : c ∈ ofNat n) : c.isDigit = true :=
  Nat.isDigit_of_mem_toDigits (by decide) (by decide) hc

theorem digit_range (h : c.isDigit = true) : 0x30 ≤ c.toNat ∧ c.toNat ≤ 0x39 := by
  simp only [Char.isDigit, Bool.and_eq_true, decide_eq_true_eq, UInt32.le_iff_toNat_le] at h
  exact h

theorem solid_ofNat (n : Nat) : (ofNat n).Solid := by
  intro c hc
  have hrange := digit_range (isDigit_of_mem_ofNat hc)
  exact isWhitespace_of_graphic (by omega) (by omega)

theorem trimStart_padLeft {token : Text} (htoken : token.Solid) (hne : token ≠ []) (w : Nat) (t : Text) :
    trimStart (padLeft w token ++ t) = token ++ t := by
  rw [padLeft, append_assoc]
  induction w - token.length with
  | zero => exact trimStart_of_solid htoken hne t
  | succ n ih => rw [replicate_succ, cons_append, trimStart_blank, ih]

theorem ofNat_ne_nil (n : Nat) : ofNat n ≠ [] := Nat.toDigits_ne_nil

theorem parseUnsigned_ofNat {w : Nat} (n : BitVec w) : parseUnsigned w (ofNat n.toNat) = some n := by
  have hmem : ∀ c ∈ ofNat n.toNat, c.isDigit = true := fun c hc => isDigit_of_mem_ofNat hc
  have hne := ofNat_ne_nil n.toNat
  have hval : digitsValue (ofNat n.toNat) = n.toNat := by
    rw [digitsValue_eq]
    exact Nat.ofDigitChars_ten_toDigits
  generalize ofNat n.toNat = t at hmem hne hval
  have hplus : ∀ rest, t ≠ '+' :: rest := by
    intro rest h
    have hdigit := hmem '+' (by simp [h])
    exact absurd hdigit (by decide)
  unfold parseUnsigned
  split
  next => exact absurd rfl (hplus _)
  next =>
    have hall : isDigits t = true := all_eq_true.mpr hmem
    have hlt := n.isLt
    simp [hne, hall, hval, hlt]

theorem trimEndMatches_concat {sep : Char} {t : Text} (h : sep ∉ t) : trimEndMatches sep (t ++ [sep]) = t := by
  unfold trimEndMatches
  rw [rdropWhile_concat_pos (· == sep) t sep (beq_self_eq_true sep), rdropWhile_eq_self_iff]
  intro hne hsep
  exact h (beq_iff_eq.mp hsep ▸ getLast_mem hne)

def Plain (t : Text) : Prop := ∀ c ∈ t, 0x20 ≤ c.toNat ∧ c.toNat < 0x7F

instance (t : Text) : Decidable t.Plain := List.decidableBAll _ t

theorem plain_append {s t : Text} : (s ++ t).Plain ↔ s.Plain ∧ t.Plain := forall_mem_append

theorem plain_cons {t : Text} :
    Plain (c :: t) ↔ (0x20 ≤ c.toNat ∧ c.toNat < 0x7F) ∧ t.Plain := forall_mem_cons

theorem plain_hexPad (hd : digits = upperHex ∨ digits = lowerHex) (w n : Nat) : (hexPad digits w n).Plain := by
  intro c hc
  have hrange := hexDigit_range (mem_hexPad hd hc)
  omega

theorem plain_ofNat (n : Nat) : (ofNat n).Plain := by
  intro c hc
  have hrange := digit_range (isDigit_of_mem_ofNat hc)
  omega

theorem Plain.padLeft {t : Text} (h : t.Plain) (w : Nat) : (padLeft w t).Plain := by
  refine plain_append.mpr ⟨fun c hc => ?_, h⟩
  rw [(mem_replicate.mp hc).2]
  decide

end Text

section Entries

variable {κ ν : Type} [DecidableEq κ]

def updateAll (m : κ → Option ν) (entries : List (κ × ν)) : κ → Option ν :=
  entries.foldl (fun m entry => update m entry.1 entry.2) m

def lastOf (k : κ) : List (κ × ν) → Option ν
  | [] => none
  | (k', v) :: entries => (lastOf k entries).or (if k' = k then some v else none)

theorem lastOf_nil (k : κ) : lastOf k ([] : List (κ × ν)) = none := rfl

theorem lastOf_cons (k : κ) (e : κ × ν) (entries : List (κ × ν)) :
    lastOf k (e :: entries) = (lastOf k entries).or (if e.1 = k then some e.2 else none) := rfl

theorem lastOf_append (k : κ) (es fs : List (κ × ν)) : lastOf k (es ++ fs) = (lastOf k fs).or (lastOf k es) := by
  induction es with
  | nil => simp [lastOf_nil]
  | cons e es ih => simp [lastOf_cons, ih, Option.or_assoc]

theorem updateAll_apply (m : κ → Option ν) (entries : List (κ × ν)) (k : κ) :
    updateAll m entries k = (lastOf k entries).or (m k) := by
  induction entries generalizing m with
  | nil => simp [updateAll, lastOf_nil]
  | cons e entries ih =>
    have hstep : updateAll m (e :: entries) = updateAll (update m e.1 e.2) entries := rfl
    rw [hstep, ih, lastOf_cons, Option.or_assoc]
    congr 1
    by_cases hk : k = e.1
    · simp [hk, update]
    · simp [update_of_ne _ _ hk, Ne.symm hk]

variable {entries : List (κ × ν)} {k : κ}

theorem lastOf_eq_none (h : ∀ e ∈ entries, e.1 ≠ k) : lastOf k entries = none := by
  induction entries with
  | nil => rfl
  | cons e entries ih =>
    rw [lastOf_cons, ih fun x hx => h x (mem_cons_of_mem e hx), if_neg (h e (mem_cons_self ..))]
    rfl

theorem lastOf_of_unique {v : ν} (h : (k, v) ∈ entries)
    (hunique : ∀ e ∈ entries, e.1 = k → e.2 = v) : lastOf k entries = some v := by
  induction entries with
  | nil => simp at h
  | cons e entries ih =>
    have hlater := fun x hx => hunique x (mem_cons_of_mem e hx)
    rw [lastOf_cons]
    by_cases hmem : (k, v) ∈ entries
    · rw [ih hmem hlater]
      rfl
    · have he : e = (k, v) := ((mem_cons.mp h).resolve_right hmem).symm
      have hnone : lastOf k entries = none := lastOf_eq_none fun x hx hk =>
        hmem ((Prod.ext hk (hlater x hx hk) : x = (k, v)) ▸ hx)
      rw [hnone, he]
      simp

theorem lastOf_isSome {v : ν} (h : (k, v) ∈ entries) : (lastOf k entries).isSome = true := by
  induction entries with
  | nil => simp at h
  | cons e entries ih =>
    rw [lastOf_cons]
    rcases mem_cons.mp h with he | h
    · simp [← he]
    · simp [ih h]

theorem lastOf_eq_none_iff : lastOf k entries = none ↔ ¬ ∃ e ∈ entries, e.1 = k := by
  constructor
  · rintro hnone ⟨e, he, rfl⟩
    have hsome := lastOf_isSome (k := e.1) (v := e.2) he
    rw [hnone] at hsome
    cases hsome
  · intro h
    exact lastOf_eq_none fun e he hk => h ⟨e, he, hk⟩

theorem mem_of_lastOf {v : ν} (h : lastOf k entries = some v) : (k, v) ∈ entries := by
  induction entries with
  | nil => cases h
  | cons e entries ih =>
    rw [lastOf_cons] at h
    cases hrest : lastOf k entries with
    | some w =>
      rw [hrest, Option.some_or] at h
      exact mem_cons_of_mem e (ih (hrest.trans h))
    | none =>
      rw [hrest, Option.none_or] at h
      split at h
      next hk =>
        cases h
        exact hk ▸ mem_cons_self ..
      next => cases h

theorem lastOf_map {μ : Type} (g : κ → ν → μ) (k : κ) (entries : List (κ × ν)) :
    lastOf k (entries.map fun e => (e.1, g e.1 e.2)) = (lastOf k entries).map (g k) := by
  induction entries with
  | nil => rfl
  | cons e entries ih =>
    rw [map_cons, lastOf_cons, ih, lastOf_cons]
    cases lastOf k entries with
    | some v => rfl
    | none =>
      by_cases hk : e.1 = k
      · simp [hk]
      · simp [hk]

/-- Two runs of entries leave a key alike between the same earlier entries and
the same later ones: a later one settles it, or they say the same of it. -/
def LeaveAlike (k : κ) (held : Option ν) (earlier later es fs : List (κ × ν)) : Prop :=
  (∃ e ∈ later, e.1 = k) ∨
    (lastOf k es).or ((lastOf k earlier).or held) = (lastOf k fs).or ((lastOf k earlier).or held)

theorem leaveAlike_iff {held : Option ν} {earlier later es fs : List (κ × ν)} :
    LeaveAlike k held earlier later es fs ↔
      (lastOf k later).or ((lastOf k es).or ((lastOf k earlier).or held)) =
        (lastOf k later).or ((lastOf k fs).or ((lastOf k earlier).or held)) := by
  unfold LeaveAlike
  cases h : lastOf k later with
  | none =>
    rw [Option.none_or, Option.none_or]
    exact or_iff_right (lastOf_eq_none_iff.mp h)
  | some v =>
    have hlater : ∃ e ∈ later, e.1 = k := by
      by_contra hno
      rw [lastOf_eq_none_iff.mpr hno] at h
      cases h
    simp [hlater]

end Entries

end Lsof.Basis
