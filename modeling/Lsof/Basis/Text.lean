import Mathlib

/-! # Text and bytes

Text is the list of its characters; lengths and offsets into it count the bytes
of its UTF-8 form, and an offset inside a character is no place to split it.
Byte strings that need not be text are read as UTF-8 unit by unit: a character,
or the longest run of bytes that starts one and does not finish it.
-/

namespace Lsof.Basis

open List

abbrev Text := List Char

abbrev Bytes := List UInt8

namespace Text

def bytes (t : Text) : Bytes := t.flatMap String.utf8EncodeChar

def byteLen (t : Text) : Nat := (t.map Char.utf8Size).sum

@[simp] theorem byteLen_nil : byteLen [] = 0 := rfl

@[simp] theorem byteLen_cons (c : Char) (t : Text) : byteLen (c :: t) = c.utf8Size + byteLen t := by
  simp [byteLen]

@[simp] theorem byteLen_append (s t : Text) : byteLen (s ++ t) = byteLen s + byteLen t := by
  simp [byteLen]

theorem byteLen_eq_zero {t : Text} : byteLen t = 0 ↔ t = [] := by
  cases t with
  | nil => simp
  | cons c t =>
    have := Char.utf8Size_pos c
    simp only [byteLen_cons, reduceCtorEq, iff_false]
    omega

theorem byteLen_le (t : Text) : byteLen t ≤ 4 * t.length := by
  induction t with
  | nil => simp
  | cons c t ih =>
    have hc := Char.utf8Size_le_four c
    simp only [byteLen_cons, length_cons]
    omega

theorem bytes_length (t : Text) : (bytes t).length = byteLen t := by
  induction t with
  | nil => rfl
  | cons c t ih =>
    simp only [bytes, flatMap_cons, length_append, byteLen_cons] at ih ⊢
    rw [ih, String.length_utf8EncodeChar]

/-- The text before and after byte `n`; nothing when `n` is past the end or
inside a character. -/
def splitAt? : Nat → Text → Option (Text × Text)
  | 0, t => some ([], t)
  | _ + 1, [] => none
  | n + 1, c :: t =>
    if c.utf8Size ≤ n + 1 then
      (splitAt? (n + 1 - c.utf8Size) t).map (fun halves => (c :: halves.1, halves.2))
    else none
  termination_by structural _ t => t

theorem splitAt?_append (s t : Text) : splitAt? (byteLen s) (s ++ t) = some (s, t) := by
  induction s with
  | nil => simp [splitAt?]
  | cons c s ih =>
    have hpos := Char.utf8Size_pos c
    obtain ⟨n, hn⟩ : ∃ n, byteLen (c :: s) = n + 1 := ⟨byteLen (c :: s) - 1, by simp; omega⟩
    rw [hn, cons_append, splitAt?]
    rw [byteLen_cons] at hn
    have hrest : n + 1 - c.utf8Size = byteLen s := by omega
    simp only [hrest, ih, Option.map_some, ite_eq_left_iff, reduceCtorEq, imp_false]
    omega

theorem splitAt?_spec {n : Nat} {t a b : Text} (h : splitAt? n t = some (a, b)) : t = a ++ b ∧ byteLen a = n := by
  induction t generalizing n a b with
  | nil =>
    cases n with
    | zero => simp_all [splitAt?]
    | succ n => simp [splitAt?] at h
  | cons c t ih =>
    cases n with
    | zero =>
      simp only [splitAt?, Option.some.injEq, Prod.mk.injEq] at h
      obtain ⟨rfl, rfl⟩ := h
      simp
    | succ n =>
      simp only [splitAt?] at h
      split at h
      · rename_i hle
        cases hs : splitAt? (n + 1 - c.utf8Size) t with
        | none => simp [hs] at h
        | some halves =>
          simp only [hs, Option.map_some, Option.some.injEq, Prod.mk.injEq] at h
          obtain ⟨rfl, rfl⟩ := h
          obtain ⟨happ, hlen⟩ := ih (a := halves.1) (b := halves.2) hs
          refine ⟨by rw [cons_append, ← happ], ?_⟩
          rw [byteLen_cons, hlen]
          omega
      · cases h

/-- Letters `A` to `Z` in lower case, every other character as it is. -/
def toAsciiLowercase (t : Text) : Text := t.map Char.toLower

def startsWith (t head : Text) : Bool := head.isPrefixOf t

def containsText (t part : Text) : Bool := t.tails.any (fun tail => part.isPrefixOf tail)

def afterLast (sep : Char) (t : Text) : Text := t.rtakeWhile (· != sep)

def splitLast (sep : Char) (t : Text) : Option (Text × Text) :=
  if t.contains sep then some ((t.rdropWhile (· != sep)).dropLast, t.rtakeWhile (· != sep))
  else none

theorem splitLast_append {sep : Char} {text rest : Text} (hrest : sep ∉ rest) :
    splitLast sep (text ++ sep :: rest) = some (text, rest) := by
  have hall : ∀ c ∈ rest.reverse, (c != sep) = true :=
    fun c hc => bne_iff_ne.mpr fun hsep => hrest (hsep ▸ mem_reverse.mp hc)
  rw [splitLast, if_pos (by simp), List.rdropWhile, List.rtakeWhile, reverse_append, reverse_cons,
    append_assoc, dropWhile_append_of_pos hall, takeWhile_append_of_pos hall]
  simp

variable {sep : Char}

theorem eq_of_splitLast {inner text rest : Text} (h : splitLast sep inner = some (text, rest)) :
    inner = text ++ sep :: rest := by
  by_cases hsep : sep ∈ inner
  · obtain ⟨as, bs, hinner, has⟩ := eq_append_cons_of_mem (mem_reverse.mpr hsep)
    have hsplit : inner = bs.reverse ++ sep :: as.reverse := by
      rw [← reverse_reverse inner, hinner]
      simp
    rw [hsplit, splitLast_append (fun hmem => has (mem_reverse.mp hmem))] at h
    obtain ⟨rfl, rfl⟩ := Prod.mk.inj (Option.some.inj h)
    exact hsplit
  · rw [splitLast, if_neg (by simpa using hsep)] at h
    exact absurd h nofun

theorem not_mem_of_splitLast {inner text rest : Text} (h : splitLast sep inner = some (text, rest)) : sep ∉ rest := by
  unfold splitLast at h
  split at h
  · cases h
    intro hmem
    simpa using mem_rtakeWhile_imp hmem
  · cases h

theorem splitLast_eq_none {t : Text} : splitLast sep t = none ↔ sep ∉ t := by
  simp [splitLast]

theorem splitLast_cons (sep c : Char) (t : Text) :
    splitLast sep (c :: t) =
      match splitLast sep t with
      | some halves => some (c :: halves.1, halves.2)
      | none => if c = sep then some ([], t) else none := by
  cases h : splitLast sep t with
  | some halves =>
    have ht := eq_of_splitLast h
    have hrest := not_mem_of_splitLast h
    rw [ht, ← cons_append]
    exact splitLast_append hrest
  | none =>
    have hmem := splitLast_eq_none.mp h
    by_cases hc : c = sep
    · rw [hc]
      simpa using @splitLast_append sep [] t hmem
    · simp only [hc, if_false]
      exact splitLast_eq_none.mpr (by simp [Ne.symm hc, hmem])

theorem suffix_of_splitLast {t : Text} {halves : Text × Text} (h : splitLast sep t = some halves) : halves.2 <:+ t :=
  ⟨halves.1 ++ [sep], by rw [eq_of_splitLast h, append_assoc]; rfl⟩

def trimEndMatches (sep : Char) (t : Text) : Text := t.rdropWhile (· == sep)

def ofNat (n : Nat) : Text := Nat.toDigits 10 n

def isDigits (t : Text) : Bool := t.all Char.isDigit

def digitsValue (t : Text) : Nat := t.foldl (fun n c => 10 * n + (c.toNat - '0'.toNat)) 0

/-- An unsigned number of `w` bits: one `+` may lead, then digits only and at
least one, and the value has to fit. -/
def parseUnsigned (w : Nat) (t : Text) : Option (BitVec w) :=
  let digits := match t with
    | '+' :: rest => rest
    | _ => t
  if !digits.isEmpty && isDigits digits && decide (digitsValue digits < 2 ^ w) then
    some (BitVec.ofNat w (digitsValue digits))
  else none

end Text

namespace Utf8

/-- One unit of a byte string read as UTF-8. -/
inductive Piece where
  | char (c : Char)
  | invalid (bytes : Bytes)
  deriving DecidableEq, Repr

/-- The second byte's range after a lead byte of a three- or four-byte form. -/
def secondRange (lead : UInt8) : UInt8 × UInt8 :=
  if lead = 0xE0 then (0xA0, 0xBF)
  else if lead = 0xED then (0x80, 0x9F)
  else if lead = 0xF0 then (0x90, 0xBF)
  else if lead = 0xF4 then (0x80, 0x8F)
  else (0x80, 0xBF)

def inRange (range : UInt8 × UInt8) (b : UInt8) : Bool := range.1 ≤ b && b ≤ range.2

/-- How many bytes follow a lead byte; nothing for a byte that leads none. -/
def tailLength (lead : UInt8) : Option Nat :=
  if lead < 0x80 then some 0
  else if 0xC2 ≤ lead && lead ≤ 0xDF then some 1
  else if 0xE0 ≤ lead && lead ≤ 0xEF then some 2
  else if 0xF0 ≤ lead && lead ≤ 0xF4 then some 3
  else none

def tailBytes : Nat → UInt8 × UInt8 → Bytes → Bytes
  | 0, _, _ => []
  | _ + 1, _, [] => []
  | n + 1, range, b :: rest =>
    if inRange range b then b :: tailBytes n (0x80, 0xBF) rest else []

def leadBits (lead : UInt8) (n : Nat) : Nat :=
  if n = 0 then lead.toNat else lead.toNat % 2 ^ (6 - n)

def codePoint (lead : UInt8) (tail : Bytes) : Nat :=
  tail.foldl (fun v b => 64 * v + b.toNat % 64) (leadBits lead tail.length)

def piece (lead : UInt8) (rest : Bytes) : Piece × Nat :=
  match tailLength lead with
  | none => (.invalid [lead], 0)
  | some n =>
    let tail := tailBytes n (secondRange lead) rest
    if tail.length = n then (.char (Char.ofNat (codePoint lead tail)), n)
    else (.invalid (lead :: tail), tail.length)

def piecesFuel : Nat → Bytes → List Piece
  | 0, _ => []
  | _ + 1, [] => []
  | fuel + 1, lead :: rest =>
    let first := piece lead rest
    first.1 :: piecesFuel fuel (rest.drop first.2)

/-- The pieces of a byte string. Each takes at least one byte, so its length is
fuel enough. -/
def pieces (bs : Bytes) : List Piece := piecesFuel bs.length bs

def decode (bs : Bytes) : Option Text :=
  (pieces bs).mapM (fun p => match p with
    | .char c => some c
    | .invalid _ => none)

def decodeLossy (bs : Bytes) : Text :=
  (pieces bs).map (fun p => match p with
    | .char c => c
    | .invalid _ => Char.ofNat 0xFFFD)

theorem piecesFuel_length_le (fuel : Nat) (bs : Bytes) : (piecesFuel fuel bs).length ≤ fuel := by
  induction fuel generalizing bs with
  | zero => simp [piecesFuel]
  | succ fuel ih =>
    cases bs with
    | nil => simp [piecesFuel]
    | cons lead rest =>
      have hrest := ih (rest.drop (piece lead rest).2)
      simp only [piecesFuel, length_cons]
      omega

theorem decodeLossy_byteLen_le (bs : Bytes) : Text.byteLen (decodeLossy bs) ≤ 4 * bs.length := by
  have htext := Text.byteLen_le (decodeLossy bs)
  have hpieces := piecesFuel_length_le bs.length bs
  simp only [decodeLossy, length_map, pieces] at htext ⊢
  omega

theorem decodeLossy_eq_nil {bs : Bytes} : decodeLossy bs = [] ↔ bs = [] := by
  cases bs with
  | nil => simp [decodeLossy, pieces, piecesFuel]
  | cons b rest => simp [decodeLossy, pieces, piecesFuel]

end Utf8

namespace Wtf8

def isSurrogate : Bytes → Bool
  | a :: b :: c :: _ => a == 0xED && Utf8.inRange (0xA0, 0xBF) b && Utf8.inRange (0x80, 0xBF) c
  | _ => false

def decodeLossyFuel : Nat → Bytes → Text
  | 0, _ => []
  | _ + 1, [] => []
  | fuel + 1, lead :: rest =>
    if isSurrogate (lead :: rest) then Char.ofNat 0xFFFD :: decodeLossyFuel fuel (rest.drop 2)
    else
      let first := Utf8.piece lead rest
      (match first.1 with
        | .char c => c
        | .invalid _ => Char.ofNat 0xFFFD) :: decodeLossyFuel fuel (rest.drop first.2)

/-- The text with one replacement character for each lone surrogate, which is
three bytes here. -/
def decodeLossy (bs : Bytes) : Text := decodeLossyFuel bs.length bs

end Wtf8

end Lsof.Basis
