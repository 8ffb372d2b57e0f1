import Lsof.Basis.Letters
import Lsof.Core.Escape

/-! # The letters of an option word

An option word is read letter by letter. A byte that is part of no character is
a letter too: it stands in the list as one of the last 256 private-use
characters. Where each letter begins in the word's bytes is then counted from
the letters alone.
-/

namespace Lsof.Cli

open Lsof.Basis Lsof.Core List

def letterForByte (b : UInt8) : Char := Char.ofNat (0x10FF00 + b.toNat)

def byteLetter (c : Char) : Option UInt8 :=
  if 0x10FF00 ≤ c.toNat ∧ c.toNat - 0x10FF00 < 256 then some (UInt8.ofNat (c.toNat - 0x10FF00)) else none

def standInBytes (text : Text) : Bytes :=
  text.flatMap fun c => match byteLetter c with
    | some b => [b]
    | none => String.utf8EncodeChar c

/-- An argument as an error message quotes it. `standIns` says that the words of
this parse that are not UTF-8 are read with stand-ins. -/
def shown (host : Host) (standIns : Bool) (arg : Text) : Text :=
  if standIns && arg.any fun c => (byteLetter c).isSome then
    (Escaper.forHost host).bytes (standInBytes arg)
  else (Escaper.forHost host).text arg

def quoting (host : Host) (standIns : Bool) (message arg : Text) : Text :=
  message ++ shown host standIns arg

theorem toNat_letterForByte (b : UInt8) : (letterForByte b).toNat = 0x10FF00 + b.toNat :=
  Utf8.toNat_ofNat_of_valid (.inr ⟨by omega, by have := b.toNat_lt; omega⟩)

@[simp] theorem byteLetter_letterForByte (b : UInt8) : byteLetter (letterForByte b) = some b := by
  have hb := b.toNat_lt
  rw [byteLetter, toNat_letterForByte, if_pos ⟨by omega, by omega⟩, Nat.add_sub_cancel_left, UInt8.ofNat_toNat]

/-- The letters after the prefix, and whether the stand-ins among them are told
apart from characters. A word that is UTF-8 is said to be in any case. -/
def optionLetters (word : Bytes) : List Char × Bool :=
  let bytes := word.drop 1
  match Utf8.decode bytes with
  | some text => (text, true)
  | none =>
    ((Utf8.pieces bytes).flatMap (fun
      | .char c => [c]
      | .invalid bad => bad.map letterForByte),
     (Utf8.pieces bytes).all fun
      | .char c => (byteLetter c).isNone
      | .invalid _ => true)

/-- Where letter `j + 1` begins in the word: one byte for a stand-in, where
there are stand-ins. -/
def letterOffset (chars : List Char) (j : Nat) (standIns : Bool) : Nat :=
  1 + ((chars.take (j + 1)).map fun c =>
    if (byteLetter c).isSome && standIns then 1 else c.utf8Size).sum

/-- The value of an option as bytes: the rest of its word, or the next word
unless that is `--`; and the word the scan is at then. -/
def wordValue (chars : List Char) (j : Nat) (standIns : Bool) (raw : List Bytes) (i : Nat) :
    Option (Bytes × Nat) :=
  if j + 1 < chars.length then
    raw[i]?.bind fun word =>
      let offset := letterOffset chars j standIns
      if offset ≤ word.length then some (word.drop offset, i) else none
  else (raw[i + 1]?.filter fun word => word != Text.bytes "--".toList).map fun word => (word, i + 1)

/-- For `+d`, `+D`, `-e` and `+e`. -/
def pathValue := wordValue

/-- For `-c` and `-u`, which compare bytes. -/
def rawValue := wordValue

def rawByte (lettersOk : Bool) (c : Char) : Option UInt8 := if lettersOk then byteLetter c else none

def endsOptions (lettersOk : Bool) (c : Char) : Bool := rawByte lettersOk c == some 0xFF

def letterChar : Utf8.Letter → Char
  | .char c => c
  | .byte b => letterForByte b

theorem optionLetters_fst (word : Bytes) : (optionLetters word).1 = (Utf8.letters (word.drop 1)).map letterChar := by
  unfold optionLetters
  dsimp only
  split
  next text htext =>
    rw [Utf8.letters_of_decode htext, map_map]
    exact (map_id text).symm
  next =>
    rw [Utf8.letters, map_flatMap]
    dsimp only
    congr 1
    funext p
    cases p with
    | char c => rfl
    | invalid bad =>
      rw [Utf8.Piece.letters, map_map]
      rfl

def NoStandIns (ls : List Utf8.Letter) : Prop := ∀ c, .char c ∈ ls → byteLetter c = none

/-- The bytes of a letter, as many as `letterOffset` counts for it. -/
def letterBytes (standIns : Bool) (c : Char) : Bytes :=
  match byteLetter c with
  | some b => if standIns then [b] else String.utf8EncodeChar c
  | none => String.utf8EncodeChar c

theorem letterBytes_letterChar {l : Utf8.Letter} (h : ∀ c, l = .char c → byteLetter c = none) :
    letterBytes true (letterChar l) = l.bytes := by
  cases l with
  | byte b =>
    rw [letterBytes, letterChar, byteLetter_letterForByte]
    rfl
  | char c =>
    rw [letterBytes, letterChar, h c rfl]
    rfl

theorem flatMap_letterBytes {ls : List Utf8.Letter} (h : NoStandIns ls) :
    (ls.map letterChar).flatMap (letterBytes true) = ls.flatMap Utf8.Letter.bytes := by
  rw [flatMap_map]
  refine flatMap_congr fun l hl => ?_
  exact letterBytes_letterChar fun c hc => h c (hc ▸ hl)

theorem letterOffset_eq (chars : List Char) (j : Nat) (standIns : Bool) :
    letterOffset chars j standIns = 1 + ((chars.take (j + 1)).flatMap (letterBytes standIns)).length := by
  have hone : ∀ c, (if (byteLetter c).isSome && standIns then 1 else c.utf8Size) =
      (letterBytes standIns c).length := by
    intro c
    unfold letterBytes
    cases byteLetter c with
    | none => exact (String.length_utf8EncodeChar c).symm
    | some b =>
      cases standIns with
      | true => rfl
      | false => exact (String.length_utf8EncodeChar c).symm
  simp only [letterOffset, length_flatMap, hone]

def bytesAfter (word : Bytes) (j : Nat) : Bytes :=
  ((Utf8.letters (word.drop 1)).drop (j + 1)).flatMap Utf8.Letter.bytes

structure LinesUp (word : Bytes) (chars : List Char) (lettersOk : Bool) : Prop where
  whole : chars.flatMap (letterBytes lettersOk) = word.drop 1
  value : ∀ (j : Nat) (raw : List Bytes) (i : Nat), j + 1 < chars.length → raw[i]? = some word →
    pathValue chars j lettersOk raw i = some (bytesAfter word j, i) ∧
      rawValue chars j lettersOk raw i = some (bytesAfter word j, i)
  byte : ∀ (j : Nat) (c : Char) (b : UInt8), chars[j]? = some c → rawByte lettersOk c = some b →
    (Utf8.letters (word.drop 1))[j]? = some (.byte b)
  ends : ∀ c ∈ chars, endsOptions lettersOk c = true → .byte 0xFF ∈ Utf8.letters (word.drop 1)

section Words

variable {word : Bytes} (hclean : NoStandIns (Utf8.letters (word.drop 1)))

include hclean

theorem letterOffset_word (j : Nat) :
    letterOffset ((Utf8.letters (word.drop 1)).map letterChar) j true =
      1 + (((Utf8.letters (word.drop 1)).take (j + 1)).flatMap Utf8.Letter.bytes).length := by
  have htake : NoStandIns ((Utf8.letters (word.drop 1)).take (j + 1)) :=
    fun c hc => hclean c (mem_of_mem_take hc)
  rw [letterOffset_eq, ← map_take, flatMap_letterBytes htake]

theorem wordValue_attached {j i : Nat} {raw : List Bytes}
    (hj : j + 1 < ((Utf8.letters (word.drop 1)).map letterChar).length) (hraw : raw[i]? = some word) :
    wordValue ((Utf8.letters (word.drop 1)).map letterChar) j true raw i = some (bytesAfter word j, i) := by
  have hsome : 1 ≤ word.length := by
    cases word with
    | nil => exact absurd hj (Nat.not_lt_zero _)
    | cons b word => exact Nat.succ_le_succ (Nat.zero_le _)
  have hwithin := Utf8.length_bytes_take_le (word.drop 1) (j + 1)
  rw [length_drop] at hwithin
  rw [wordValue, if_pos hj, hraw]
  dsimp only [Option.bind_some]
  rw [letterOffset_word hclean, if_pos (by omega), ← drop_drop, Utf8.drop_bytes_letters]
  rfl

theorem linesUp_of_noStandIns : LinesUp word ((Utf8.letters (word.drop 1)).map letterChar) true where
  whole := (flatMap_letterBytes hclean).trans (Utf8.flatMap_bytes_letters _)
  value j raw i hj hraw := ⟨wordValue_attached hclean hj hraw, wordValue_attached hclean hj hraw⟩
  byte j c b hc hb := by
    rw [getElem?_map] at hc
    obtain ⟨l, hl, rfl⟩ := Option.map_eq_some_iff.mp hc
    cases l with
    | char c =>
      have hnone := hclean c (mem_of_getElem? hl)
      exact absurd (hnone.symm.trans hb) nofun
    | byte b' =>
      have hsame : some b' = some b := (byteLetter_letterForByte b').symm.trans hb
      rw [hl, Option.some.inj hsame]
  ends c hc hends := by
    obtain ⟨l, hl, rfl⟩ := mem_map.mp hc
    have hbyte : byteLetter (letterChar l) = some 0xFF := beq_iff_eq.mp hends
    cases l with
    | char c => exact absurd ((hclean c hl).symm.trans hbyte) nofun
    | byte b =>
      rw [letterChar, byteLetter_letterForByte] at hbyte
      rwa [Option.some.inj hbyte] at hl

end Words

/-- Where the stand-ins are said to be told apart, the letters line up with the
bytes exactly where no character of the word is one of the stand-ins. -/
theorem optionLetters_linesUp_iff (word : Bytes) (hok : (optionLetters word).2 = true) :
    LinesUp word (optionLetters word).1 (optionLetters word).2 ↔ NoStandIns (Utf8.letters (word.drop 1)) := by
  rw [hok, optionLetters_fst]
  constructor
  · intro h c hc
    obtain ⟨j, hj⟩ := mem_iff_getElem?.mp hc
    cases hletter : byteLetter c with
    | none => rfl
    | some b =>
      -- such a character is taken for a byte the word does not hold there
      have hchar : ((Utf8.letters (word.drop 1)).map letterChar)[j]? = some c := by
        rw [getElem?_map, hj]
        rfl
      have hbyte := h.byte j c b hchar hletter
      rw [hj] at hbyte
      exact absurd (Option.some.inj hbyte) Utf8.Letter.noConfusion
  · exact linesUp_of_noStandIns

/-- `-e` and a byte that is no character. -/
theorem optionLetters_linesUp_raw : LinesUp [0x2D, 0x65, 0xFF] ['e', letterForByte 0xFF] true :=
  (optionLetters_linesUp_iff [0x2D, 0x65, 0xFF] (by decide)).mpr fun c hc => by
    have hletters : Utf8.letters (List.drop 1 [0x2D, 0x65, 0xFF]) = [.char 'e', .byte 0xFF] := by decide
    rw [hletters] at hc
    obtain rfl : c = 'e' := by simpa using hc
    rfl

/-- The character U+10FFFF is text, and said to be told apart; it ends the
options as a 0xff byte does, and what follows is counted from inside it. -/
theorem optionLetters_standIn_as_text :
    let word := Text.bytes ('-' :: Char.ofNat 0x10FFFF :: "ex".toList)
    optionLetters word = ([Char.ofNat 0x10FFFF, 'e', 'x'], true) ∧
      Utf8.letters (word.drop 1) = [.char (Char.ofNat 0x10FFFF), .char 'e', .char 'x'] ∧
      endsOptions true (Char.ofNat 0x10FFFF) = true ∧
      pathValue [Char.ofNat 0x10FFFF, 'e', 'x'] 1 true [word] 0 = some ([0xBF, 0xBF, 0x65, 0x78], 0) := by
  decide +kernel

end Lsof.Cli
