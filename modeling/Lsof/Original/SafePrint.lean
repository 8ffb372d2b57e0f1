import Lsof.Render.CommandCut
import Lsof.Render.EscapeKernel

/-! # The C's printer of COMMAND

`safestrprtn()` escapes and stops byte by byte, lsof-rs unit by unit. The two
print the same text unless the column ends inside a character of several bytes.
-/

namespace Lsof.Original

open Lsof.Basis Lsof.Core Lsof.Render

/-- `isprint()` of a byte where only ASCII is printable. -/
def isprint (b : UInt8) : Bool := decide (0x20 ≤ b.toNat) && decide (b.toNat ≤ 0x7E)

/-- `(unsigned int)*sp`: a `char` is signed, so a byte from 0x80 on is extended
with ones. -/
def widened (b : UInt8) : BitVec 32 := b.toBitVec.signExtend 32

/-- `%02x`. -/
def hex02 (n : Nat) : Text := List.leftpad 2 '0' (Nat.toDigits 16 n)

/-- The printable equivalent of a character, and its length. -/
def safepup (c : BitVec 32) : Text × Nat :=
  if c < 0x20#32 then
    (if c = 0x08#32 then "\\b".toList
      else if c = 0x0C#32 then "\\f".toList
      else if c = 0x0A#32 then "\\n".toList
      else if c = 0x0D#32 then "\\r".toList
      else if c = 0x09#32 then "\\t".toList
      else ['^', Char.ofNat (c.toNat + 0x40)], 2)
  else if c = 0xFF#32 then ("^?".toList, 2)
  else if c = 0x5C#32 then ("\\\\".toList, 2)
  else ("\\x".toList ++ hex02 (c &&& 0xFF#32).toNat, 4)

structure PrintFlags where
  newline : Bool
  spaceUnprintable : Bool
  quoted : Bool
  dropEndingNewline : Bool
  deriving DecidableEq, Repr

def safestrprtnLoop (flags : PrintFlags) (len : Nat) : Nat → Bytes → Text × Nat
  | i, [] => ([], i)
  | i, b :: sp =>
    if i < len ∧ b ≠ 0 then
      if b ≠ 0x5C ∧ isprint b = true ∧ b ≠ (if flags.spaceUnprintable then 0x20 else 0) then
        let (rest, i') := safestrprtnLoop flags len (i + 1) sp
        (Char.ofNat b.toNat :: rest, i')
      else if flags.dropEndingNewline = true ∧ b = 0x0A ∧ sp.headD 0 = 0 then ([], i)
      else
        let (up, cl) := safepup (widened b)
        if i + cl > len then ([], i)
        else
          let (rest, i') := safestrprtnLoop flags len (i + cl) sp
          (up ++ rest, i')
    else ([], i)

/-- What is written to the stream for a string that need not be there. -/
def safestrprtn (sp : Option Bytes) (len : Nat) (flags : PrintFlags) : Text :=
  let quote : Text := if flags.quoted then ['"'] else []
  let (body, i) := match sp with
    | some s => safestrprtnLoop flags len 0 s
    | none => ([], 0)
  quote ++ body ++ List.replicate (len - i) ' ' ++ quote ++ (if flags.newline then ['\n'] else [])

/-- `flags` 2, as COMMAND is printed. -/
def commandFlags : PrintFlags := ⟨false, true, false, false⟩

/-- What one byte of COMMAND is printed as, and its length. -/
def byteForm (b : UInt8) : Nat × Text :=
  if b ≠ 0x5C ∧ isprint b = true ∧ b ≠ 0x20 then (1, [Char.ofNat b.toNat])
  else ((safepup (widened b)).2, (safepup (widened b)).1)

theorem byteForm_pos (b : UInt8) : 0 < (byteForm b).1 := by
  unfold byteForm safepup
  split_ifs <;> exact Nat.succ_pos _

theorem safestrprtnLoop_eq_cutTo (len i : Nat) (sp : Bytes) :
    (safestrprtnLoop commandFlags len i sp).1 = Escaper.cutTo len i ((sp.takeWhile (· != 0)).map byteForm) := by
  induction sp generalizing i with
  | nil => rfl
  | cons b sp ih =>
    by_cases hnul : b = 0
    · rw [safestrprtnLoop, if_neg (fun h => h.2 hnul), List.takeWhile_cons_of_neg (by simp [hnul])]
      rfl
    rw [List.takeWhile_cons_of_pos (by simpa using hnul), List.map_cons, Escaper.cutTo, safestrprtnLoop]
    by_cases hroom : i < len
    · rw [if_pos ⟨hroom, hnul⟩]
      have hflag : (if commandFlags.spaceUnprintable = true then (0x20 : UInt8) else 0) = 0x20 := rfl
      rw [hflag]
      by_cases hpass : b ≠ 0x5C ∧ isprint b = true ∧ b ≠ 0x20
      · have hform : byteForm b = (1, [Char.ofNat b.toNat]) := if_pos hpass
        rw [if_pos hpass, hform, if_neg (by omega)]
        exact congrArg (_ :: ·) (ih _)
      · have hform : byteForm b = ((safepup (widened b)).2, (safepup (widened b)).1) := if_neg hpass
        rw [if_neg hpass, hform, if_neg (fun h => absurd h.1 (by decide))]
        dsimp only
        split
        · rfl
        · exact congrArg (_ ++ ·) (ih _)
    · have hpos := byteForm_pos b
      rw [if_neg (fun h => hroom h.1), if_pos (by omega)]

theorem byteForm_of_ascii {n : Nat} (h : n < 0x80) :
    byteForm (UInt8.ofNat n) = unixStyle.commandForm (Char.ofNat n) := by
  have hall : ∀ n < 0x80, byteForm (UInt8.ofNat n) = unixStyle.commandForm (Char.ofNat n) := by
    decide +kernel
  exact hall n h

theorem byteForm_of_not_ascii {b : UInt8} (h : 0x80 ≤ b.toNat) : byteForm b = (4, pushHex b) := by
  have hall : ∀ b : UInt8, 0x80 ≤ b.toNat → byteForm b = (4, pushHex b) := by
    apply Utf8.forall_byte
    decide +kernel
  exact hall b h

theorem forms_of_not_ascii {bs : Bytes} (h : ∀ b ∈ bs, 0x80 ≤ b.toNat) :
    formsWidth (bs.map byteForm) = 4 * bs.length ∧ formsText (bs.map byteForm) = bs.flatMap pushHex := by
  induction bs with
  | nil => exact ⟨rfl, rfl⟩
  | cons b bs ih =>
    have hrest := ih fun x hx => h x (List.mem_cons_of_mem b hx)
    rw [List.map_cons, byteForm_of_not_ascii (h b (List.mem_cons_self ..)), formsWidth_cons, formsText_cons,
      hrest.1, hrest.2, List.length_cons, List.flatMap_cons]
    exact ⟨by omega, rfl⟩

theorem commandForm_of_not_ascii {c : Char} (h : 0x80 ≤ c.toNat) :
    unixStyle.commandForm c = (4 * c.utf8Size, (String.utf8EncodeChar c).flatMap pushHex) := by
  have hback : c ≠ '\\' := fun hc => absurd (hc ▸ h) (by decide)
  have hspace : c ≠ ' ' := fun hc => absurd (hc ▸ h) (by decide)
  have hnamed : c ≠ '\n' ∧ c ≠ '\r' ∧ c ≠ '\t' :=
    ⟨fun hc => absurd (hc ▸ h) (by decide), fun hc => absurd (hc ▸ h) (by decide),
      fun hc => absurd (hc ▸ h) (by decide)⟩
  have hwidth : unixStyle.escapedWidth .command c = 4 * c.utf8Size := by
    rw [Escaper.escapedWidth, if_neg (fun hc => hback hc.1), if_neg (fun hc => hspace hc.1),
      if_neg (by omega), if_neg (by omega), if_pos (.inr (.inl rfl))]
  have hsize := Char.utf8Size_pos c
  rw [Escaper.commandForm, hwidth, Escaper.push, hwidth, if_neg (by omega), if_neg (by omega),
    if_neg (by omega), if_neg hnamed.1, if_neg hnamed.2.1, if_neg hnamed.2.2, if_neg hback, if_neg (by omega)]

variable {l : Utf8.Letter}

theorem forms_letter (hnul : l ≠ .char (Char.ofNat 0)) (hbyte : ∀ b, l = .byte b → 0x80 ≤ b.toNat) :
    (∀ b ∈ l.bytes, b ≠ 0) ∧ formsWidth (l.bytes.map byteForm) = (unixStyle.letterForm l).1 ∧
      formsText (l.bytes.map byteForm) = (unixStyle.letterForm l).2 := by
  have hnonzero : ∀ b : UInt8, 0x80 ≤ b.toNat → b ≠ 0 := fun b hb h => absurd (h ▸ hb) (by decide)
  cases l with
  | byte b =>
    have hb := hbyte b rfl
    refine ⟨fun x hx => List.mem_singleton.mp hx ▸ hnonzero b hb, ?_, ?_⟩
    · rw [Utf8.Letter.bytes, List.map_singleton, byteForm_of_not_ascii hb]
      rfl
    · rw [Utf8.Letter.bytes, List.map_singleton, byteForm_of_not_ascii hb]
      exact List.append_nil _
  | char c =>
    by_cases hascii : c.toNat < 0x80
    · have hform := byteForm_of_ascii hascii
      rw [Char.ofNat_toNat] at hform
      rw [Utf8.Letter.bytes, Utf8.encode_ascii hascii, List.map_singleton, hform]
      refine ⟨fun b hb hzero => hnul ?_, Nat.add_zero _, List.append_nil _⟩
      have hval := congrArg UInt8.toNat ((List.mem_singleton.mp hb).symm.trans hzero)
      rw [Utf8.toNat_ofNat_small (by omega)] at hval
      rw [← Char.ofNat_toNat c, hval]
      rfl
    · obtain ⟨-, hbytes⟩ := @Utf8.encode_not_ascii c (by omega)
      obtain ⟨hwidth, htext⟩ := forms_of_not_ascii hbytes
      rw [String.length_utf8EncodeChar] at hwidth
      rw [Escaper.letterForm, commandForm_of_not_ascii (by omega)]
      exact ⟨fun b hb => hnonzero b (hbytes b hb), hwidth, htext⟩

/-- A unit after which both printers go on, or before which both stop, in a
column of `width` of which `used` bytes are taken: it is not a NUL the C's string
ends at with room for its escape, and not a character of several bytes of which
the column has room for the first bytes only. -/
def Undivided (width used : Nat) : Utf8.Letter → Prop
  | .char c => ¬ (c.toNat = 0 ∧ used + 2 ≤ width) ∧
      ¬ (0x80 ≤ c.toNat ∧ used + 4 ≤ width ∧ width < used + 4 * c.utf8Size)
  | .byte _ => True

variable {width used : Nat}

theorem undivided_of_lt (h : width < used) (l : Utf8.Letter) : Undivided width used l := by
  cases l with
  | char c => exact ⟨fun hnul => by omega, fun hmany => by omega⟩
  | byte b => exact trivial

theorem undivided_of_fit (hnul : l ≠ .char (Char.ofNat 0))
    (h : used + (unixStyle.letterForm l).1 ≤ width) : Undivided width used l := by
  cases l with
  | byte b => exact trivial
  | char c =>
    refine ⟨fun hc => hnul (by rw [← hc.1, Char.ofNat_toNat]), fun hmany => ?_⟩
    rw [Escaper.letterForm, commandForm_of_not_ascii hmany.1] at h
    omega

theorem cutTo_eq_nil_iff {form : Nat × Text} (h : form.2 ≠ []) (forms : List (Nat × Text)) :
    Escaper.cutTo width used (form :: forms) = [] ↔ width < used + form.1 := by
  rw [Escaper.cutTo]
  split
  next hover => exact ⟨fun _ => hover, fun _ => rfl⟩
  next hfit => exact ⟨fun hnil => absurd (List.append_eq_nil_iff.mp hnil).1 h, fun hlt => absurd hlt hfit⟩

/-- A unit that does not fit is not begun by the C either, unless it is divided. -/
theorem cutTo_letter_eq_nil_iff (hnul : l ≠ .char (Char.ofNat 0)) (hbyte : ∀ b, l = .byte b → 0x80 ≤ b.toNat)
    (hover : width < used + (unixStyle.letterForm l).1) :
    Escaper.cutTo width used (l.bytes.map byteForm) = [] ↔ Undivided width used l := by
  cases l with
  | byte b =>
    rw [Utf8.Letter.bytes, List.map_singleton, byteForm_of_not_ascii (hbyte b rfl),
      cutTo_eq_nil_iff (by simp [pushHex])]
    exact iff_of_true hover trivial
  | char c =>
    have hzero : c.toNat ≠ 0 := fun h => hnul (by rw [← h, Char.ofNat_toNat])
    by_cases hascii : c.toNat < 0x80
    · have hform := byteForm_of_ascii hascii
      rw [Char.ofNat_toNat] at hform
      have hnil : Escaper.cutTo width used [unixStyle.commandForm c] = [] := if_pos hover
      rw [Utf8.Letter.bytes, Utf8.encode_ascii hascii, List.map_singleton, hform]
      exact iff_of_true hnil ⟨fun h => hzero h.1, fun h => by omega⟩
    · rw [Escaper.letterForm, commandForm_of_not_ascii (by omega)] at hover
      obtain ⟨hlen, hbytes⟩ := @Utf8.encode_not_ascii c (by omega)
      rw [Utf8.Letter.bytes]
      cases hencode : String.utf8EncodeChar c with
      | nil => simp [hencode] at hlen
      | cons b bs =>
        rw [hencode] at hbytes
        rw [List.map_cons, byteForm_of_not_ascii (hbytes b (List.mem_cons_self ..)),
          cutTo_eq_nil_iff (by simp [pushHex])]
        unfold Undivided
        omega

theorem takeWhile_append_of_nonzero {bs : Bytes} (h : ∀ b ∈ bs, b ≠ 0) (rest : Bytes) :
    (bs ++ rest).takeWhile (· != 0) = bs ++ rest.takeWhile (· != 0) :=
  List.takeWhile_append_of_pos fun b hb => bne_iff_ne.mpr (h b hb)

theorem forall_split_cons {α : Type} {P : List α → α → Prop} {a : α} {l : List α} :
    (∀ us x vs, a :: l = us ++ x :: vs → P us x) ↔ P [] a ∧ ∀ us x vs, l = us ++ x :: vs → P (a :: us) x := by
  constructor
  · intro h
    exact ⟨h [] a l rfl, fun us x vs hsplit => h (a :: us) x vs (by rw [hsplit]; rfl)⟩
  · rintro ⟨hhead, htail⟩ us x vs hsplit
    cases us with
    | nil =>
      obtain ⟨rfl, -⟩ := List.cons.inj hsplit
      exact hhead
    | cons u us =>
      obtain ⟨rfl, hrest⟩ := List.cons.inj hsplit
      exact htail us x vs hrest

/-- Every unit of a command, with the width of what is printed before it. -/
def EachUndivided (width used : Nat) (ls : List Utf8.Letter) : Prop :=
  ∀ us l vs, ls = us ++ l :: vs → Undivided width (used + formsWidth (us.map unixStyle.letterForm)) l

theorem eachUndivided_cons {ls : List Utf8.Letter} :
    EachUndivided width used (l :: ls) ↔
      Undivided width used l ∧ EachUndivided width (used + (unixStyle.letterForm l).1) ls := by
  unfold EachUndivided
  rw [forall_split_cons]
  simp only [List.map_nil, formsWidth_nil, Nat.add_zero, List.map_cons, formsWidth_cons, Nat.add_assoc]

theorem eachUndivided_of_lt (h : width < used) (ls : List Utf8.Letter) :
    EachUndivided width used ls := fun us l _ _ => undivided_of_lt (by omega) l

/-- By induction over the units: a unit both print, a unit neither prints, or
the one where the C goes on alone. -/
theorem cutTo_letters_eq_iff {width used : Nat} {ls : List Utf8.Letter}
    (hbytes : ∀ b, .byte b ∈ ls → 0x80 ≤ b.toNat) :
    Escaper.cutTo width used (ls.map unixStyle.letterForm) =
        Escaper.cutTo width used (((ls.flatMap Utf8.Letter.bytes).takeWhile (· != 0)).map byteForm) ↔
      EachUndivided width used ls := by
  induction ls generalizing used with
  | nil => exact iff_of_true rfl fun us l vs h => by simp at h
  | cons l ls ih =>
    have hrest := fun used => @ih used fun b hb => hbytes b (List.mem_cons_of_mem l hb)
    rw [eachUndivided_cons, List.map_cons, List.flatMap_cons]
    by_cases hnul : l = .char (Char.ofNat 0)
    · -- the C's string ends here
      subst hnul
      have hstop : (Utf8.Letter.bytes (.char (Char.ofNat 0)) ++ ls.flatMap Utf8.Letter.bytes).takeWhile
          (· != 0) = [] := rfl
      have hform : unixStyle.letterForm (.char (Char.ofNat 0)) = (2, "^@".toList) := by decide
      rw [hstop, List.map_nil, Escaper.cutTo_nil, hform, cutTo_eq_nil_iff (by decide)]
      constructor
      · intro hlt
        exact ⟨⟨fun h => by omega, fun h => absurd h.1 (by decide)⟩, eachUndivided_of_lt hlt ls⟩
      · rintro ⟨hhead, -⟩
        have hroom := hhead.1
        simp only [show (Char.ofNat 0).toNat = 0 from rfl, true_and] at hroom
        omega
    · have hbyte : ∀ b, l = .byte b → 0x80 ≤ b.toNat :=
        fun b hb => hbytes b (hb ▸ List.mem_cons_self ..)
      obtain ⟨hnonzero, hwidth, htext⟩ := forms_letter hnul hbyte
      rw [takeWhile_append_of_nonzero hnonzero, List.map_append, Escaper.cutTo]
      by_cases hover : used + (unixStyle.letterForm l).1 > width
      · rw [if_pos hover, Escaper.cutTo_append_of_lt (by omega), eq_comm, cutTo_letter_eq_nil_iff hnul hbyte hover]
        exact ⟨fun h => ⟨h, eachUndivided_of_lt hover ls⟩, fun h => h.1⟩
      · have hfits := undivided_of_fit hnul (Nat.le_of_not_lt hover)
        rw [if_neg hover, Escaper.cutTo_append_of_le (by omega), htext, hwidth, List.append_cancel_left_eq, hrest]
        exact ⟨fun h => ⟨hfits, h⟩, fun h => h.2⟩

/-- COMMAND is the C's exactly where the column divides no character of it. -/
theorem commandBytesTruncated_eq_safestrprtn_iff (b : Bytes) (width : Nat) :
    unixStyle.commandBytesTruncated b width = (safestrprtnLoop commandFlags width 0 b).1 ↔
      EachUndivided width 0 (Utf8.letters b) := by
  have hcut := @cutTo_letters_eq_iff width 0 (Utf8.letters b) fun _ h => Utf8.byte_of_mem_letters h
  rw [Utf8.flatMap_bytes_letters] at hcut
  rw [Escaper.commandBytesTruncated_eq_cutTo, safestrprtnLoop_eq_cutTo]
  exact hcut

/-- In the default column of nine the C still prints the first byte of the last
character; lsof-rs leaves the whole character out. -/
theorem sleepe_cut_apart :
    unixStyle.commandBytesTruncated (Text.bytes "sleepé".toList) 9 = "sleep".toList ∧
      (safestrprtnLoop commandFlags 9 0 (Text.bytes "sleepé".toList)).1 = "sleep\\xc3".toList := by
  decide +kernel

end Lsof.Original
