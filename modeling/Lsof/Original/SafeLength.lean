import Lsof.Original.SafePrint

/-! # How wide a string prints in the C

`safestrlen()` sizes a column that `safestrprtn()` fills with what `safestrprt()`
would print. Each classifies the bytes for itself, the last two by `safepup()`.
The locale is one of single bytes, given by what its `isprint()` says of each.
-/

namespace Lsof.Original.Locale

open Lsof.Basis Lsof.Core Lsof.Render List

section Loops

variable (printable : UInt8 → Bool)

/-- `c`: a byte that is escaped although `isprint()` lets it through. NUL is none. -/
def escapedToo (flags : PrintFlags) : UInt8 := if flags.spaceUnprintable then 0x20 else 0

/-- `*sp < 0x20`, of a `char` that is signed. -/
def belowBlank (b : UInt8) : Bool := b.toBitVec.slt 0x20#8

def safestrlenLoop (flags : PrintFlags) : Nat → Bytes → Nat
  | len, [] => len
  | len, b :: sp =>
    if b = 0 then len
    else if printable b = false ∨ b = 0x5C ∨ b = escapedToo flags then
      if belowBlank b = true ∨ b = 0xFF ∨ b = 0x5C then safestrlenLoop flags (len + 2) sp
      else safestrlenLoop flags (len + 4) sp
    else safestrlenLoop flags (len + 1) sp

/-- The space a string takes when it is printed, of a string that need not be there. -/
def safestrlen (sp : Option Bytes) (flags : PrintFlags) : Nat :=
  match sp with
  | some s => safestrlenLoop printable flags 0 s
  | none => 0

def safestrprtLoop (flags : PrintFlags) : Bytes → Text
  | [] => []
  | b :: sp =>
    if b = 0 then []
    else if b ≠ 0x5C ∧ printable b = true ∧ b ≠ escapedToo flags then
      Char.ofNat b.toNat :: safestrprtLoop flags sp
    else if flags.dropEndingNewline = true ∧ b = 0x0A ∧ sp.headD 0 = 0 then []
    else (safepup (widened b)).1 ++ safestrprtLoop flags sp

def safestrprt (sp : Option Bytes) (flags : PrintFlags) : Text :=
  let quote : Text := if flags.quoted then ['"'] else []
  let body := match sp with
    | some s => safestrprtLoop printable flags s
    | none => []
  quote ++ body ++ quote ++ (if flags.newline then ['\n'] else [])

def safestrprtnLoop (flags : PrintFlags) (len : Nat) : Nat → Bytes → Text × Nat
  | i, [] => ([], i)
  | i, b :: sp =>
    if i < len ∧ b ≠ 0 then
      if b ≠ 0x5C ∧ printable b = true ∧ b ≠ escapedToo flags then
        let (rest, i') := safestrprtnLoop flags len (i + 1) sp
        (Char.ofNat b.toNat :: rest, i')
      else if flags.dropEndingNewline = true ∧ b = 0x0A ∧ sp.headD 0 = 0 then ([], i)
      else
        let (up, cl) := safepup (widened b)
        if i + cl > len then ([], i)
        else
          let (rest, i') := safestrprtnLoop flags len (i + cl) sp
          (up ++ rest, i')
    else ([], i)

def safestrprtn (sp : Option Bytes) (len : Nat) (flags : PrintFlags) : Text :=
  let quote : Text := if flags.quoted then ['"'] else []
  let (body, i) := match sp with
    | some s => safestrprtnLoop printable flags len 0 s
    | none => ([], 0)
  quote ++ body ++ List.replicate (len - i) ' ' ++ quote ++ (if flags.newline then ['\n'] else [])

end Loops

def spaceFlag (space : Bool) : PrintFlags := ⟨false, space, false, false⟩

section Forms

variable (printable : UInt8 → Bool) (space : Bool)

def form (b : UInt8) : Nat × Text :=
  if b ≠ 0x5C ∧ printable b = true ∧ b ≠ escapedToo (spaceFlag space) then (1, [Char.ofNat b.toNat])
  else ((safepup (widened b)).2, (safepup (widened b)).1)

def counted (b : UInt8) : Nat :=
  if printable b = false ∨ b = 0x5C ∨ b = escapedToo (spaceFlag space) then
    if belowBlank b = true ∨ b = 0xFF ∨ b = 0x5C then 2 else 4
  else 1

def string (sp : Option Bytes) : Bytes := (sp.getD []).takeWhile (· != 0)

theorem safepup_length (b : UInt8) :
    (safepup (widened b)).1.length = (safepup (widened b)).2 ∧ 0 < (safepup (widened b)).2 := by
  revert b
  apply Utf8.forall_byte
  decide +kernel

/-- `safepup()` is given the byte with its sign extended, and prints every byte
from 0x80 on as `\x` and two digits. -/
theorem safepup_width (b : UInt8) :
    (safepup (widened b)).2 =
      if 0x80 ≤ b.toNat then 4 else if belowBlank b = true ∨ b = 0xFF ∨ b = 0x5C then 2 else 4 := by
  revert b
  apply Utf8.forall_byte
  decide +kernel

theorem belowBlank_of_high (b : UInt8) : 0x80 ≤ b.toNat → belowBlank b = true ∧ b ≠ 0x5C ∧ b ≠ 0x20 ∧ b ≠ 0 := by
  revert b
  apply Utf8.forall_byte
  decide +kernel

theorem form_length (b : UInt8) : (form printable space b).2.length = (form printable space b).1 := by
  unfold form
  split
  · rfl
  · exact (safepup_length b).1

theorem form_pos (b : UInt8) : 0 < (form printable space b).1 := by
  unfold form
  split
  · exact Nat.one_pos
  · exact (safepup_length b).2

theorem escaped_iff (b : UInt8) :
    (printable b = false ∨ b = 0x5C ∨ b = escapedToo (spaceFlag space)) ↔
      ¬ (b ≠ 0x5C ∧ printable b = true ∧ b ≠ escapedToo (spaceFlag space)) := by
  cases printable b <;> grind

/-- A byte the locale does not print and whose sign bit is set. -/
def Miscounted (b : UInt8) : Prop := 0x80 ≤ b.toNat ∧ printable b = false

theorem counted_of_miscounted {b : UInt8} (h : Miscounted printable b) :
    counted printable space b = 2 ∧ (form printable space b).1 = 4 := by
  rcases h with ⟨hhigh, hno⟩
  constructor
  · rw [counted, if_pos (.inl hno), if_pos (.inl (belowBlank_of_high b hhigh).1)]
  · rw [form, if_neg (fun hpass => by rw [hno] at hpass; cases hpass.2.1)]
    rw [safepup_width, if_pos hhigh]

theorem counted_of_not_miscounted {b : UInt8} (h : ¬ Miscounted printable b) :
    counted printable space b = (form printable space b).1 := by
  unfold counted form
  by_cases hesc : printable b = false ∨ b = 0x5C ∨ b = escapedToo (spaceFlag space)
  · rw [if_pos hesc, if_neg ((escaped_iff printable space b).mp hesc), safepup_width]
    have hlow : ¬ 0x80 ≤ b.toNat := by
      intro hhigh
      have hb := belowBlank_of_high b hhigh
      rcases hesc with hno | hback | hspace
      · exact h ⟨hhigh, hno⟩
      · exact hb.2.1 hback
      · cases space with
        | true => exact hb.2.2.1 hspace
        | false => exact hb.2.2.2 hspace
    rw [if_neg hlow]
  · rw [if_neg hesc, if_pos (not_not.mp fun hno => hesc ((escaped_iff printable space b).mpr hno))]

theorem safestrlenLoop_eq (len : Nat) (sp : Bytes) :
    safestrlenLoop printable (spaceFlag space) len sp =
      len + ((sp.takeWhile (· != 0)).map (counted printable space)).sum := by
  induction sp generalizing len with
  | nil => rfl
  | cons b sp ih =>
    by_cases hnul : b = 0
    · rw [safestrlenLoop, if_pos hnul, takeWhile_cons_of_neg (by simp [hnul])]
      rfl
    rw [safestrlenLoop, if_neg hnul, takeWhile_cons_of_pos (by simpa using hnul), map_cons, sum_cons, ih, ih, ih]
    unfold counted
    split
    · split <;> omega
    · omega

theorem safestrprtLoop_eq (sp : Bytes) :
    safestrprtLoop printable (spaceFlag space) sp =
      formsText ((sp.takeWhile (· != 0)).map (form printable space)) := by
  induction sp with
  | nil => rfl
  | cons b sp ih =>
    by_cases hnul : b = 0
    · rw [safestrprtLoop, if_pos hnul, takeWhile_cons_of_neg (by simp [hnul])]
      rfl
    rw [safestrprtLoop, if_neg hnul, takeWhile_cons_of_pos (by simpa using hnul), map_cons, formsText_cons, ih]
    unfold form
    split
    · rfl
    · rw [if_neg (fun hdrop => by cases hdrop.1)]

theorem safestrprtnLoop_of_room (len i : Nat) (sp : Bytes)
    (h : i + formsWidth ((sp.takeWhile (· != 0)).map (form printable space)) ≤ len) :
    safestrprtnLoop printable (spaceFlag space) len i sp =
      (formsText ((sp.takeWhile (· != 0)).map (form printable space)),
        i + formsWidth ((sp.takeWhile (· != 0)).map (form printable space))) := by
  induction sp generalizing i with
  | nil => rfl
  | cons b sp ih =>
    by_cases hnul : b = 0
    · rw [safestrprtnLoop, if_neg (fun hb => hb.2 hnul), takeWhile_cons_of_neg (by simp [hnul])]
      rfl
    rw [takeWhile_cons_of_pos (by simpa using hnul), map_cons, formsWidth_cons] at h ⊢
    have hpos := form_pos printable space b
    rw [safestrprtnLoop, if_pos ⟨by omega, hnul⟩, formsText_cons]
    by_cases hpass : b ≠ 0x5C ∧ printable b = true ∧ b ≠ escapedToo (spaceFlag space)
    · have hform : form printable space b = (1, [Char.ofNat b.toNat]) := if_pos hpass
      rw [hform] at h ⊢
      rw [if_pos hpass, ih (i + 1) (by omega), Nat.add_assoc]
      rfl
    · have hform : form printable space b = ((safepup (widened b)).2, (safepup (widened b)).1) := if_neg hpass
      rw [hform] at h ⊢
      rw [if_neg hpass, if_neg (fun hdrop => by cases hdrop.1)]
      dsimp only
      rw [if_neg (by omega), ih _ (by omega), Nat.add_assoc]

theorem safestrprtnLoop_length (len i : Nat) (sp : Bytes) (h : i ≤ len) :
    (safestrprtnLoop printable (spaceFlag space) len i sp).2 =
        i + (safestrprtnLoop printable (spaceFlag space) len i sp).1.length ∧
      (safestrprtnLoop printable (spaceFlag space) len i sp).2 ≤ len := by
  induction sp generalizing i with
  | nil => exact ⟨rfl, h⟩
  | cons b sp ih =>
    rw [safestrprtnLoop]
    by_cases hroom : i < len ∧ b ≠ 0
    · rw [if_pos hroom]
      by_cases hpass : b ≠ 0x5C ∧ printable b = true ∧ b ≠ escapedToo (spaceFlag space)
      · have hrest := ih (i + 1) hroom.1
        rw [if_pos hpass]
        dsimp only
        rw [length_cons]
        omega
      · rw [if_neg hpass, if_neg (fun hdrop => by cases hdrop.1)]
        dsimp only
        by_cases hover : i + (safepup (widened b)).2 > len
        · rw [if_pos hover]
          exact ⟨rfl, h⟩
        · have hrest := ih (i + (safepup (widened b)).2) (by omega)
          have hup := (safepup_length b).1
          rw [if_neg hover]
          dsimp only
          rw [length_append]
          omega
    · rw [if_neg hroom]
      exact ⟨rfl, h⟩

theorem safestrlen_eq (sp : Option Bytes) :
    safestrlen printable sp (spaceFlag space) = ((string sp).map (counted printable space)).sum := by
  cases sp with
  | none => rfl
  | some s => exact (safestrlenLoop_eq printable space 0 s).trans (Nat.zero_add _)

theorem safestrprt_eq (sp : Option Bytes) :
    safestrprt printable sp (spaceFlag space) = formsText ((string sp).map (form printable space)) := by
  cases sp with
  | none => rfl
  | some s =>
    have hloop := safestrprtLoop_eq printable space s
    simp only [spaceFlag] at hloop
    simp only [safestrprt, spaceFlag, hloop, Bool.false_eq_true, if_false, nil_append, append_nil]
    rfl

theorem safestrprtn_length (sp : Option Bytes) (len : Nat) :
    (safestrprtn printable sp len (spaceFlag space)).length = len := by
  cases sp with
  | none => simp [safestrprtn, spaceFlag]
  | some s =>
    have hloop := safestrprtnLoop_length printable space len 0 s (Nat.zero_le len)
    simp only [safestrprtn, spaceFlag, Bool.false_eq_true, if_false, nil_append, append_nil,
      length_append, length_replicate] at hloop ⊢
    omega

theorem safestrprtn_of_room (sp : Option Bytes) :
    safestrprtn printable sp (formsWidth ((string sp).map (form printable space))) (spaceFlag space) =
      safestrprt printable sp (spaceFlag space) := by
  rw [safestrprt_eq]
  cases sp with
  | none => rfl
  | some s =>
    have hloop := safestrprtnLoop_of_room printable space _ 0 s (Nat.le_of_eq (Nat.zero_add _))
    have hstring : string (some s) = s.takeWhile (· != 0) := rfl
    simp only [spaceFlag, Nat.zero_add] at hloop
    simp only [hstring, safestrprtn, spaceFlag, hloop, Bool.false_eq_true, if_false, nil_append,
      Nat.sub_self, replicate_zero, append_nil]

theorem formsText_length (bs : Bytes) :
    (formsText (bs.map (form printable space))).length = formsWidth (bs.map (form printable space)) := by
  induction bs with
  | nil => rfl
  | cons b bs ih => rw [map_cons, formsText_cons, formsWidth_cons, length_append, ih, form_length]

theorem counted_sum_iff (bs : Bytes) :
    (bs.map (counted printable space)).sum ≤ formsWidth (bs.map (form printable space)) ∧
      ((bs.map (counted printable space)).sum = formsWidth (bs.map (form printable space)) ↔
        ∀ b ∈ bs, ¬ Miscounted printable b) := by
  induction bs with
  | nil => exact ⟨Nat.le_refl _, iff_of_true rfl (by simp)⟩
  | cons b bs ih =>
    rcases ih with ⟨hle, hiff⟩
    rw [map_cons, map_cons, sum_cons, formsWidth_cons, forall_mem_cons]
    by_cases hb : Miscounted printable b
    · have hcount := counted_of_miscounted printable space hb
      constructor
      · omega
      · exact iff_of_false (by omega) (fun hall => hall.1 hb)
    · rw [counted_of_not_miscounted printable space hb, Nat.add_left_cancel_iff, hiff]
      exact ⟨by omega, ⟨fun hall => ⟨hb, hall⟩, fun hall => hall.2⟩⟩

/-- `safestrlen()` counts what is printed where no byte is miscounted. -/
theorem safestrlen_eq_length_iff (sp : Option Bytes) :
    safestrlen printable sp (spaceFlag space) = (safestrprt printable sp (spaceFlag space)).length ↔
      ∀ b ∈ string sp, 0x80 ≤ b.toNat → printable b = true := by
  have hbytes : (∀ b ∈ string sp, ¬ Miscounted printable b) ↔
      ∀ b ∈ string sp, 0x80 ≤ b.toNat → printable b = true := by
    simp [Miscounted]
  rw [safestrprt_eq, formsText_length, safestrlen_eq, (counted_sum_iff printable space (string sp)).2, hbytes]

end Forms

/-- The column `safestrlen()` asks for is as wide as the escaped string, and filling
it prints the whole of it, exactly when the locale prints every byte from 0x80 on. -/
theorem safestrlen_fits_iff (printable : UInt8 → Bool) (space : Bool) (sp : Option Bytes) :
    (safestrlen printable sp (spaceFlag space) = (safestrprt printable sp (spaceFlag space)).length ↔
        ∀ b ∈ string sp, 0x80 ≤ b.toNat → printable b = true) ∧
      (safestrprtn printable sp (safestrlen printable sp (spaceFlag space)) (spaceFlag space) =
          safestrprt printable sp (spaceFlag space) ↔ ∀ b ∈ string sp, 0x80 ≤ b.toNat → printable b = true) := by
  have hcount := safestrlen_eq_length_iff printable space sp
  refine ⟨hcount, ?_⟩
  rw [← hcount]
  constructor
  · intro hprints
    have hlen := congrArg List.length hprints
    rwa [safestrprtn_length] at hlen
  · intro hlen
    rw [hlen, safestrprt_eq, formsText_length, safestrprtn_of_room, safestrprt_eq]

/-- In the C locale the two bytes of `é` are counted as two columns each and printed
as four: the column ends before the second. -/
theorem sleepe_column_short :
    safestrlen isprint (some (Text.bytes "sleepé".toList)) (spaceFlag true) = 9 ∧
      safestrprt isprint (some (Text.bytes "sleepé".toList)) (spaceFlag true) = "sleep\\xc3\\xa9".toList ∧
      safestrprtn isprint (some (Text.bytes "sleepé".toList)) 9 (spaceFlag true) = "sleep\\xc3".toList := by
  decide +kernel

end Lsof.Original.Locale
