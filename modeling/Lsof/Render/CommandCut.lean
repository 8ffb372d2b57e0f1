import Lsof.Basis.Letters
import Lsof.Render.Printable

/-! # Cutting COMMAND to its column

COMMAND is cut in whole units: a character, or a byte that is part of none. The
cut keeps the most units whose printed forms fit the column.
-/

namespace Lsof.Core

open Lsof.Basis List

def formsWidth (forms : List (Nat × Text)) : Nat := (forms.map Prod.fst).sum

def formsText (forms : List (Nat × Text)) : Text := forms.flatMap Prod.snd

@[simp] theorem formsWidth_nil : formsWidth [] = 0 := rfl

@[simp] theorem formsWidth_cons (form : Nat × Text) (forms : List (Nat × Text)) :
    formsWidth (form :: forms) = form.1 + formsWidth forms := rfl

@[simp] theorem formsText_nil : formsText [] = [] := rfl

@[simp] theorem formsText_cons (form : Nat × Text) (forms : List (Nat × Text)) :
    formsText (form :: forms) = form.2 ++ formsText forms := rfl

namespace Escaper

theorem cutTo_nil (width used : Nat) : cutTo width used [] = [] := rfl

theorem cutTo_append_of_le {width used : Nat} {fs : List (Nat × Text)} (h : used + formsWidth fs ≤ width)
    (gs : List (Nat × Text)) :
    cutTo width used (fs ++ gs) = formsText fs ++ cutTo width (used + formsWidth fs) gs := by
  induction fs generalizing used with
  | nil => rfl
  | cons form fs ih =>
    rw [formsWidth_cons] at h
    have hfit : ¬ used + form.1 > width := by omega
    rw [cons_append, cutTo, if_neg hfit, ih (by omega), formsText_cons, formsWidth_cons, append_assoc, Nat.add_assoc]

theorem cutTo_append_of_lt {width used : Nat} {fs : List (Nat × Text)} (h : width < used + formsWidth fs)
    (gs : List (Nat × Text)) : cutTo width used (fs ++ gs) = cutTo width used fs := by
  induction fs generalizing used with
  | nil =>
    rw [formsWidth_nil] at h
    cases gs with
    | nil => rfl
    | cons form gs =>
      rw [nil_append, cutTo_nil, cutTo, if_pos (by omega)]
  | cons form fs ih =>
    rw [formsWidth_cons] at h
    rw [cons_append, cutTo, cutTo]
    split
    · rfl
    · rw [ih (by omega)]

theorem cutTo_eq_take {width used : Nat} (hused : used ≤ width) (forms : List (Nat × Text)) :
    ∃ k ≤ forms.length, cutTo width used forms = formsText (forms.take k) ∧
      used + formsWidth (forms.take k) ≤ width ∧
      ∀ j ≤ forms.length, used + formsWidth (forms.take j) ≤ width → j ≤ k := by
  induction forms generalizing used with
  | nil => exact ⟨0, Nat.le_refl _, rfl, hused, fun j hj _ => hj⟩
  | cons form forms ih =>
    rw [cutTo]
    split
    next hover =>
      refine ⟨0, Nat.zero_le _, rfl, hused, fun j _ hfit => ?_⟩
      cases j with
      | zero => exact Nat.le_refl 0
      | succ j =>
        rw [take_succ_cons, formsWidth_cons] at hfit
        omega
    next hfit =>
      obtain ⟨k, hk, hcut, hkeep, hmost⟩ := @ih (used + form.1) (by omega)
      refine ⟨k + 1, Nat.succ_le_succ hk, ?_, ?_, fun j hj hjfit => ?_⟩
      · rw [hcut, take_succ_cons, formsText_cons]
      · rw [take_succ_cons, formsWidth_cons]
        omega
      · cases j with
        | zero => exact Nat.zero_le _
        | succ j =>
          rw [take_succ_cons, formsWidth_cons] at hjfit
          exact Nat.succ_le_succ (hmost j (Nat.le_of_succ_le_succ hj) (by omega))

theorem byteLen_of_graphic {t : Text} (h : Graphic t) : t.byteLen = t.length := by
  induction t with
  | nil => rfl
  | cons c t ih =>
    have hsize : c.utf8Size = 1 := by
      have hlow := (h c (mem_cons_self ..)).2
      rw [Char.utf8Size_eq_one_iff, UInt32.le_iff_toNat_le]
      exact Nat.le_of_lt_succ (Nat.lt_succ_of_lt hlow)
    rw [Text.byteLen_cons, hsize, ih fun d hd => h d (mem_cons_of_mem c hd), length_cons, Nat.add_comm]

theorem length_flatMap_pushHex (bs : Bytes) : (bs.flatMap pushHex).length = 4 * bs.length := by
  induction bs with
  | nil => rfl
  | cons b bs ih =>
    rw [flatMap_cons, length_append, ih, length_cons, pushHex]
    simp only [length_cons, length_nil]
    omega

variable (esc : Escaper)

/-- The printed form of one unit of COMMAND, and its width. -/
def letterForm : Utf8.Letter → Nat × Text
  | .char c => esc.commandForm c
  | .byte b => (4, pushHex b)

theorem length_push_command (c : Char) : (esc.push .command c).length = esc.escapedWidth .command c := by
  by_cases hpass : esc.escapedWidth .command c = 1
  · rw [push, if_pos hpass, hpass]
    rfl
  by_cases hback : c = '\\'
  · subst hback
    have hesc : esc.backslash = true := by
      by_contra hraw
      exact hpass (by rw [escapedWidth, if_neg (fun h => hraw h.2)]; rfl)
    have hwidth : esc.escapedWidth .command '\\' = 2 := by rw [escapedWidth, if_pos ⟨rfl, hesc⟩]
    rw [hwidth, push, if_neg hpass]
    rfl
  by_cases hlow : c.toNat < 0x20
  · have hspace : c ≠ ' ' := fun h => absurd (h ▸ hlow) (by decide)
    have hwidth : esc.escapedWidth .command c = 2 := by
      rw [escapedWidth, if_neg (fun h => hback h.1), if_neg (fun h => hspace h.1), if_pos hlow]
    rw [hwidth, push, if_neg hpass, if_neg hback, if_pos hlow]
    split_ifs <;> rfl
  · -- what is left is printed byte by byte
    have hnamed : c.toNat ≠ 0x08 ∧ c.toNat ≠ 0x0C ∧ c ≠ '\n' ∧ c ≠ '\r' ∧ c ≠ '\t' :=
      ⟨by omega, by omega, fun h => hlow (h ▸ by decide), fun h => hlow (h ▸ by decide),
        fun h => hlow (h ▸ by decide)⟩
    rw [push, if_neg hpass, if_neg hnamed.1, if_neg hnamed.2.1, if_neg hnamed.2.2.1, if_neg hnamed.2.2.2.1,
      if_neg hnamed.2.2.2.2, if_neg hback, if_neg hlow, length_flatMap_pushHex, String.length_utf8EncodeChar]
    by_cases hspace : c = ' '
    · subst hspace
      rfl
    unfold escapedWidth at hpass ⊢
    rw [if_neg (fun h => hback h.1), if_neg (fun h => hspace h.1), if_neg hlow] at hpass ⊢
    by_cases hascii : c.toNat < 0x80 ∧ c.toNat ≠ 0x7F
    · exact absurd (if_pos hascii) hpass
    · rw [if_neg hascii, if_pos (.inr (.inl rfl))]

theorem byteLen_letterForm (l : Utf8.Letter) : (esc.letterForm l).2.byteLen = (esc.letterForm l).1 := by
  cases l with
  | char c =>
    rw [letterForm, commandForm, byteLen_of_graphic (esc.graphic_push_command c), length_push_command]
  | byte b => rw [letterForm, byteLen_of_graphic (graphic_pushHex b), pushHex]; rfl

theorem byteLen_formsText_letters (ls : List Utf8.Letter) :
    (formsText (ls.map esc.letterForm)).byteLen = formsWidth (ls.map esc.letterForm) := by
  induction ls with
  | nil => rfl
  | cons l ls ih =>
    rw [map_cons, formsText_cons, formsWidth_cons, Text.byteLen_append, ih, byteLen_letterForm]

theorem commandBytes_eq_formsText (b : Bytes) :
    esc.commandBytes b = formsText ((Utf8.letters b).map esc.letterForm) := by
  unfold commandBytes formsText
  split
  next s hs =>
    rw [Utf8.letters_of_decode hs, command, escape_eq_flatMap, map_map, flatMap_map]
    rfl
  next =>
    rw [Utf8.letters, map_flatMap, flatMap_assoc]
    congr 1
    funext p
    cases p with
    | char c => exact (append_nil _).symm
    | invalid bad =>
      rw [Utf8.Piece.letters, map_map, flatMap_map]
      rfl

theorem commandBytesTruncated_eq_cutTo (b : Bytes) (width : Nat) :
    esc.commandBytesTruncated b width = cutTo width 0 ((Utf8.letters b).map esc.letterForm) := by
  unfold commandBytesTruncated
  split
  next s hs =>
    rw [Utf8.letters_of_decode hs, map_map]
    rfl
  next =>
    rw [Utf8.letters, map_flatMap]
    congr 2
    funext p
    cases p with
    | char c => rfl
    | invalid bad =>
      rw [Utf8.Piece.letters, map_map]
      rfl

theorem byteLen_commandBytesTruncated_le (b : Bytes) (width : Nat) :
    (esc.commandBytesTruncated b width).byteLen ≤ width := by
  obtain ⟨k, -, hcut, hfit, -⟩ := cutTo_eq_take (Nat.zero_le width) ((Utf8.letters b).map esc.letterForm)
  rw [Nat.zero_add] at hfit
  rw [commandBytesTruncated_eq_cutTo, hcut, ← map_take, byteLen_formsText_letters, map_take]
  exact hfit

def firstUnits (k : Nat) (b : Bytes) : Bytes := ((Utf8.letters b).take k).flatMap Utf8.Letter.bytes

theorem letters_firstUnits (k : Nat) (b : Bytes) : Utf8.letters (firstUnits k b) = (Utf8.letters b).take k :=
  Utf8.letters_of_append (take_append_drop k _).symm

theorem commandBytes_firstUnits (k : Nat) (b : Bytes) :
    esc.commandBytes (firstUnits k b) = formsText (((Utf8.letters b).map esc.letterForm).take k) := by
  rw [commandBytes_eq_formsText, letters_firstUnits, map_take]

theorem byteLen_commandBytes_firstUnits (k : Nat) (b : Bytes) :
    (esc.commandBytes (firstUnits k b)).byteLen = formsWidth (((Utf8.letters b).map esc.letterForm).take k) := by
  rw [commandBytes_firstUnits, ← map_take, byteLen_formsText_letters]

/-- The cell is the escape of the first units of the command, as many as fit
the column. -/
theorem commandBytesTruncated_longest (b : Bytes) (width : Nat) :
    ∃ k ≤ (Utf8.letters b).length, firstUnits k b <+: b ∧ Utf8.letters (firstUnits k b) = (Utf8.letters b).take k ∧
      esc.commandBytesTruncated b width = esc.commandBytes (firstUnits k b) ∧
      (esc.commandBytes (firstUnits k b)).byteLen ≤ width ∧
      ∀ j ≤ (Utf8.letters b).length, (esc.commandBytes (firstUnits j b)).byteLen ≤ width → j ≤ k := by
  obtain ⟨k, hk, hcut, hfit, hmost⟩ :=
    cutTo_eq_take (Nat.zero_le width) ((Utf8.letters b).map esc.letterForm)
  rw [length_map] at hk hmost
  rw [Nat.zero_add] at hfit
  have hprefix : firstUnits k b <+: b := ⟨_, Utf8.bytes_take_append_drop b k⟩
  refine ⟨k, hk, hprefix, letters_firstUnits k b, ?_, ?_, fun j hj hjfit => hmost j hj ?_⟩
  · rw [commandBytesTruncated_eq_cutTo, hcut, commandBytes_firstUnits]
  · rw [byteLen_commandBytes_firstUnits]
    exact hfit
  · rw [byteLen_commandBytes_firstUnits] at hjfit
    omega

end Escaper

end Lsof.Core
