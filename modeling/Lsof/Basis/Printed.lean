import Lsof.Basis.Framing
import Lsof.Basis.Lines

/-! # Printed lines

A text that was printed line by line, each line ended by a newline, and the two
ways it is read back: by its lines, and by `fgets()` into a buffer that has room
for each of them.
-/

namespace Lsof.Basis.Text

open List

def printed (ls : List Text) : Text := ls.flatMap fun line => line ++ ['\n']

/-- A line that reads back: no newline within, no carriage return at its end. -/
def IsLine (line : Text) : Prop := '\n' ∉ line ∧ '\r' ∉ line

theorem isLine_of_plain {line : Text} (h : line.Plain) : line.IsLine := by
  have hnot : ∀ c : Char, c.toNat < 0x20 → c ∉ line := by
    intro c hc hmem
    have hlow := (h c hmem).1
    omega
  exact ⟨hnot '\n' (by decide), hnot '\r' (by decide)⟩

theorem isLine_append {s t : Text} (hs : s.IsLine) (ht : t.IsLine) : (s ++ t).IsLine := by
  unfold IsLine
  rw [mem_append, mem_append, not_or, not_or]
  exact ⟨⟨hs.1, ht.1⟩, hs.2, ht.2⟩

theorem lines_printed {ls : List Text} (h : ∀ line ∈ ls, line.IsLine) : (printed ls).lines = ls := by
  have hsplit := splitOn_flatMap fun line hline => (h line hline).1
  rw [splitOn_eq_splitOnP] at hsplit
  have hcr : ls.map stripCr = ls := by
    conv => rhs; rw [← map_id ls]
    apply map_congr_left
    intro line hline
    have hstrip := stripCr_append (h line hline).2 []
    rw [append_nil] at hstrip
    rw [hstrip]
    exact append_nil line
  rw [printed, lines_of_terminated hsplit, hcr]

/-- The texts that reads into a buffer with room for `size` characters give: each
ends after a newline or where the buffer is full. `room` is what is left of it. -/
def getsFrom (size room : Nat) (held : Text) : Text → List Text
  | [] => if held.isEmpty then [] else [held]
  | c :: t =>
    if c == '\n' || room ≤ 1 then (held ++ [c]) :: getsFrom size size [] t
    else getsFrom size (room - 1) (held ++ [c]) t

def gets (size : Nat) (t : Text) : List Text := getsFrom size size [] t

theorem getsFrom_line (size : Nat) {room : Nat} {line : Text} (hnl : '\n' ∉ line) (hroom : line.length < room)
    (held rest : Text) : getsFrom size room held (line ++ '\n' :: rest) = (held ++ line ++ ['\n']) :: gets size rest := by
  induction line generalizing room held with
  | nil =>
    rw [nil_append, getsFrom, append_nil]
    rfl
  | cons c line ih =>
    rw [mem_cons, not_or] at hnl
    rw [length_cons] at hroom
    have hgoes : ¬ (c == '\n' || decide (room ≤ 1)) = true := by
      have hc : c ≠ '\n' := Ne.symm hnl.1
      have hleft : ¬ room ≤ 1 := by omega
      simp [hc, hleft]
    rw [cons_append, getsFrom, if_neg hgoes, ih hnl.2 (by omega)]
    simp

theorem gets_printed {size : Nat} {ls : List Text} (h : ∀ line ∈ ls, '\n' ∉ line ∧ line.length < size) :
    gets size (printed ls) = ls.map (· ++ ['\n']) := by
  induction ls with
  | nil => rfl
  | cons line ls ih =>
    obtain ⟨hnl, hroom⟩ := h line mem_cons_self
    have hline := getsFrom_line size hnl hroom [] (printed ls)
    rw [nil_append, ih fun other hother => h other (mem_cons_of_mem line hother)] at hline
    rw [gets, printed, flatMap_cons, append_assoc, singleton_append]
    exact hline

end Lsof.Basis.Text
