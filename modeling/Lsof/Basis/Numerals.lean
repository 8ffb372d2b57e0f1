import Lsof.Basis.Lines

/-! # Numerals with a least width -/

namespace Lsof.Basis.Text

def hexAtLeast (w n : Nat) : Text := hexPad lowerHex (max w (Nat.log 16 n + 1)) n

theorem lt_width_hexAtLeast (w n : Nat) : n < 16 ^ max w (Nat.log 16 n + 1) :=
  Nat.lt_of_lt_of_le (Nat.lt_pow_succ_log_self (by decide) n)
    (Nat.pow_le_pow_right (by decide) (Nat.le_max_right _ _))

theorem hexAtLeast_ne_nil (w n : Nat) : hexAtLeast w n ≠ [] := hexPad_ne_nil _ (by omega) n

theorem hexDigit_of_mem_hexAtLeast {w n : Nat} {c : Char} (h : c ∈ hexAtLeast w n) :
    (hexDigitValue c).isSome = true :=
  mem_hexPad (.inr rfl) h

theorem hexValue_hexAtLeast (w n : Nat) : hexValue (hexAtLeast w n) = n :=
  hexValue_hexPad (.inr rfl) (lt_width_hexAtLeast w n)

theorem parseHex_hexAtLeast {bits n : Nat} (w : Nat) (h : n < 2 ^ bits) : parseHex bits (hexAtLeast w n) = some n :=
  parseHex_hexPad (.inr rfl) (by omega) (lt_width_hexAtLeast w n) h

end Lsof.Basis.Text
