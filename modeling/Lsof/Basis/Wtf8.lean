import Lsof.Basis.Utf8

/-! # 16-bit units as WTF-8

A pair of surrogates is one code point, which takes four bytes. Any other unit
is a code point by itself, a surrogate alone included, and takes at most three.
-/

namespace Lsof.Basis.Wtf8

def isHigh (u : UInt16) : Bool := 0xD800 ≤ u && u ≤ 0xDBFF

def isLow (u : UInt16) : Bool := 0xDC00 ≤ u && u ≤ 0xDFFF

def pairPoint (hi lo : UInt16) : Nat :=
  0x10000 + (hi.toNat - 0xD800) * 0x400 + (lo.toNat - 0xDC00)

def points : List UInt16 → List Nat
  | [] => []
  | [u] => [u.toNat]
  | u :: v :: rest =>
    if isHigh u && isLow v then pairPoint u v :: points rest
    else u.toNat :: points (v :: rest)

def encodePoint (p : Nat) : Bytes :=
  if p < 0x80 then [UInt8.ofNat p]
  else if p < 0x800 then [UInt8.ofNat (p / 64 + 192), UInt8.ofNat (p % 64 + 128)]
  else if p < 0x10000 then
    [UInt8.ofNat (p / 4096 + 224), UInt8.ofNat (p / 64 % 64 + 128), UInt8.ofNat (p % 64 + 128)]
  else
    [UInt8.ofNat (p / 262144 + 240), UInt8.ofNat (p / 4096 % 64 + 128), UInt8.ofNat (p / 64 % 64 + 128),
      UInt8.ofNat (p % 64 + 128)]

def encode (us : List UInt16) : Bytes := (points us).flatMap encodePoint

theorem isHigh_iff {u : UInt16} : isHigh u = true ↔ 0xD800 ≤ u.toNat ∧ u.toNat ≤ 0xDBFF := by
  simp [isHigh, UInt16.le_iff_toNat_le]

theorem isLow_iff {u : UInt16} : isLow u = true ↔ 0xDC00 ≤ u.toNat ∧ u.toNat ≤ 0xDFFF := by
  simp [isLow, UInt16.le_iff_toNat_le]

theorem points_induction {motive : List UInt16 → Prop} (nil : motive [])
    (single : ∀ u rest, points (u :: rest) = u.toNat :: points rest → motive rest → motive (u :: rest))
    (pair : ∀ u v rest, isHigh u = true → isLow v = true →
      points (u :: v :: rest) = pairPoint u v :: points rest → motive rest → motive (u :: v :: rest)) :
    ∀ us, motive us := by
  intro us
  induction us using points.induct with
  | case1 => exact nil
  | case2 u => exact single u [] rfl nil
  | case3 u v rest h ih =>
    have hboth : isHigh u = true ∧ isLow v = true := by simpa using h
    refine pair u v rest hboth.1 hboth.2 ?_ ih
    rw [points, if_pos h]
  | case4 u v rest h ih =>
    refine single u (v :: rest) ?_ ih
    rw [points, if_neg h]

theorem lt_of_mem_points (us : List UInt16) : ∀ p ∈ points us, p < 0x110000 := by
  induction us using points_induction with
  | nil =>
    intro p hp
    exact absurd hp List.not_mem_nil
  | single u rest hpoints ih =>
    intro p hp
    rw [hpoints] at hp
    have hu : u.toNat < 65536 := u.toNat_lt
    rcases List.mem_cons.mp hp with heq | hin
    · omega
    · exact ih p hin
  | pair u v rest hu hv hpoints ih =>
    intro p hp
    rw [hpoints] at hp
    rcases List.mem_cons.mp hp with heq | hin
    · have hhigh := isHigh_iff.mp hu
      have hlow := isLow_iff.mp hv
      unfold pairPoint at heq
      omega
    · exact ih p hin

end Lsof.Basis.Wtf8
