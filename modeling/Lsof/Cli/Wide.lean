import Lsof.Basis.Wtf8

/-! # Words back to 16-bit units

Where a word is a sequence of 16-bit units, its bytes are WTF-8. Bytes cut from
it are read back to units one sequence at a time, with U+FFFD for a byte that
starts none.
-/

namespace Lsof.Cli

open Lsof.Basis List

/-- How many bytes a sequence has that starts with `b`, and what `b` adds to its
code point. No sequence has 0. -/
def wideLead (b : UInt8) : Nat × Nat :=
  if b ≤ 0x7F then (1, b.toNat)
  else if 0xC2 ≤ b && b ≤ 0xDF then (2, (b &&& 0x1F).toNat)
  else if 0xE0 ≤ b && b ≤ 0xEF then (3, (b &&& 0x0F).toNat)
  else if 0xF0 ≤ b && b ≤ 0xF4 then (4, (b &&& 0x07).toNat)
  else (0, 0)

def wideUnits (cp : Nat) : List UInt16 :=
  if cp < 2 ^ 16 then [UInt16.ofNat cp]
  else
    let v := cp - 0x10000
    [(0xD800 : UInt16) ||| UInt16.ofNat ((v >>> 10) &&& 0x3FF), (0xDC00 : UInt16) ||| UInt16.ofNat (v &&& 0x3FF)]

def notContinuing (t : UInt8) : Bool := t &&& 0xC0 != 0x80

/-- The bytes after `b` that a sequence of `len` has; none where too few are left. -/
def wideTail (len : Nat) (rest : Bytes) : Bytes :=
  if max len 1 - 1 ≤ rest.length then rest.take (max len 1 - 1) else []

/-- One turn of the loop at `b`: the units it adds and the bytes it moves by. -/
def wideTurn (b : UInt8) (rest : Bytes) : List UInt16 × Nat :=
  let len := (wideLead b).1
  let tail := wideTail len rest
  if len == 0 || tail.length + 1 != len || tail.any notContinuing then ([0xFFFD], 1)
  else
    (wideUnits (tail.foldl (fun cp t => (cp <<< 6) ||| (t &&& 0x3F).toNat) (wideLead b).2), len)

/-- The loop, `none` where it has not ended after so many turns. -/
def wideLoop : Nat → Bytes → Option (List UInt16)
  | _, [] => some []
  | 0, _ :: _ => none
  | turns + 1, b :: rest =>
    let turn := wideTurn b rest
    (wideLoop turns ((b :: rest).drop turn.2)).map (turn.1 ++ ·)

def wtf8ToWide (bytes : Bytes) : Option (List UInt16) := wideLoop bytes.length bytes

theorem wideLead_cases (b : UInt8) :
    (wideLead b).1 = 0 ∨ wideLead b = (1, b.toNat) ∧ b.toNat < 0x80 ∨ 2 ≤ (wideLead b).1 := by
  unfold wideLead
  split
  next h =>
    have hlt : b.toNat ≤ 0x7F := UInt8.le_iff_toNat_le.mp h
    exact .inr (.inl ⟨rfl, by omega⟩)
  next =>
    repeat' split
    all_goals simp

theorem length_wideUnits_le (cp : Nat) : (wideUnits cp).length ≤ 2 := by
  unfold wideUnits
  split
  all_goals simp

theorem wideTurn_moves (b : UInt8) (rest : Bytes) :
    1 ≤ (wideTurn b rest).2 ∧ (wideTurn b rest).2 ≤ rest.length + 1 ∧
      (wideTurn b rest).1.length ≤ (wideTurn b rest).2 := by
  unfold wideTurn
  dsimp only
  split
  next => simp
  next h =>
    have hsome : (wideLead b).1 ≠ 0 ∧ (wideTail (wideLead b).1 rest).length + 1 = (wideLead b).1 := by
      simp only [Bool.or_eq_true, beq_iff_eq, bne_iff_ne, not_or, not_not] at h
      exact h.1
    have hwithin : (wideTail (wideLead b).1 rest).length ≤ rest.length := by
      unfold wideTail
      split
      · exact length_take_le' _ _
      · exact Nat.zero_le _
    refine ⟨by omega, by omega, ?_⟩
    rcases wideLead_cases b with hnone | ⟨hone, hsmall⟩ | htwo
    · exact absurd hnone hsome.1
    · -- a byte that is a character by itself adds one unit
      have htail : wideTail (wideLead b).1 rest = [] := by
        rw [hone] at hsome ⊢
        exact eq_nil_of_length_eq_zero (by omega)
      have hfits : b.toNat < 2 ^ 16 := by omega
      rw [htail, hone, foldl_nil, wideUnits, if_pos hfits]
      exact Nat.le_refl 1
    · exact Nat.le_trans (length_wideUnits_le _) htwo

theorem wideLoop_ends {turns : Nat} {bytes : Bytes} (h : bytes.length ≤ turns) :
    ∃ out, wideLoop turns bytes = some out ∧ out.length ≤ bytes.length := by
  induction turns generalizing bytes with
  | zero =>
    have hnil : bytes = [] := eq_nil_of_length_eq_zero (by omega)
    exact ⟨[], by rw [hnil, wideLoop], by simp⟩
  | succ turns ih =>
    cases bytes with
    | nil => exact ⟨[], by rw [wideLoop], by simp⟩
    | cons b rest =>
      rcases wideTurn_moves b rest with ⟨hmoves, hwithin, hunits⟩
      have hlen : ((b :: rest).drop (wideTurn b rest).2).length = rest.length + 1 - (wideTurn b rest).2 := by
        rw [length_drop, length_cons]
      have hshort : ((b :: rest).drop (wideTurn b rest).2).length ≤ turns := by
        rw [length_cons] at h
        omega
      rcases ih hshort with ⟨out, hout, hle⟩
      refine ⟨(wideTurn b rest).1 ++ out, ?_, ?_⟩
      · rw [wideLoop, hout]
        rfl
      · rw [length_append, length_cons]
        omega

theorem pushBits_eq (cp : Nat) (t : UInt8) : (cp <<< 6) ||| (t &&& 0x3F).toNat = 64 * cp + t.toNat % 64 := by
  have hmask : (t &&& 0x3F).toNat = t.toNat % 64 := by
    rw [UInt8.toNat_and]
    exact Nat.and_two_pow_sub_one_eq_mod t.toNat 6
  have hlt : t.toNat % 64 < 2 ^ 6 := Nat.mod_lt _ (by omega)
  rw [hmask, ← Nat.shiftLeft_add_eq_or_of_lt hlt, Nat.shiftLeft_eq]
  omega

theorem notContinuing_tail (m : Nat) : notContinuing (UInt8.ofNat (m % 64 + 128)) = false := by
  have hall : ∀ k < 64, notContinuing (UInt8.ofNat (k + 128)) = false := by decide
  exact hall (m % 64) (Nat.mod_lt m (by omega))

theorem continuing_tail (ms : List Nat) :
    ∀ t ∈ ms.map (fun m => UInt8.ofNat (m % 64 + 128)), notContinuing t = false := by
  intro t ht
  rcases mem_map.mp ht with ⟨m, -, hm⟩
  rw [← hm]
  exact notContinuing_tail m

theorem toNat_tail (m : Nat) : (UInt8.ofNat (m % 64 + 128)).toNat % 64 = m % 64 := by
  rw [Utf8.toNat_ofNat_small (by omega)]
  omega

theorem wideTurn_of_tail {b : UInt8} {tail rest : Bytes} {init : Nat}
    (hlead : wideLead b = (tail.length + 1, init)) (htail : ∀ t ∈ tail, notContinuing t = false) :
    wideTurn b (tail ++ rest) =
      (wideUnits (tail.foldl (fun cp t => 64 * cp + t.toNat % 64) init), tail.length + 1) := by
  have hcut : wideTail (tail.length + 1) (tail ++ rest) = tail := by
    simp [wideTail]
  have hany : tail.any notContinuing = false := any_eq_false.mpr fun t ht => by simp [htail t ht]
  unfold wideTurn
  simp only [hlead, pushBits_eq]
  simp [hcut, hany]

variable {n : Nat}

theorem wideLead_two (hlo : 2 ≤ n) (hhi : n < 32) : wideLead (UInt8.ofNat (n + 192)) = (2, n) := by
  have hall : ∀ k < 32, 2 ≤ k → wideLead (UInt8.ofNat (k + 192)) = (2, k) := by decide
  exact hall n hhi hlo

theorem wideLead_three (hn : n < 16) : wideLead (UInt8.ofNat (n + 224)) = (3, n) := by
  have hall : ∀ k < 16, wideLead (UInt8.ofNat (k + 224)) = (3, k) := by decide
  exact hall n hn

theorem wideLead_four (hn : n < 5) : wideLead (UInt8.ofNat (n + 240)) = (4, n) := by
  have hall : ∀ k < 5, wideLead (UInt8.ofNat (k + 240)) = (4, k) := by decide
  exact hall n hn

theorem wideLead_one (hn : n < 0x80) : wideLead (UInt8.ofNat n) = (1, n) := by
  have hall : ∀ k < 0x80, wideLead (UInt8.ofNat k) = (1, k) := by decide
  exact hall n hn

theorem wideTurn_encodePoint {p : Nat} (hp : p < 0x110000) :
    ∃ lead tail, Wtf8.encodePoint p = lead :: tail ∧
      ∀ rest, wideTurn lead (tail ++ rest) = (wideUnits p, tail.length + 1) := by
  unfold Wtf8.encodePoint
  by_cases h1 : p < 0x80
  · rw [if_pos h1]
    refine ⟨_, _, rfl, fun rest => ?_⟩
    exact wideTurn_of_tail (wideLead_one h1) (continuing_tail [])
  · rw [if_neg h1]
    by_cases h2 : p < 0x800
    · rw [if_pos h2]
      refine ⟨_, _, rfl, fun rest => ?_⟩
      have hlead : wideLead (UInt8.ofNat (p / 64 + 192)) = (2, p / 64) := wideLead_two (by omega) (by omega)
      have hpoint : 64 * (p / 64) + p % 64 = p := by omega
      refine (wideTurn_of_tail hlead (continuing_tail [p])).trans ?_
      simp only [map_cons, map_nil, foldl_cons, foldl_nil, toNat_tail, hpoint]
    · rw [if_neg h2]
      by_cases h3 : p < 0x10000
      · rw [if_pos h3]
        refine ⟨_, _, rfl, fun rest => ?_⟩
        have hlead : wideLead (UInt8.ofNat (p / 4096 + 224)) = (3, p / 4096) := wideLead_three (by omega)
        have hpoint : 64 * (64 * (p / 4096) + p / 64 % 64) + p % 64 = p := by omega
        refine (wideTurn_of_tail hlead (continuing_tail [p / 64, p])).trans ?_
        simp only [map_cons, map_nil, foldl_cons, foldl_nil, toNat_tail, hpoint]
      · rw [if_neg h3]
        refine ⟨_, _, rfl, fun rest => ?_⟩
        have hlead : wideLead (UInt8.ofNat (p / 262144 + 240)) = (4, p / 262144) := wideLead_four (by omega)
        have hpoint : 64 * (64 * (64 * (p / 262144) + p / 4096 % 64) + p / 64 % 64) + p % 64 = p := by omega
        refine (wideTurn_of_tail hlead (continuing_tail [p / 4096, p / 64, p])).trans ?_
        simp only [map_cons, map_nil, foldl_cons, foldl_nil, toNat_tail, hpoint]

theorem wideLoop_encode {ps : List Nat} (hps : ∀ p ∈ ps, p < 0x110000) {turns : Nat}
    (hturns : (ps.flatMap Wtf8.encodePoint).length ≤ turns) :
    wideLoop turns (ps.flatMap Wtf8.encodePoint) = some (ps.flatMap wideUnits) := by
  induction ps generalizing turns with
  | nil =>
    rw [flatMap_nil, wideLoop]
    rfl
  | cons p ps ih =>
    rcases wideTurn_encodePoint (hps p mem_cons_self) with ⟨lead, tail, hform, hturn⟩
    rw [flatMap_cons, hform, cons_append] at hturns ⊢
    cases turns with
    | zero => exact absurd hturns (by simp)
    | succ turns =>
      have hrest : ∀ q ∈ ps, q < 0x110000 := fun q hq => hps q (mem_cons_of_mem _ hq)
      have hshort : (ps.flatMap Wtf8.encodePoint).length ≤ turns := by
        rw [length_cons, length_append] at hturns
        omega
      rw [wideLoop, hturn, drop_succ_cons, drop_left, ih hrest hshort]
      rfl

theorem wideUnits_unit (u : UInt16) : wideUnits u.toNat = [u] := by
  rw [wideUnits, if_pos u.toNat_lt, UInt16.ofNat_toNat]

theorem surrogate_or {n m : Nat} {base : UInt16} (hbase : base.toNat = n * 1024) (hm : m < 1024) :
    (base ||| UInt16.ofNat m).toNat = n * 1024 + m := by
  have hfits : (UInt16.ofNat m).toNat = m := UInt16.toNat_ofNat_of_lt' (Nat.lt_trans hm (by decide))
  have hshift : n * 1024 = n <<< 10 := by
    rw [Nat.shiftLeft_eq]
  rw [UInt16.toNat_or, hbase, hfits, hshift, ← Nat.shiftLeft_add_eq_or_of_lt hm]

theorem wideUnits_pair {u v : UInt16} (hu : Wtf8.isHigh u = true) (hv : Wtf8.isLow v = true) :
    wideUnits (Wtf8.pairPoint u v) = [u, v] := by
  have hhigh := Wtf8.isHigh_iff.mp hu
  have hlow := Wtf8.isLow_iff.mp hv
  have hpoint : Wtf8.pairPoint u v - 0x10000 = (u.toNat - 0xD800) * 1024 + (v.toNat - 0xDC00) := by
    unfold Wtf8.pairPoint
    omega
  have hbig : ¬ Wtf8.pairPoint u v < 2 ^ 16 := by
    unfold Wtf8.pairPoint
    omega
  have hten : ∀ n, n &&& 0x3FF = n % 1024 := fun n => Nat.and_two_pow_sub_one_eq_mod n 10
  have hv10 : ((u.toNat - 0xD800) * 1024 + (v.toNat - 0xDC00)) >>> 10 &&& 0x3FF = u.toNat - 0xD800 := by
    rw [hten, Nat.shiftRight_eq_div_pow]
    omega
  have hv0 : ((u.toNat - 0xD800) * 1024 + (v.toNat - 0xDC00)) &&& 0x3FF = v.toNat - 0xDC00 := by
    rw [hten]
    omega
  rw [wideUnits, if_neg hbig]
  dsimp only
  rw [hpoint, hv10, hv0]
  have hhi : 0xD800 ||| UInt16.ofNat (u.toNat - 0xD800) = u := by
    apply UInt16.toNat_inj.mp
    rw [@surrogate_or 54 _ _ rfl (by omega)]
    omega
  have hlo : 0xDC00 ||| UInt16.ofNat (v.toNat - 0xDC00) = v := by
    apply UInt16.toNat_inj.mp
    rw [@surrogate_or 55 _ _ rfl (by omega)]
    omega
  rw [hhi, hlo]

theorem flatMap_wideUnits_points (us : List UInt16) : (Wtf8.points us).flatMap wideUnits = us := by
  induction us using Wtf8.points_induction with
  | nil => rfl
  | single u rest hpoints ih =>
    rw [hpoints, flatMap_cons, wideUnits_unit, ih]
    rfl
  | pair u v rest hu hv hpoints ih =>
    rw [hpoints, flatMap_cons, wideUnits_pair hu hv, ih]
    rfl

/-- Units come back from their WTF-8, surrogates alone included, and any bytes
are read in no more turns than there are, to no more units. -/
theorem wtf8ToWide_inverts :
    (∀ us : List UInt16, wtf8ToWide (Wtf8.encode us) = some us) ∧
      ∀ bytes : Bytes, ∃ out, wtf8ToWide bytes = some out ∧ out.length ≤ bytes.length := by
  constructor
  · intro us
    have hread := wideLoop_encode (Wtf8.lt_of_mem_points us) (Nat.le_refl _)
    rw [flatMap_wideUnits_points] at hread
    exact hread
  · intro bytes
    exact wideLoop_ends (Nat.le_refl _)

/-- A high surrogate alone, then a pair. -/
example : Wtf8.encode [0xD83D, 0x41, 0xD83D, 0xDE00] =
    [0xED, 0xA0, 0xBD, 0x41, 0xF0, 0x9F, 0x98, 0x80] := by decide

end Lsof.Cli
