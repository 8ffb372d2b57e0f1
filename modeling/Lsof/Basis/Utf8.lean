import Lsof.Basis.Text

/-! # Reading UTF-8 and writing it

The pieces of a byte string put together again are the byte string; the bytes
of a character are read as that character, whatever follows; and a byte below
`0x80` is always a piece of its own, so that a byte string may be read in two
halves at any such byte.
-/

namespace Lsof.Basis.Utf8

open List

def Piece.bytes : Piece → Bytes
  | .char c => String.utf8EncodeChar c
  | .invalid bad => bad

variable {n : Nat}

theorem toNat_ofNat_of_valid (h : n.isValidChar) : (Char.ofNat n).val.toNat = n := by
  have hlt : n < 2 ^ 32 := by
    unfold Nat.isValidChar at h
    omega
  unfold Char.ofNat
  rw [dif_pos h]
  show (UInt32.ofNatLT n _).toNat = n
  simp

theorem valid_toNat (c : Char) : c.val.toNat < 0xD800 ∨ (0xDFFF < c.val.toNat ∧ c.val.toNat < 0x110000) :=
  c.valid

theorem encode_ascii {c : Char} (h : c.toNat < 0x80) : String.utf8EncodeChar c = [UInt8.ofNat c.toNat] := by
  have hle : c.val.toNat ≤ 127 := by
    have : c.val.toNat = c.toNat := rfl
    omega
  rw [String.utf8EncodeChar.eq_1, if_pos hle]
  rfl

theorem encode_of_toNat (h : n.isValidChar) :
    String.utf8EncodeChar (Char.ofNat n) =
      if n ≤ 127 then [UInt8.ofNat n]
      else if n ≤ 2047 then [UInt8.ofNat (n / 64 % 32 + 192), UInt8.ofNat (n % 64 + 128)]
      else if n ≤ 65535 then
        [UInt8.ofNat (n / 4096 % 16 + 224), UInt8.ofNat (n / 64 % 64 + 128), UInt8.ofNat (n % 64 + 128)]
      else
        [UInt8.ofNat (n / 262144 % 8 + 240), UInt8.ofNat (n / 4096 % 64 + 128),
          UInt8.ofNat (n / 64 % 64 + 128), UInt8.ofNat (n % 64 + 128)] := by
  rw [String.utf8EncodeChar.eq_1, toNat_ofNat_of_valid h]

variable {b : UInt8}

theorem ofNat_eq (h : n = b.toNat) : UInt8.ofNat n = b := by
  rw [h, UInt8.ofNat_toNat]

theorem inRange_iff {lo hi b : UInt8} : inRange (lo, hi) b = true ↔ lo.toNat ≤ b.toNat ∧ b.toNat ≤ hi.toNat := by
  simp [inRange, UInt8.le_iff_toNat_le]

theorem inRange_secondRange {lead b : UInt8} :
    inRange (secondRange lead) b = true ↔
      0x80 ≤ b.toNat ∧ b.toNat ≤ 0xBF ∧
        (lead.toNat = 0xE0 → 0xA0 ≤ b.toNat) ∧ (lead.toNat = 0xED → b.toNat ≤ 0x9F) ∧
        (lead.toNat = 0xF0 → 0x90 ≤ b.toNat) ∧ (lead.toNat = 0xF4 → b.toNat ≤ 0x8F) := by
  have hlead : ∀ n : UInt8, lead = n ↔ lead.toNat = n.toNat := fun n => UInt8.toNat_inj.symm
  unfold secondRange
  simp only [hlead]
  split
  next h => rw [inRange_iff, h]; simp; omega
  next h =>
    split
    next h' => rw [inRange_iff, h']; simp; omega
    next h' =>
      split
      next h'' => rw [inRange_iff, h'']; simp; omega
      next h'' =>
        split
        next h3 => rw [inRange_iff, h3]; simp; omega
        next h3 =>
          rw [inRange_iff]
          simp at h h' h'' h3 ⊢
          omega

def Continuing (range : UInt8 × UInt8) : Prop :=
  ∀ b, inRange range b = true → 0x80 ≤ b.toNat ∧ b.toNat ≤ 0xBF

theorem continuing_default : Continuing (0x80, 0xBF) := fun b hb => by
  simpa using inRange_iff.mp hb

theorem continuing_secondRange (lead : UInt8) : Continuing (secondRange lead) := fun b hb => by
  have h := inRange_secondRange.mp hb
  exact ⟨h.1, h.2.1⟩

variable {range : UInt8 × UInt8}

theorem mem_tailBytes (hrange : Continuing range) {rest : Bytes}
    (hb : b ∈ tailBytes n range rest) : 0x80 ≤ b.toNat ∧ b.toNat ≤ 0xBF := by
  induction n generalizing range rest with
  | zero => simp [tailBytes] at hb
  | succ n ih =>
    cases rest with
    | nil => simp [tailBytes] at hb
    | cons x rest =>
      rw [tailBytes] at hb
      split at hb
      next hx =>
        rcases mem_cons.mp hb with hbx | hb
        · exact hbx ▸ hrange x hx
        · exact ih continuing_default hb
      next => simp at hb

theorem tailBytes_append_drop (n : Nat) (range : UInt8 × UInt8) (rest : Bytes) :
    tailBytes n range rest ++ rest.drop (tailBytes n range rest).length = rest := by
  induction n generalizing range rest with
  | zero => simp [tailBytes]
  | succ n ih =>
    cases rest with
    | nil => simp [tailBytes]
    | cons x rest =>
      rw [tailBytes]
      split
      next => simpa using ih (0x80, 0xBF) rest
      next => simp

theorem length_tailBytes_le (n : Nat) (range : UInt8 × UInt8) (rest : Bytes) :
    (tailBytes n range rest).length ≤ n := by
  induction n generalizing range rest with
  | zero => simp [tailBytes]
  | succ n ih =>
    cases rest with
    | nil => simp [tailBytes]
    | cons x rest =>
      rw [tailBytes]
      split
      next => simpa using ih (0x80, 0xBF) rest
      next => simp

variable {a : UInt8}

theorem tailBytes_append (hrange : Continuing range) (u : Bytes) (ha : a.toNat < 0x80) (v : Bytes) :
    tailBytes n range (u ++ a :: v) = tailBytes n range u := by
  induction n generalizing range u with
  | zero => rfl
  | succ n ih =>
    cases u with
    | nil =>
      have hno : ¬ inRange range a = true := fun h => by
        have := hrange a h
        omega
      exact if_neg hno
    | cons x u =>
      rw [cons_append, tailBytes, tailBytes]
      split
      next => rw [ih continuing_default]
      next => rfl

theorem piece_drop_le (lead : UInt8) (rest : Bytes) : (piece lead rest).2 ≤ rest.length := by
  have hlen : ∀ n, (tailBytes n (secondRange lead) rest).length ≤ rest.length := fun n => by
    have h := congrArg List.length (tailBytes_append_drop n (secondRange lead) rest)
    rw [length_append] at h
    omega
  unfold piece
  split
  next => exact Nat.zero_le _
  next n _ =>
    dsimp only
    split
    next hfull => exact hfull ▸ hlen n
    next => exact hlen n

variable {lead : UInt8}

theorem tailLength_cases (h : tailLength lead = some n) :
    (n = 0 ∧ lead.toNat < 0x80) ∨ (n = 1 ∧ 0xC2 ≤ lead.toNat ∧ lead.toNat ≤ 0xDF) ∨
      (n = 2 ∧ 0xE0 ≤ lead.toNat ∧ lead.toNat ≤ 0xEF) ∨ (n = 3 ∧ 0xF0 ≤ lead.toNat ∧ lead.toNat ≤ 0xF4) := by
  unfold tailLength at h
  simp only [UInt8.lt_iff_toNat_lt, UInt8.le_iff_toNat_le, Bool.and_eq_true, decide_eq_true_eq] at h
  split at h
  next h0 => cases h; simp at h0; omega
  next =>
    split at h
    next h1 => cases h; simp at h1; omega
    next =>
      split at h
      next h2 => cases h; simp at h2; omega
      next =>
        split at h
        next h3 => cases h; simp at h3; omega
        next => cases h

theorem lead_of_tailLength_none (h : tailLength lead = none) : 0x80 ≤ lead.toNat := by
  unfold tailLength at h
  simp only [UInt8.lt_iff_toNat_lt] at h
  split at h
  next => cases h
  next h0 => simpa using h0

theorem tailBytes_full {rest tail : Bytes} (htail : tailBytes n range rest = tail) (hlen : tail.length = n) :
    (n = 0 ∧ tail = []) ∨
    (∃ b more, tail = b :: more ∧ inRange range b = true ∧ ∀ c ∈ more, 0x80 ≤ c.toNat ∧ c.toNat ≤ 0xBF) := by
  cases n with
  | zero => exact Or.inl ⟨rfl, length_eq_zero_iff.mp hlen⟩
  | succ n =>
    cases rest with
    | nil =>
      rw [tailBytes] at htail
      subst htail
      simp at hlen
    | cons x rest =>
      rw [tailBytes] at htail
      split at htail
      next hx =>
        subst htail
        exact Or.inr ⟨x, _, rfl, hx, fun c hc => mem_tailBytes continuing_default hc⟩
      next =>
        subst htail
        simp at hlen

theorem encode_two {x y : Nat} (hx : x < 32) (hy : y < 64) (hlong : 2 ≤ x) :
    String.utf8EncodeChar (Char.ofNat (64 * x + y)) = [UInt8.ofNat (x + 192), UInt8.ofNat (y + 128)] := by
  have hhigh : (64 * x + y) / 64 % 32 = x := by omega
  have hlow : (64 * x + y) % 64 = y := by omega
  rw [encode_of_toNat (.inl (by omega)), if_neg (by omega), if_pos (by omega), hhigh, hlow]

theorem encode_three {x y z : Nat} (hx : x < 16) (hy : y < 64) (hz : z < 64) (hlong : x = 0 → 32 ≤ y)
    (hgap : x = 13 → y < 32) :
    String.utf8EncodeChar (Char.ofNat (64 * (64 * x + y) + z)) =
      [UInt8.ofNat (x + 224), UInt8.ofNat (y + 128), UInt8.ofNat (z + 128)] := by
  have hvalid : (64 * (64 * x + y) + z).isValidChar := by
    unfold Nat.isValidChar
    omega
  have hlarge : 2048 ≤ 64 * (64 * x + y) + z := by omega
  rw [encode_of_toNat hvalid, if_neg (by omega), if_neg (by omega), if_pos (by omega)]
  clear hvalid hlarge hlong hgap
  have hhigh : (64 * (64 * x + y) + z) / 4096 % 16 = x := by omega
  have hmid : (64 * (64 * x + y) + z) / 64 % 64 = y := by omega
  have hlow : (64 * (64 * x + y) + z) % 64 = z := by omega
  rw [hhigh, hmid, hlow]

theorem encode_four {x y z w : Nat} (hx : x < 5) (hy : y < 64) (hz : z < 64) (hw : w < 64) (hlong : x = 0 → 16 ≤ y)
    (hlast : x = 4 → y < 16) :
    String.utf8EncodeChar (Char.ofNat (64 * (64 * (64 * x + y) + z) + w)) =
      [UInt8.ofNat (x + 240), UInt8.ofNat (y + 128), UInt8.ofNat (z + 128), UInt8.ofNat (w + 128)] := by
  have hlarge : 65536 ≤ 64 * (64 * (64 * x + y) + z) + w := by omega
  have hvalid : 64 * (64 * (64 * x + y) + z) + w < 1114112 := by omega
  rw [encode_of_toNat (.inr ⟨by omega, hvalid⟩), if_neg (by omega), if_neg (by omega), if_neg (by omega)]
  clear hvalid hlarge hlong hlast
  have hhigh : (64 * (64 * (64 * x + y) + z) + w) / 262144 % 8 = x := by omega
  have hnext : (64 * (64 * (64 * x + y) + z) + w) / 4096 % 64 = y := by omega
  have hmid : (64 * (64 * (64 * x + y) + z) + w) / 64 % 64 = z := by omega
  have hlow : (64 * (64 * (64 * x + y) + z) + w) % 64 = w := by omega
  rw [hhigh, hnext, hmid, hlow]

theorem encode_codePoint (hn : tailLength lead = some n) {rest tail : Bytes}
    (htail : tailBytes n (secondRange lead) rest = tail) (hlen : tail.length = n) :
    String.utf8EncodeChar (Char.ofNat (codePoint lead tail)) = lead :: tail := by
  obtain ⟨rfl, h0⟩ | ⟨rfl, h1⟩ | ⟨rfl, h2⟩ | ⟨rfl, h3⟩ := tailLength_cases hn
  · obtain rfl := length_eq_zero_iff.mp hlen
    have hcp : codePoint lead [] = lead.toNat := rfl
    rw [hcp, encode_of_toNat (.inl (by omega)), if_pos (by omega), UInt8.ofNat_toNat]
  · obtain ⟨hzero, -⟩ | ⟨b, more, rfl, hb, -⟩ := tailBytes_full htail hlen
    · cases hzero
    · obtain rfl : more = [] := by simpa using hlen
      have hbr := continuing_secondRange lead b hb
      have hcp : codePoint lead [b] = 64 * (lead.toNat % 32) + b.toNat % 64 := rfl
      rw [hcp, encode_two (by omega) (by omega) (by omega), ofNat_eq (b := lead) (by omega),
        ofNat_eq (b := b) (by omega)]
  · obtain ⟨hzero, -⟩ | ⟨b, more, rfl, hb, hmore⟩ := tailBytes_full htail hlen
    · cases hzero
    · obtain ⟨c, rfl⟩ : ∃ c, more = [c] := length_eq_one_iff.mp (by simpa using hlen)
      obtain ⟨hlow, hhigh, hlong, hgap, -, -⟩ := inRange_secondRange.mp hb
      have hcr := hmore c (by simp)
      have hcp : codePoint lead [b, c] =
          64 * (64 * (lead.toNat % 16) + b.toNat % 64) + c.toNat % 64 := rfl
      rw [hcp, encode_three (by omega) (by omega) (by omega) (by omega) (by omega), ofNat_eq (b := lead) (by omega),
        ofNat_eq (b := b) (by omega), ofNat_eq (b := c) (by omega)]
  · obtain ⟨hzero, -⟩ | ⟨b, more, rfl, hb, hmore⟩ := tailBytes_full htail hlen
    · cases hzero
    · obtain ⟨c, d, rfl⟩ : ∃ c d, more = [c, d] := length_eq_two.mp (by simpa using hlen)
      obtain ⟨hlow, hhigh, -, -, hlong, hlast⟩ := inRange_secondRange.mp hb
      have hcr := hmore c (by simp)
      have hdr := hmore d (by simp)
      have hcp : codePoint lead [b, c, d] =
          64 * (64 * (64 * (lead.toNat % 8) + b.toNat % 64) + c.toNat % 64) + d.toNat % 64 := rfl
      rw [hcp, encode_four (by omega) (by omega) (by omega) (by omega) (by omega) (by omega),
        ofNat_eq (b := lead) (by omega), ofNat_eq (b := b) (by omega), ofNat_eq (b := c) (by omega),
        ofNat_eq (b := d) (by omega)]

theorem bytes_piece (lead : UInt8) (rest : Bytes) :
    (piece lead rest).1.bytes ++ rest.drop (piece lead rest).2 = lead :: rest := by
  unfold piece
  cases hn : tailLength lead with
  | none => rfl
  | some n =>
    have hsplit := tailBytes_append_drop n (secondRange lead) rest
    dsimp only
    split
    next hfull =>
      rw [hfull] at hsplit
      show String.utf8EncodeChar _ ++ rest.drop n = _
      rw [encode_codePoint hn rfl hfull, cons_append, hsplit]
    next =>
      show (lead :: _) ++ _ = _
      rw [cons_append, hsplit]

theorem bytes_piece_eq (lead : UInt8) (rest : Bytes) :
    ∃ tail, (piece lead rest).1.bytes = lead :: tail ∧ ∀ b ∈ tail, 0x80 ≤ b.toNat ∧ b.toNat ≤ 0xBF := by
  unfold piece
  cases hn : tailLength lead with
  | none => exact ⟨[], rfl, by simp⟩
  | some n =>
    refine ⟨tailBytes n (secondRange lead) rest, ?_, fun b hb => mem_tailBytes (continuing_secondRange lead) hb⟩
    dsimp only
    split
    next hfull => exact encode_codePoint hn rfl hfull
    next => rfl

theorem invalid_piece {rest bad : Bytes} (h : (piece lead rest).1 = .invalid bad) : ∀ b ∈ bad, 0x80 ≤ b.toNat := by
  unfold piece at h
  cases hn : tailLength lead with
  | none =>
    rw [hn] at h
    cases h
    intro b hb
    rw [mem_singleton.mp hb]
    exact lead_of_tailLength_none hn
  | some n =>
    rw [hn] at h
    dsimp only at h
    split at h
    next => cases h
    next hpart =>
      cases h
      intro b hb
      rcases mem_cons.mp hb with hb | hb
      · -- an ASCII byte is complete by itself
        obtain ⟨rfl, h0⟩ | h1 | h2 | h3 := tailLength_cases hn
        · exact absurd rfl hpart
        all_goals
          rw [hb]
          omega
      · exact (mem_tailBytes (continuing_secondRange lead) hb).1

theorem piece_append (lead : UInt8) (u : Bytes) (ha : a.toNat < 0x80) (v : Bytes) :
    piece lead (u ++ a :: v) = piece lead u := by
  unfold piece
  cases tailLength lead with
  | none => rfl
  | some n =>
    dsimp only
    rw [tailBytes_append (continuing_secondRange lead) u ha v]

theorem piece_ascii (ha : a.toNat < 0x80) (v : Bytes) : piece a v = (.char (Char.ofNat a.toNat), 0) := by
  have hn : tailLength a = some 0 := if_pos (by simpa [UInt8.lt_iff_toNat_lt] using ha)
  unfold piece
  rw [hn]
  rfl

theorem piecesFuel_congr {f g : Nat} {bs : Bytes} (hf : bs.length ≤ f) (hg : bs.length ≤ g) :
    piecesFuel f bs = piecesFuel g bs := by
  induction f generalizing g bs with
  | zero =>
    obtain rfl := length_eq_zero_iff.mp (Nat.le_zero.mp hf)
    cases g <;> rfl
  | succ f ih =>
    cases bs with
    | nil => cases g <;> rfl
    | cons lead rest =>
      cases g with
      | zero => simp at hg
      | succ g =>
        rw [length_cons] at hf hg
        have hrest := @ih g (rest.drop (piece lead rest).2)
          (by rw [length_drop]; omega) (by rw [length_drop]; omega)
        rw [piecesFuel, piecesFuel, hrest]

@[simp] theorem pieces_nil : pieces [] = [] := rfl

theorem pieces_cons (lead : UInt8) (rest : Bytes) :
    pieces (lead :: rest) = (piece lead rest).1 :: pieces (rest.drop (piece lead rest).2) := by
  show (piece lead rest).1 :: piecesFuel rest.length _ = _
  rw [piecesFuel_congr (by simp) (Nat.le_refl _)]
  rfl

theorem pieces_ascii (ha : a.toNat < 0x80) (v : Bytes) :
    pieces (a :: v) = .char (Char.ofNat a.toNat) :: pieces v := by
  rw [pieces_cons, piece_ascii ha, drop_zero]

theorem pieces_continuation (hb : 0x80 ≤ b.toNat ∧ b.toNat ≤ 0xBF) (v : Bytes) :
    pieces (b :: v) = .invalid [b] :: pieces v := by
  have hn : tailLength b = none := by
    cases h : tailLength b with
    | none => rfl
    | some n =>
      have := tailLength_cases h
      omega
  have hpiece : piece b v = (.invalid [b], 0) := by
    unfold piece
    rw [hn]
  rw [pieces_cons, hpiece, drop_zero]

theorem pieces_induction {motive : Bytes → Prop} (nil : motive [])
    (cons : ∀ lead rest, motive (rest.drop (piece lead rest).2) → motive (lead :: rest))
    (bs : Bytes) : motive bs := by
  induction hlen : bs.length using Nat.strong_induction_on generalizing bs with
  | _ n ih =>
    cases bs with
    | nil => exact nil
    | cons lead rest =>
      refine cons lead rest (ih _ ?_ _ rfl)
      simp only [length_drop, ← hlen, length_cons]
      omega

theorem flatMap_bytes_pieces (bs : Bytes) : (pieces bs).flatMap Piece.bytes = bs := by
  induction bs using pieces_induction with
  | nil => rfl
  | cons lead rest ih => rw [pieces_cons, flatMap_cons, ih, bytes_piece]

theorem pieces_append_ascii (u : Bytes) (ha : a.toNat < 0x80) (v : Bytes) :
    pieces (u ++ a :: v) = pieces u ++ .char (Char.ofNat a.toNat) :: pieces v := by
  induction u using pieces_induction with
  | nil => exact pieces_ascii ha v
  | cons lead rest ih =>
    have hdrop := @List.drop_append_of_le_length _ _ (a :: v) _ (piece_drop_le lead rest)
    rw [cons_append, pieces_cons, piece_append lead rest ha v, hdrop, ih, pieces_cons, cons_append]

theorem invalid_of_mem {bs bad : Bytes} (h : .invalid bad ∈ pieces bs) : ∀ b ∈ bad, 0x80 ≤ b.toNat := by
  induction bs using pieces_induction with
  | nil => simp at h
  | cons lead rest ih =>
    rw [pieces_cons] at h
    rcases mem_cons.mp h with h | h
    · exact invalid_piece h.symm
    · exact ih h

theorem invalid_ne_nil {rest bad : Bytes} (h : (piece lead rest).1 = .invalid bad) : bad ≠ [] := by
  unfold piece at h
  split at h
  next =>
    cases h
    simp
  next =>
    dsimp only at h
    split at h
    next => cases h
    next =>
      cases h
      simp

theorem invalid_ne_nil_of_mem {bs bad : Bytes} (h : .invalid bad ∈ pieces bs) : bad ≠ [] := by
  induction bs using pieces_induction with
  | nil => simp at h
  | cons lead rest ih =>
    rw [pieces_cons] at h
    rcases mem_cons.mp h with h | h
    · exact invalid_ne_nil h.symm
    · exact ih h

theorem exists_of_pieces_eq_append {bs : Bytes} {ps qs : List Piece} (h : pieces bs = ps ++ qs) :
    ∃ rest, bs = ps.flatMap Piece.bytes ++ rest ∧ pieces rest = qs := by
  induction ps generalizing bs with
  | nil => exact ⟨bs, rfl, h⟩
  | cons p ps ih =>
    cases bs with
    | nil => simp at h
    | cons lead rest =>
      rw [pieces_cons, cons_append, List.cons.injEq] at h
      obtain ⟨more, hmore, hpieces⟩ := ih h.2
      refine ⟨more, ?_, hpieces⟩
      rw [flatMap_cons, ← h.1, append_assoc, ← hmore, bytes_piece]

theorem toNat_ofNat_small (h : n < 256) : (UInt8.ofNat n).toNat = n := by
  simp [UInt8.toNat_ofNat', Nat.mod_eq_of_lt h]

theorem ofNat_of_toNat {c : Char} (h : n = c.val.toNat) : Char.ofNat n = c := by
  rw [h]
  exact Char.ofNat_toNat c

theorem piece_full {tail : Bytes} (v : Bytes) {c : Char} (hn : tailLength lead = some tail.length)
    (htail : tailBytes tail.length (secondRange lead) (tail ++ v) = tail) (hc : codePoint lead tail = c.val.toNat) :
    piece lead (tail ++ v) = (.char c, tail.length) := by
  unfold piece
  rw [hn]
  dsimp only
  rw [htail, if_pos rfl, ofNat_of_toNat hc]

theorem tailLength_eq (h : (n = 0 ∧ lead.toNat < 0x80) ∨ (n = 1 ∧ 0xC2 ≤ lead.toNat ∧ lead.toNat ≤ 0xDF) ∨
      (n = 2 ∧ 0xE0 ≤ lead.toNat ∧ lead.toNat ≤ 0xEF) ∨
      (n = 3 ∧ 0xF0 ≤ lead.toNat ∧ lead.toNat ≤ 0xF4)) : tailLength lead = some n := by
  unfold tailLength
  simp only [UInt8.lt_iff_toNat_lt, UInt8.le_iff_toNat_le, Bool.and_eq_true, decide_eq_true_eq]
  simp only [UInt8.reduceToNat]
  obtain ⟨rfl, h0⟩ | ⟨rfl, h1⟩ | ⟨rfl, h2⟩ | ⟨rfl, h3⟩ := h
  · rw [if_pos h0]
  · rw [if_neg (by omega), if_pos (by omega)]
  · rw [if_neg (by omega), if_neg (by omega), if_pos (by omega)]
  · rw [if_neg (by omega), if_neg (by omega), if_neg (by omega), if_pos (by omega)]

theorem tailBytes_cons (hb : inRange range b = true)
    (rest : Bytes) : tailBytes (n + 1) range (b :: rest) = b :: tailBytes n (0x80, 0xBF) rest :=
  if_pos hb

theorem pieces_encode_append (c : Char) (v : Bytes) :
    pieces (String.utf8EncodeChar c ++ v) = .char c :: pieces v := by
  have hvalid := valid_toNat c
  have hread : ∀ lead tail, String.utf8EncodeChar c = lead :: tail →
      piece lead (tail ++ v) = (.char c, tail.length) →
      pieces (String.utf8EncodeChar c ++ v) = .char c :: pieces v := by
    intro lead tail hform hpiece
    rw [hform, cons_append, pieces_cons, hpiece]
    simp
  have hcont : ∀ m, inRange (0x80, 0xBF) (UInt8.ofNat (m % 64 + 128)) = true := by
    intro m
    rw [inRange_iff, toNat_ofNat_small (by omega)]
    simp
    omega
  have hform := String.utf8EncodeChar.eq_1 c
  split at hform
  next h1 =>
    clear hvalid
    refine hread _ _ hform (piece_full v (tailLength_eq ?_) rfl ?_)
    · rw [toNat_ofNat_small (by omega)]
      exact Or.inl ⟨rfl, by omega⟩
    · exact toNat_ofNat_small (by omega)
  next h1 =>
    split at hform
    next h2 =>
      clear hvalid
      refine hread _ _ hform (piece_full v (tailLength_eq ?_) ?_ ?_)
      · rw [toNat_ofNat_small (by omega)]
        exact Or.inr (Or.inl ⟨rfl, by omega, by omega⟩)
      · refine tailBytes_cons (n := 0) ?_ v
        rw [inRange_secondRange, toNat_ofNat_small (by omega), toNat_ofNat_small (by omega)]
        omega
      · show 64 * ((UInt8.ofNat _).toNat % 32) + (UInt8.ofNat _).toNat % 64 = _
        rw [toNat_ofNat_small (by omega), toNat_ofNat_small (by omega)]
        omega
    next h2 =>
      split at hform
      next h3 =>
        refine hread _ _ hform (piece_full v (tailLength_eq ?_) ?_ ?_)
        · rw [toNat_ofNat_small (by omega)]
          exact Or.inr (Or.inr (Or.inl ⟨rfl, by omega, by omega⟩))
        · refine (tailBytes_cons (n := 1) ?_ _).trans (congrArg _ (tailBytes_cons (n := 0) (hcont _) v))
          rw [inRange_secondRange, toNat_ofNat_small (by omega), toNat_ofNat_small (by omega)]
          omega
        · show 64 * (64 * ((UInt8.ofNat _).toNat % 16) + (UInt8.ofNat _).toNat % 64) +
            (UInt8.ofNat _).toNat % 64 = _
          rw [toNat_ofNat_small (by omega), toNat_ofNat_small (by omega), toNat_ofNat_small (by omega)]
          omega
      next h3 =>
        have hlast : c.val.toNat < 0x110000 := by omega
        clear hvalid
        refine hread _ _ hform (piece_full v (tailLength_eq ?_) ?_ ?_)
        · rw [toNat_ofNat_small (by omega)]
          exact Or.inr (Or.inr (Or.inr ⟨rfl, by omega, by omega⟩))
        · refine (tailBytes_cons (n := 2) ?_ _).trans (congrArg _ ((tailBytes_cons (n := 1)
            (hcont _) _).trans (congrArg _ (tailBytes_cons (n := 0) (hcont _) v))))
          rw [inRange_secondRange, toNat_ofNat_small (by omega), toNat_ofNat_small (by omega)]
          omega
        · show 64 * (64 * (64 * ((UInt8.ofNat _).toNat % 8) + (UInt8.ofNat _).toNat % 64) +
            (UInt8.ofNat _).toNat % 64) + (UInt8.ofNat _).toNat % 64 = _
          rw [toNat_ofNat_small (by omega), toNat_ofNat_small (by omega),
            toNat_ofNat_small (by omega), toNat_ofNat_small (by omega)]
          omega

theorem pieces_bytes_append (t : Text) (v : Bytes) : pieces (t.bytes ++ v) = t.map Piece.char ++ pieces v := by
  induction t with
  | nil => rfl
  | cons c t ih =>
    rw [Text.bytes, flatMap_cons, append_assoc, pieces_encode_append]
    exact congrArg _ ih

theorem pieces_bytes (t : Text) : pieces t.bytes = t.map Piece.char := by
  simpa using pieces_bytes_append t []

theorem decode_bytes (t : Text) : decode t.bytes = some t := by
  rw [decode, pieces_bytes]
  induction t with
  | nil => rfl
  | cons c t ih => simp [ih]

theorem bytes_of_decode {bs : Bytes} {t : Text} (h : decode bs = some t) : bs = t.bytes := by
  have hpieces : ∀ (ps : List Piece) (t : Text), ps.mapM (fun p => match p with
      | .char c => some c
      | .invalid _ => none) = some t → ps = t.map Piece.char := by
    intro ps
    induction ps with
    | nil =>
      intro t ht
      cases ht
      rfl
    | cons p ps ih =>
      intro t ht
      cases p with
      | invalid bad => simp at ht
      | char c =>
        obtain ⟨more, hmore, hout⟩ : ∃ more, ps.mapM (fun p => match p with
            | .char c => some c
            | .invalid _ => none) = some more ∧ c :: more = t := by
          simpa [Option.bind_eq_some_iff] using ht
        rw [← hout, map_cons, ih more hmore]
  rw [← flatMap_bytes_pieces bs, hpieces _ t h, flatMap_map]
  rfl

end Lsof.Basis.Utf8
