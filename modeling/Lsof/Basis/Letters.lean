import Lsof.Basis.Utf8

/-! # Bytes letter by letter

A byte string as its characters and, one by one, the bytes that are part of
none. Cut after any of them, it has the letters up to the cut.
-/

namespace Lsof.Basis.Utf8

open List

theorem forall_byte {P : UInt8 → Prop} (h : ∀ n < 256, P (UInt8.ofNat n)) (b : UInt8) : P b :=
  UInt8.ofNat_toNat (x := b) ▸ h b.toNat b.toNat_lt

inductive Letter where
  | char (c : Char)
  | byte (b : UInt8)
  deriving DecidableEq, Repr

def Letter.bytes : Letter → Bytes
  | .char c => String.utf8EncodeChar c
  | .byte b => [b]

def Piece.letters : Piece → List Letter
  | .char c => [.char c]
  | .invalid bad => bad.map Letter.byte

def letters (bs : Bytes) : List Letter := (pieces bs).flatMap Piece.letters

theorem letters_cons (lead : UInt8) (rest : Bytes) :
    letters (lead :: rest) = (piece lead rest).1.letters ++ letters (rest.drop (piece lead rest).2) := by
  rw [letters, pieces_cons, flatMap_cons]
  rfl

theorem Piece.flatMap_letters (p : Piece) : p.letters.flatMap Letter.bytes = p.bytes := by
  cases p with
  | char c => exact append_nil _
  | invalid bad =>
    show (bad.map Letter.byte).flatMap Letter.bytes = bad
    rw [flatMap_map]
    exact flatMap_singleton' bad

theorem flatMap_bytes_letters (bs : Bytes) : (letters bs).flatMap Letter.bytes = bs := by
  rw [letters, flatMap_assoc]
  simp only [Piece.flatMap_letters]
  exact flatMap_bytes_pieces bs

theorem bytes_take_append_drop (bs : Bytes) (k : Nat) :
    ((letters bs).take k).flatMap Letter.bytes ++ ((letters bs).drop k).flatMap Letter.bytes = bs := by
  rw [← flatMap_append, take_append_drop, flatMap_bytes_letters]

theorem drop_bytes_letters (bs : Bytes) (k : Nat) :
    bs.drop (((letters bs).take k).flatMap Letter.bytes).length = ((letters bs).drop k).flatMap Letter.bytes :=
  (congrArg (List.drop _) (bytes_take_append_drop bs k)).symm.trans (drop_left' rfl)

theorem length_bytes_take_le (bs : Bytes) (k : Nat) :
    (((letters bs).take k).flatMap Letter.bytes).length ≤ bs.length := by
  have hlen := congrArg List.length (bytes_take_append_drop bs k)
  rw [length_append] at hlen
  omega

variable {bs : Bytes}

theorem letters_of_decode {t : Text} (h : decode bs = some t) : letters bs = t.map Letter.char := by
  rw [bytes_of_decode h, letters, pieces_bytes, flatMap_map]
  exact flatMap_pure_eq_map _ _

theorem encode_not_ascii {c : Char} (hc : 0x80 ≤ c.toNat) :
    2 ≤ (String.utf8EncodeChar c).length ∧ ∀ b ∈ String.utf8EncodeChar c, 0x80 ≤ b.toNat := by
  have hval : c.val.toNat = c.toNat := rfl
  rw [String.utf8EncodeChar.eq_1, hval, if_neg (by omega)]
  split_ifs <;>
    simp only [length_cons, length_nil, forall_mem_cons, not_mem_nil, false_implies, implies_true, and_true]
  · rw [toNat_ofNat_small (by omega), toNat_ofNat_small (by omega)]
    omega
  · rw [toNat_ofNat_small (by omega), toNat_ofNat_small (by omega), toNat_ofNat_small (by omega)]
    omega
  · rw [toNat_ofNat_small (by omega), toNat_ofNat_small (by omega), toNat_ofNat_small (by omega),
      toNat_ofNat_small (by omega)]
    omega

theorem byte_of_mem_letters {b : UInt8} (h : .byte b ∈ letters bs) : 0x80 ≤ b.toNat := by
  obtain ⟨p, hp, hb⟩ := mem_flatMap.mp h
  cases p with
  | char c => exact absurd (mem_singleton.mp hb) Letter.noConfusion
  | invalid bad =>
    obtain ⟨byte, hbyte, heq⟩ := mem_map.mp hb
    rw [← Letter.byte.inj heq]
    exact invalid_of_mem hp byte hbyte

theorem tailBytes_take (n m : Nat) (range : UInt8 × UInt8) (rest : Bytes) :
    tailBytes n range (rest.take m) = (tailBytes n range rest).take m := by
  induction n generalizing m range rest with
  | zero => exact take_nil.symm
  | succ n ih =>
    cases m with
    | zero => rfl
    | succ m =>
      cases rest with
      | nil => rfl
      | cons b rest =>
        rw [take_succ_cons, tailBytes, tailBytes]
        split
        next => rw [ih, take_succ_cons]
        next => exact take_nil.symm

theorem piece_take {lead : UInt8} {rest : Bytes} {m : Nat} (h : (piece lead rest).2 ≤ m) :
    piece lead (rest.take m) = piece lead rest := by
  unfold piece at h ⊢
  cases hn : tailLength lead with
  | none => rfl
  | some n =>
    rw [hn] at h
    have hle := length_tailBytes_le n (secondRange lead) rest
    dsimp only at h ⊢
    have htake : (tailBytes n (secondRange lead) rest).take m = tailBytes n (secondRange lead) rest := by
      refine take_of_length_le ?_
      split at h
      · exact Nat.le_trans hle h
      · exact h
    rw [tailBytes_take, htake]

theorem letters_take_invalid {lead : UInt8} {rest bad : Bytes} (h : (piece lead rest).1 = .invalid bad)
    {m : Nat} (hm : m < bad.length) : letters (bad.take m) = (bad.take m).map Letter.byte := by
  cases m with
  | zero => rfl
  | succ m =>
    unfold piece at h
    cases hn : tailLength lead with
    | none =>
      rw [hn] at h
      cases h
      simp at hm
    | some n =>
      rw [hn] at h
      dsimp only at h
      split at h
      next => cases h
      next hpart =>
        cases h
        have htail : (tailBytes n (secondRange lead) rest).take m = rest.take m := by
          have hrest := tailBytes_append_drop n (secondRange lead) rest
          conv_rhs => rw [← hrest]
          rw [take_append_of_le_length]
          simp only [length_cons] at hm
          omega
        have hpiece : piece lead ((tailBytes n (secondRange lead) rest).take m) =
            (.invalid (lead :: (tailBytes n (secondRange lead) rest).take m), m) := by
          have hlen : ((tailBytes n (secondRange lead) rest).take m).length = m := by
            simp only [length_cons] at hm
            rw [length_take]
            omega
          have hle := length_tailBytes_le n (secondRange lead) rest
          simp only [length_cons] at hm
          unfold piece
          rw [hn]
          dsimp only
          rw [htail, tailBytes_take, if_neg, ← htail, hlen]
          rw [hlen]
          omega
        rw [take_succ_cons, letters_cons, hpiece]
        dsimp only
        rw [drop_of_length_le (length_take_le _ _)]
        exact append_nil _

theorem bytes_piece_take (lead : UInt8) (rest : Bytes) :
    (piece lead rest).1.bytes = lead :: rest.take (piece lead rest).2 := by
  have hbytes := bytes_piece lead rest
  conv_rhs at hbytes => rw [← take_append_drop (piece lead rest).2 rest]
  exact append_cancel_right hbytes

theorem letters_piece_append {lead : UInt8} {rest : Bytes} {us vs : List Letter}
    (h : letters (rest.drop (piece lead rest).2) = us ++ vs) (hus : letters (us.flatMap Letter.bytes) = us) :
    letters (((piece lead rest).1.letters ++ us).flatMap Letter.bytes) = (piece lead rest).1.letters ++ us := by
  have hbytes : rest.drop (piece lead rest).2 = us.flatMap Letter.bytes ++ vs.flatMap Letter.bytes := by
    rw [← flatMap_append, ← h, flatMap_bytes_letters]
  have hcut : ((piece lead rest).1.letters ++ us).flatMap Letter.bytes =
      lead :: rest.take ((piece lead rest).2 + (us.flatMap Letter.bytes).length) := by
    rw [flatMap_append, Piece.flatMap_letters, bytes_piece_take, take_add, hbytes, take_left' rfl]
    rfl
  rw [hcut, letters_cons, piece_take (Nat.le_add_right _ _), drop_take, Nat.add_sub_cancel_left, hbytes,
    take_left' rfl, hus]

theorem letters_of_append {us vs : List Letter} (h : letters bs = us ++ vs) :
    letters (us.flatMap Letter.bytes) = us := by
  induction bs using pieces_induction generalizing us vs with
  | nil =>
    rw [(append_eq_nil_iff.mp h.symm).1]
    rfl
  | cons lead rest ih =>
    rw [letters_cons, append_eq_append_iff] at h
    rcases h with ⟨more, rfl, hrest⟩ | ⟨more, hfirst, -⟩
    · exact letters_piece_append hrest (ih hrest)
    · -- the cut falls inside the first piece, or right after it
      have hwhole := @letters_piece_append lead rest [] _ rfl rfl
      rw [append_nil] at hwhole
      cases hp : (piece lead rest).1 with
      | char c =>
        rw [hp] at hfirst
        cases us with
        | nil => rfl
        | cons u us =>
          obtain ⟨rfl, hnil⟩ := List.cons.inj hfirst
          rw [(append_eq_nil_iff.mp hnil.symm).1]
          exact letters_of_decode (decode_bytes [c])
      | invalid bad =>
        rw [hp] at hfirst hwhole
        cases more with
        | nil =>
          rw [append_nil] at hfirst
          rw [← hfirst]
          exact hwhole
        | cons u more =>
          have hlen := congrArg List.length hfirst
          simp only [Piece.letters, length_map, length_append, length_cons] at hlen
          have hus : us = (bad.take us.length).map Letter.byte := by
            rw [map_take]
            exact (take_left' rfl).symm.trans (congrArg _ hfirst.symm)
          have hletters := letters_take_invalid hp (m := us.length) (by omega)
          have hbytes : us.flatMap Letter.bytes = bad.take us.length := by
            conv_lhs => rw [hus]
            exact Piece.flatMap_letters (.invalid _)
          rw [hbytes, hletters, ← hus]

end Lsof.Basis.Utf8
