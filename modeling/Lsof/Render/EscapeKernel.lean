import Lsof.Basis.Utf8
import Lsof.Core.Escape

/-! # What escaping loses

A printed byte string is read back by `unprint`, up to the spelling of the
controls that print with a caret: a control and a caret with a letter print the
same. One control is an exception. `0x1C` prints as a caret and a backslash,
and a backslash in the output otherwise starts an escape, so that a string with
a caret before an escape prints as another one with this control.
-/

namespace Lsof.Render

open Lsof.Basis Lsof.Core List

/-! ## Printed pieces -/

def unixStyle : Escaper := { backslash := true }

def printPiece (esc : Escaper) (mode : EscapeMode) : Utf8.Piece → Text
  | .char c => esc.push mode c
  | .invalid bad => bad.flatMap pushHex

theorem bytes_eq_flatMap (esc : Escaper) (b : Bytes) :
    esc.bytes b = (Utf8.pieces b).flatMap (printPiece esc .text) := by
  unfold Escaper.bytes
  split
  next s hs =>
    rw [Utf8.bytes_of_decode hs, Utf8.pieces_bytes, Escaper.text, Escaper.escape_eq_flatMap, flatMap_map]
    rfl
  next =>
    congr 1

/-! ## Characters by the form they print in -/

/-- The letter of a control that prints as a backslash and a letter. -/
def letterOf (n : Nat) : Option Char :=
  if n = 0x08 then some 'b'
  else if n = 0x0C then some 'f'
  else if n = 0x0A then some 'n'
  else if n = 0x0D then some 'r'
  else if n = 0x09 then some 't'
  else none

/-- Printed byte by byte in hexadecimal: DEL and what is unprintable beyond ASCII. -/
def isHexed (c : Char) : Bool :=
  c.toNat == 0x7F || (decide (0x80 ≤ c.toNat) && isUnprintableUnicode c)

theorem char_ext {c d : Char} (h : c.toNat = d.toNat) : c = d := by
  rw [← Char.ofNat_toNat c, h, Char.ofNat_toNat]

/-- The five forms a character prints in. -/
inductive Form (c : Char) : Text → Prop
  | plain (hctl : 0x20 ≤ c.toNat) (hne : c ≠ '\\') (hhex : isHexed c = false) : Form c [c]
  | doubled (h : c = '\\') : Form c ['\\', '\\']
  | letter (l : Char) (h : letterOf c.toNat = some l) : Form c ['\\', l]
  | caret (hctl : c.toNat < 0x20) (h : letterOf c.toNat = none) :
      Form c ['^', Char.ofNat (c.toNat + 0x40)]
  | hexed (h : isHexed c = true) : Form c ((String.utf8EncodeChar c).flatMap pushHex)

variable {c : Char}

theorem push_control (hctl : c.toNat < 0x20) :
    unixStyle.push .text c = match letterOf c.toNat with
      | some l => ['\\', l]
      | none => ['^', Char.ofNat (c.toNat + 0x40)] := by
  have hb : c ≠ '\\' := fun h => by simp [h] at hctl
  have hw : unixStyle.escapedWidth .text c = 2 := by
    unfold Escaper.escapedWidth
    rw [if_neg (fun h => hb h.1), if_neg (fun h => h.2 rfl), if_pos hctl]
  have hnl : c = '\n' ↔ c.toNat = 0x0A := ⟨fun h => h ▸ rfl, fun h => char_ext h⟩
  have hcr : c = '\r' ↔ c.toNat = 0x0D := ⟨fun h => h ▸ rfl, fun h => char_ext h⟩
  have htab : c = '\t' ↔ c.toNat = 0x09 := ⟨fun h => h ▸ rfl, fun h => char_ext h⟩
  unfold Escaper.push letterOf
  rw [hw, if_neg (by decide)]
  simp only [hnl, hcr, htab, hb, if_false, hctl, if_true]
  split_ifs <;> rfl

theorem push_hexed (h : isHexed c = true) : unixStyle.push .text c = (String.utf8EncodeChar c).flatMap pushHex := by
  have hbig : 0x7F ≤ c.toNat := by
    simp only [isHexed, Bool.or_eq_true, beq_iff_eq, Bool.and_eq_true, decide_eq_true_eq] at h
    omega
  have hb : c ≠ '\\' := fun h => by simp [h] at hbig
  have hw : unixStyle.escapedWidth .text c = 4 * c.utf8Size := by
    unfold Escaper.escapedWidth
    simp only [isHexed, Bool.or_eq_true, beq_iff_eq, Bool.and_eq_true, decide_eq_true_eq] at h
    rw [if_neg (fun h => hb h.1), if_neg (fun h => h.2 rfl), if_neg (by omega), if_neg (by omega),
      if_pos (h.imp_right fun h => Or.inr h.2)]
  have hne : ∀ d : Char, d.toNat < 0x7F → c ≠ d := fun d hd hcd => by
    rw [hcd] at hbig
    omega
  unfold Escaper.push
  rw [hw, if_neg (by omega), if_neg (by omega), if_neg (by omega), if_neg (hne _ (by decide)),
    if_neg (hne _ (by decide)), if_neg (hne _ (by decide)), if_neg hb, if_neg (by omega)]

theorem push_plain (hctl : 0x20 ≤ c.toNat) (hne : c ≠ '\\') (h : isHexed c = false) :
    unixStyle.push .text c = [c] := by
  have hw : unixStyle.escapedWidth .text c = 1 := by
    simp only [isHexed, Bool.or_eq_false_iff, beq_eq_false_iff_ne, Bool.and_eq_false_iff,
      decide_eq_false_iff_not] at h
    unfold Escaper.escapedWidth
    rw [if_neg (fun h => hne h.1), if_neg (fun h => h.2 rfl), if_neg (by omega)]
    by_cases hascii : c.toNat < 0x80
    · rw [if_pos ⟨hascii, h.1⟩]
    · have hprint : isUnprintableUnicode c = false := h.2.resolve_left (by omega)
      rw [if_neg (fun h => hascii h.1), if_neg]
      simp [h.1, hprint]
  rw [Escaper.push, if_pos hw]

theorem push_form (c : Char) : Form c (unixStyle.push .text c) := by
  by_cases hctl : c.toNat < 0x20
  · rw [push_control hctl]
    cases hl : letterOf c.toNat with
    | some l => exact Form.letter l hl
    | none => exact Form.caret hctl hl
  · by_cases hb : c = '\\'
    · rw [hb]
      exact Form.doubled rfl
    · cases hh : isHexed c with
      | true =>
        rw [push_hexed hh]
        exact Form.hexed hh
      | false =>
        rw [push_plain (by omega) hb hh]
        exact Form.plain (by omega) hb hh

/-! ## Swapping the two spellings of a control -/

def isCaret (b : UInt8) : Bool := decide (b.toNat < 0x20) && (letterOf b.toNat).isNone

/-- One control traded for the caret and the letter it prints as. -/
inductive Swap : Bytes → Bytes → Prop
  | spell (u v : Bytes) (b : UInt8) (h : isCaret b = true) :
      Swap (u ++ b :: v) (u ++ 0x5E :: (b + 0x40) :: v)

def Swaps : Bytes → Bytes → Prop := Relation.EqvGen Swap

def expandByte (b : UInt8) : Bytes := if isCaret b then [0x5E, b + 0x40] else [b]

def expand (bs : Bytes) : Bytes := bs.flatMap expandByte

variable {b : UInt8}

theorem expandByte_of_ge (h : 0x20 ≤ b.toNat) : expandByte b = [b] := by
  have hno : ¬ isCaret b = true := by
    simp only [isCaret, Bool.and_eq_true, decide_eq_true_eq]
    omega
  exact if_neg hno

theorem toNat_add_of_caret (h : isCaret b = true) : (b + 0x40).toNat = b.toNat + 0x40 := by
  simp only [isCaret, Bool.and_eq_true, decide_eq_true_eq] at h
  rw [UInt8.toNat_add]
  simp
  omega

theorem expand_spell (h : isCaret b = true) (v : Bytes) : expand (0x5E :: (b + 0x40) :: v) = expand (b :: v) := by
  have hletter := toNat_add_of_caret h
  have hspelt : expandByte (b + 0x40) = [b + 0x40] := expandByte_of_ge (by omega)
  have hcaret : expandByte 0x5E = [0x5E] := rfl
  have hb : expandByte b = [0x5E, b + 0x40] := if_pos h
  simp only [expand, flatMap_cons, hspelt, hcaret, hb]
  rfl

theorem expand_append (u v : Bytes) : expand (u ++ v) = expand u ++ expand v := by
  simp [expand]

theorem Swaps.cons (x : UInt8) {a b : Bytes} (h : Swaps a b) : Swaps (x :: a) (x :: b) := by
  induction h with
  | rel a b hab =>
    cases hab with
    | spell u v c hc => exact Relation.EqvGen.rel _ _ (Swap.spell (x :: u) v c hc)
  | refl a => exact Relation.EqvGen.refl _
  | symm a b _ ih => exact Relation.EqvGen.symm _ _ ih
  | trans a b c _ _ ih ih' => exact Relation.EqvGen.trans _ _ _ ih ih'

theorem swaps_expand (a : Bytes) : Swaps a (expand a) := by
  induction a with
  | nil => exact Relation.EqvGen.refl _
  | cons b a ih =>
    have hcons : expand (b :: a) = expandByte b ++ expand a := flatMap_cons
    rw [hcons, expandByte]
    split
    next hb =>
      refine Relation.EqvGen.trans _ _ _ (ih.cons b) ?_
      exact Relation.EqvGen.rel _ _ (Swap.spell [] (expand a) b hb)
    next => exact ih.cons b

theorem swaps_iff (a b : Bytes) : Swaps a b ↔ expand a = expand b := by
  constructor
  · intro h
    induction h with
    | rel a b hab =>
      cases hab with
      | spell u v c hc => rw [expand_append, expand_append, expand_spell hc]
    | refl a => rfl
    | symm a b _ ih => exact ih.symm
    | trans a b c _ _ ih ih' => exact ih.trans ih'
  · intro h
    refine Relation.EqvGen.trans _ _ _ (swaps_expand a) ?_
    rw [h]
    exact Relation.EqvGen.symm _ _ (swaps_expand b)

/-! ## Where a caret meets an escape -/

def endsCaret : Utf8.Piece → Bool
  | .char c => c == '^' || c.toNat == 0x1E
  | .invalid _ => false

def backslashed : Utf8.Piece → Bool
  | .char c => c == '\\' || (letterOf c.toNat).isSome || isHexed c
  | .invalid _ => true

/-- No control that prints as a caret and a backslash, and nothing that ends in
a caret directly before something that starts with a backslash. -/
def CaretClear (a : Bytes) : Prop :=
  0x1C ∉ a ∧ (Utf8.pieces a).IsChain (fun p q => ¬ (endsCaret p = true ∧ backslashed q = true))

def NoClash (t : Text) : Prop := t.IsChain (fun x y => ¬ (x = '^' ∧ y = '\\'))

theorem noClash_of_not_mem {t : Text} (h : '^' ∉ t) : NoClash t := by
  unfold NoClash
  rw [isChain_iff_forall_rel_of_append_cons_cons]
  intro x y u v ht hxy
  exact h (by simp [ht, hxy.1])

theorem hexDigit_mem (n : Nat) : hexDigit n ∈ "0123456789abcdef".toList := by
  unfold hexDigit
  rw [getD_eq_getElem?_getD]
  cases hn : ("0123456789abcdef".toList)[n]? with
  | none => decide
  | some c => exact mem_of_getElem? hn

theorem hexDigit_ne (n : Nat) : hexDigit n ≠ '^' ∧ hexDigit n ≠ '\\' := by
  have h : "0123456789abcdef".toList.all (fun c => decide (c ≠ '^' ∧ c ≠ '\\')) = true := by decide
  exact of_decide_eq_true (all_eq_true.mp h _ (hexDigit_mem n))

theorem not_mem_hexes (bs : Bytes) : '^' ∉ bs.flatMap pushHex := by
  intro h
  obtain ⟨b, -, hb⟩ := mem_flatMap.mp h
  simp only [pushHex, mem_cons, not_mem_nil, or_false] at hb
  rcases hb with hb | hb | hb | hb
  · exact absurd hb (by decide)
  · exact absurd hb (by decide)
  · exact (hexDigit_ne _).1 hb.symm
  · exact (hexDigit_ne _).1 hb.symm

theorem hexes_head {bs : Bytes} (h : bs ≠ []) : (bs.flatMap pushHex).head? = some '\\' := by
  cases bs with
  | nil => exact absurd rfl h
  | cons b bs => rfl

theorem letterOf_cases {n : Nat} {l : Char} (h : letterOf n = some l) :
    (n = 0x08 ∧ l = 'b') ∨ (n = 0x0C ∧ l = 'f') ∨ (n = 0x0A ∧ l = 'n') ∨ (n = 0x0D ∧ l = 'r') ∨
      (n = 0x09 ∧ l = 't') := by
  unfold letterOf at h
  split_ifs at h <;> cases h <;> simp_all

theorem letterOf_of_ge {n : Nat} (h : 0x20 ≤ n) : letterOf n = none := by
  unfold letterOf
  rw [if_neg (by omega), if_neg (by omega), if_neg (by omega), if_neg (by omega), if_neg (by omega)]

theorem ge_of_isHexed (h : isHexed c = true) : 0x7F ≤ c.toNat := by
  simp only [isHexed, Bool.or_eq_true, beq_iff_eq, Bool.and_eq_true, decide_eq_true_eq] at h
  omega

theorem isHexed_of_lt (h : c.toNat < 0x7F) : isHexed c = false := by
  rw [Bool.eq_false_iff]
  intro hh
  have := ge_of_isHexed hh
  omega

theorem toNat_caretLetter (h : c.toNat < 0x20) : (Char.ofNat (c.toNat + 0x40)).toNat = c.toNat + 0x40 :=
  Utf8.toNat_ofNat_of_valid (Or.inl (by omega))

/-- How the printed form of a piece starts and ends, and what is inside it. -/
structure Shape (p : Utf8.Piece) (t : Text) : Prop where
  ne_nil : t ≠ []
  clash : NoClash t ↔ p ≠ .char (Char.ofNat 0x1C)
  last : t.getLast? = some '^' ↔ endsCaret p = true
  head : t.head? = some '\\' ↔ backslashed p = true

theorem encode_ne_nil (c : Char) : String.utf8EncodeChar c ≠ [] := by
  have hlen := String.length_utf8EncodeChar c
  have hpos := Char.utf8Size_pos c
  intro h
  rw [h, length_nil] at hlen
  omega

theorem getLast?_ne_of_not_mem {t : Text} {x : Char} (h : x ∉ t) : t.getLast? ≠ some x :=
  fun hlast => h (mem_of_getLast? hlast)

theorem shape_invalid {bad : Bytes} (h : bad ≠ []) : Shape (.invalid bad) (bad.flatMap pushHex) where
  ne_nil := fun hnil => by simpa [hnil] using hexes_head h
  clash := by simpa using noClash_of_not_mem (not_mem_hexes bad)
  last := by simpa [endsCaret] using getLast?_ne_of_not_mem (not_mem_hexes bad)
  head := by simp [hexes_head h, backslashed]

theorem shape_char (c : Char) : Shape (.char c) (unixStyle.push .text c) := by
  have hne : ∀ d : Char, c ≠ d ↔ c.toNat ≠ d.toNat := fun d => not_congr ⟨fun h => h ▸ rfl, char_ext⟩
  have hfs : (Char.ofNat 0x1C).toNat = 0x1C := rfl
  have hform := push_form c
  generalize unixStyle.push .text c = t at hform ⊢
  cases hform with
  | plain hctl hbs hhex =>
    refine ⟨by simp, ?_, ?_, ?_⟩
    · simp only [NoClash, isChain_singleton, true_iff, ne_eq, Utf8.Piece.char.injEq]
      exact (hne _).mpr (by omega)
    · have hrs : c.toNat ≠ 0x1E := by omega
      simp [endsCaret, hrs]
    · simp [backslashed, hbs, letterOf_of_ge hctl, hhex]
  | doubled h =>
    subst h
    refine ⟨by simp, ?_, by decide, by decide⟩
    simp [NoClash]
  | letter l h =>
    have hl := letterOf_cases h
    have hcaret : l ≠ '^' := by
      rcases hl with hl | hl | hl | hl | hl <;> simp [hl.2]
    have hcontrol : c.toNat < 0x0E := by omega
    refine ⟨by simp, ?_, ?_, ?_⟩
    · simp only [NoClash, isChain_pair, ne_eq, Utf8.Piece.char.injEq]
      exact ⟨fun _ => (hne _).mpr (by omega), fun _ h => absurd h.1 (by decide)⟩
    · have hc : c ≠ '^' := (hne _).mpr (by simp; omega)
      have hrs : c.toNat ≠ 0x1E := by omega
      simp [endsCaret, hcaret, hc, hrs]
    · simp [backslashed, h]
  | caret hctl h =>
    have hx := toNat_caretLetter hctl
    have hletter : ∀ d : Char, Char.ofNat (c.toNat + 0x40) = d ↔ c.toNat + 0x40 = d.toNat := by
      intro d
      constructor
      · intro hd
        rw [← hd, hx]
      · intro hd
        exact char_ext (hx.trans hd)
    refine ⟨by simp, ?_, ?_, ?_⟩
    · simp only [NoClash, isChain_pair, ne_eq, Utf8.Piece.char.injEq, true_and]
      rw [hletter, ← ne_eq, ← ne_eq, hne, hfs]
      simp
    · have hc : c ≠ '^' := (hne _).mpr (by simp; omega)
      simp [endsCaret, hletter, hc]
    · have hc : c ≠ '\\' := (hne _).mpr (by simp; omega)
      simp [backslashed, hc, h, isHexed_of_lt (by omega : c.toNat < 0x7F)]
  | hexed h =>
    have hbig := ge_of_isHexed h
    refine ⟨fun hnil => ?_, ?_, ?_, ?_⟩
    · simpa [hnil] using hexes_head (encode_ne_nil c)
    · have hc : c ≠ Char.ofNat 0x1C := (hne _).mpr (by omega)
      simpa [hc] using noClash_of_not_mem (not_mem_hexes (String.utf8EncodeChar c))
    · have hc : c ≠ '^' := (hne _).mpr (by simp; omega)
      have hrs : c.toNat ≠ 0x1E := by omega
      simpa [endsCaret, hc, hrs] using
        getLast?_ne_of_not_mem (not_mem_hexes (String.utf8EncodeChar c))
    · simp [hexes_head (encode_ne_nil c), backslashed, h]

variable {a : Bytes}

theorem shape_of_mem {p : Utf8.Piece} (hp : p ∈ Utf8.pieces a) : Shape p (printPiece unixStyle .text p) := by
  cases p with
  | char c => exact shape_char c
  | invalid bad => exact shape_invalid (Utf8.invalid_ne_nil_of_mem hp)

theorem bytes_append_ascii (u : Bytes) (hb : b.toNat < 0x80) (v : Bytes) :
    unixStyle.bytes (u ++ b :: v) =
      unixStyle.bytes u ++ (unixStyle.push .text (Char.ofNat b.toNat) ++ unixStyle.bytes v) := by
  rw [bytes_eq_flatMap, bytes_eq_flatMap, bytes_eq_flatMap, Utf8.pieces_append_ascii u hb,
    flatMap_append, flatMap_cons]
  rfl

theorem fs_mem_pieces (a : Bytes) : .char (Char.ofNat 0x1C) ∈ Utf8.pieces a ↔ (0x1C : UInt8) ∈ a := by
  constructor
  · intro h
    rw [← Utf8.flatMap_bytes_pieces a]
    exact mem_flatMap.mpr ⟨_, h, by decide⟩
  · intro h
    obtain ⟨u, v, rfl⟩ := append_of_mem h
    rw [Utf8.pieces_append_ascii u (by decide)]
    exact mem_append_right _ (mem_cons_self ..)

theorem caretClear_iff (a : Bytes) : CaretClear a ↔ NoClash (unixStyle.bytes a) := by
  have hne : [] ∉ (Utf8.pieces a).map (printPiece unixStyle .text) := by
    intro h
    obtain ⟨p, hp, hnil⟩ := mem_map.mp h
    exact (shape_of_mem hp).ne_nil hnil
  rw [bytes_eq_flatMap, NoClash, flatMap_def, isChain_flatten hne, isChain_map, CaretClear]
  refine and_congr ?_ ?_
  · rw [← fs_mem_pieces]
    constructor
    · intro h t ht
      obtain ⟨p, hp, rfl⟩ := mem_map.mp ht
      exact (shape_of_mem hp).clash.mpr fun hfs => h (hfs ▸ hp)
    · intro h hfs
      exact (shape_of_mem hfs).clash.mp (h _ (mem_map_of_mem hfs)) rfl
  · rw [isChain_iff_forall_rel_of_append_cons_cons, isChain_iff_forall_rel_of_append_cons_cons]
    refine forall₄_congr fun p q ps qs => forall_congr' fun hsplit => ?_
    have hp := shape_of_mem (a := a) (p := p) (by simp [hsplit])
    have hq := shape_of_mem (a := a) (p := q) (by simp [hsplit])
    rw [← hp.last, ← hq.head]
    constructor
    · intro h x hx y hy hxy
      exact h ⟨hxy.1 ▸ hx, hxy.2 ▸ hy⟩
    · intro h hboth
      exact h _ hboth.1 _ hboth.2 ⟨rfl, rfl⟩

/-! ## Reading printed text back -/

def hexValue (c : Char) : Nat := if c.toNat < 0x3A then c.toNat - 0x30 else c.toNat - 0x57

/-- The byte a backslash and a letter stand for. -/
def unletter (c : Char) : UInt8 :=
  if c = 'b' then 0x08
  else if c = 'f' then 0x0C
  else if c = 'n' then 0x0A
  else if c = 'r' then 0x0D
  else if c = 't' then 0x09
  else 0x5C

/-- The bytes of printed text in which every backslash starts an escape. -/
def unprint : Text → Bytes
  | '\\' :: 'x' :: h :: l :: t => UInt8.ofNat (16 * hexValue h + hexValue l) :: unprint t
  | '\\' :: c :: t => unletter c :: unprint t
  | c :: t => String.utf8EncodeChar c ++ unprint t
  | [] => []

theorem unprint_plain (h : c ≠ '\\') (t : Text) : unprint (c :: t) = String.utf8EncodeChar c ++ unprint t := by
  rw [unprint]
  · rintro _ _ _ rfl
    exact absurd rfl h
  · rintro _ _ rfl
    exact absurd rfl h

theorem unprint_letter (h : c ≠ 'x') (t : Text) : unprint ('\\' :: c :: t) = unletter c :: unprint t := by
  rw [unprint]
  intro _ _ _ hx
  exact absurd hx h

theorem hexValue_hexDigit {n : Nat} (h : n < 16) : hexValue (hexDigit n) = n := by
  have hall : ∀ n ∈ List.range 16, hexValue (hexDigit n) = n := by decide
  exact hall n (mem_range.mpr h)

theorem unprint_pushHex (b : UInt8) (t : Text) : unprint (pushHex b ++ t) = b :: unprint t := by
  have hb : b.toNat < 256 := b.toNat_lt
  show UInt8.ofNat (16 * hexValue _ + hexValue _) :: unprint t = _
  rw [hexValue_hexDigit (by omega), hexValue_hexDigit (by omega), Utf8.ofNat_eq (b := b) (by omega)]

theorem unprint_hexes (bs : Bytes) (t : Text) : unprint (bs.flatMap pushHex ++ t) = bs ++ unprint t := by
  induction bs with
  | nil => rfl
  | cons b bs ih => rw [flatMap_cons, append_assoc, unprint_pushHex, ih, cons_append]

theorem expand_of_ge {bs : Bytes} (h : ∀ b ∈ bs, 0x20 ≤ b.toNat) : expand bs = bs := by
  induction bs with
  | nil => rfl
  | cons b bs ih =>
    have hcons : expand (b :: bs) = expandByte b ++ expand bs := flatMap_cons
    rw [hcons, expandByte_of_ge (h b (mem_cons_self ..)), ih fun x hx => h x (mem_cons_of_mem b hx)]
    rfl

theorem encode_ge (hc : 0x20 ≤ c.toNat) : ∀ b ∈ String.utf8EncodeChar c, 0x20 ≤ b.toNat := by
  have hval : c.val.toNat = c.toNat := rfl
  intro b hb
  rw [String.utf8EncodeChar.eq_1, hval] at hb
  split_ifs at hb <;> simp only [mem_cons, not_mem_nil, or_false] at hb
  · rw [hb, Utf8.toNat_ofNat_small (by omega)]
    exact hc
  · rcases hb with hb | hb <;> rw [hb, Utf8.toNat_ofNat_small (by omega)] <;> omega
  · rcases hb with hb | hb | hb <;> rw [hb, Utf8.toNat_ofNat_small (by omega)] <;> omega
  · rcases hb with hb | hb | hb | hb <;> rw [hb, Utf8.toNat_ofNat_small (by omega)] <;> omega

theorem unprint_caret (hctl : c.toNat < 0x20) (h : letterOf c.toNat = none) (hfs : c.toNat ≠ 0x1C) (t : Text) :
    unprint ('^' :: Char.ofNat (c.toNat + 0x40) :: t) = expand (String.utf8EncodeChar c) ++ unprint t := by
  have hx := toNat_caretLetter hctl
  have hbyte : (UInt8.ofNat c.toNat).toNat = c.toNat := Utf8.toNat_ofNat_small (by omega)
  have hcaret : isCaret (UInt8.ofNat c.toNat) = true := by
    simp [isCaret, hbyte, hctl, h]
  have hsum : UInt8.ofNat c.toNat + 0x40 = UInt8.ofNat (c.toNat + 0x40) := by
    rw [← UInt8.toNat_inj, toNat_add_of_caret hcaret, hbyte, Utf8.toNat_ofNat_small (by omega)]
  have hne : Char.ofNat (c.toNat + 0x40) ≠ '\\' := fun heq => by
    rw [heq] at hx
    simp at hx
    omega
  have hletter : String.utf8EncodeChar (Char.ofNat (c.toNat + 0x40)) =
      [UInt8.ofNat c.toNat + 0x40] := by
    rw [Utf8.encode_ascii (by omega), hx, hsum]
  have hspelt : expand (String.utf8EncodeChar c) = [0x5E, UInt8.ofNat c.toNat + 0x40] := by
    rw [Utf8.encode_ascii (by omega)]
    simp [expand, expandByte, hcaret]
  rw [unprint_plain (by decide), unprint_plain hne, hletter, hspelt]
  rfl

theorem unprint_push (hfs : c.toNat ≠ 0x1C) (t : Text) :
    unprint (unixStyle.push .text c ++ t) = expand (String.utf8EncodeChar c) ++ unprint t := by
  have hform := push_form c
  generalize unixStyle.push .text c = s at hform ⊢
  cases hform with
  | plain hctl hbs hhex => exact (unprint_plain hbs t).trans (by rw [expand_of_ge (encode_ge hctl)])
  | doubled h =>
    subst h
    rfl
  | letter l h =>
    rcases letterOf_cases h with ⟨hn, hl⟩ | ⟨hn, hl⟩ | ⟨hn, hl⟩ | ⟨hn, hl⟩ | ⟨hn, hl⟩
    all_goals
      have hc : c = Char.ofNat c.toNat := (Char.ofNat_toNat c).symm
      rw [hn] at hc
      rw [hc, hl]
      exact unprint_letter (by decide) t
  | caret hctl h => exact unprint_caret hctl h hfs t
  | hexed h =>
    have hbig := ge_of_isHexed h
    rw [unprint_hexes, expand_of_ge (encode_ge (by omega))]

theorem unprint_pieces {ps : List Utf8.Piece} (hfs : .char (Char.ofNat 0x1C) ∉ ps)
    (hbad : ∀ bad, .invalid bad ∈ ps → ∀ b ∈ bad, 0x80 ≤ b.toNat) :
    unprint (ps.flatMap (printPiece unixStyle .text)) = expand (ps.flatMap Utf8.Piece.bytes) := by
  induction ps with
  | nil => rfl
  | cons p ps ih =>
    have hrest := ih (fun h => hfs (mem_cons_of_mem p h))
      fun bad h => hbad bad (mem_cons_of_mem p h)
    rw [flatMap_cons, flatMap_cons, expand_append, ← hrest]
    cases p with
    | char c =>
      refine unprint_push (fun hc => hfs ?_) _
      rw [← Char.ofNat_toNat c, hc]
      exact mem_cons_self ..
    | invalid bad =>
      have hbytes := hbad bad (mem_cons_self ..)
      have hge : ∀ b ∈ bad, 0x20 ≤ b.toNat := fun b hb => by
        have := hbytes b hb
        omega
      show unprint (bad.flatMap pushHex ++ _) = expand bad ++ _
      rw [unprint_hexes, expand_of_ge hge]

theorem unprint_bytes (h : (0x1C : UInt8) ∉ a) : unprint (unixStyle.bytes a) = expand a := by
  rw [bytes_eq_flatMap, unprint_pieces (mt (fs_mem_pieces a).mp h)
    (fun _ => Utf8.invalid_of_mem), Utf8.flatMap_bytes_pieces]

/-! ## Swaps that change nothing -/

theorem push_caretByte (hb : isCaret b = true) :
    unixStyle.push .text (Char.ofNat b.toNat) = ['^', Char.ofNat (b.toNat + 0x40)] := by
  simp only [isCaret, Bool.and_eq_true, decide_eq_true_eq, Option.isNone_iff_eq_none] at hb
  have hn : (Char.ofNat b.toNat).toNat = b.toNat :=
    Utf8.toNat_ofNat_of_valid (Or.inl (by omega))
  rw [push_control (by omega), hn, hb.2]

theorem bytes_spell (hb : isCaret b = true) (hfs : b ≠ 0x1C) (u v : Bytes) :
    unixStyle.bytes (u ++ 0x5E :: (b + 0x40) :: v) = unixStyle.bytes (u ++ b :: v) := by
  have hsum := toNat_add_of_caret hb
  have hlt : b.toNat < 0x20 := by
    simp only [isCaret, Bool.and_eq_true, decide_eq_true_eq] at hb
    exact hb.1
  have hfs' : b.toNat ≠ 0x1C := fun h => hfs (UInt8.toNat_inj.mp h)
  have hx : (Char.ofNat (b + 0x40).toNat).toNat = b.toNat + 0x40 := by
    rw [hsum]
    exact Utf8.toNat_ofNat_of_valid (Or.inl (by omega))
  have hne : Char.ofNat (b + 0x40).toNat ≠ '\\' := fun heq => by
    rw [heq] at hx
    simp at hx
    omega
  have hletter : unixStyle.bytes ((b + 0x40) :: v) =
      Char.ofNat (b + 0x40).toNat :: unixStyle.bytes v := by
    have hsplit := bytes_append_ascii [] (b := b + 0x40) (by omega) v
    rwa [push_plain (by omega) hne (isHexed_of_lt (by omega))] at hsplit
  rw [bytes_append_ascii u (by decide), bytes_append_ascii u (b := b) (by omega), hletter, push_caretByte hb, hsum]
  rfl

theorem caretClear_spell (hb : isCaret b = true) (u v : Bytes) :
    CaretClear (u ++ b :: v) ↔ CaretClear (u ++ 0x5E :: (b + 0x40) :: v) := by
  by_cases hfs : b = 0x1C
  · subst hfs
    have hleft : ¬ CaretClear (u ++ 0x1C :: v) := fun h => h.1 (by simp)
    have hright : ¬ CaretClear (u ++ 0x5E :: (0x1C + 0x40) :: v) := by
      intro h
      have hchain := h.2
      rw [Utf8.pieces_append_ascii u (by decide), Utf8.pieces_ascii (by decide), isChain_append_cons_cons] at hchain
      exact hchain.2.1 ⟨by decide, by decide⟩
    exact ⟨fun h => absurd h hleft, fun h => absurd h hright⟩
  · rw [caretClear_iff, caretClear_iff, bytes_spell hb hfs]

theorem Swaps.print {a b : Bytes} (h : Swaps a b) :
    (CaretClear a ↔ CaretClear b) ∧ (CaretClear a → unixStyle.bytes a = unixStyle.bytes b) := by
  induction h with
  | rel a b hab =>
    cases hab with
    | spell u v c hc =>
      refine ⟨caretClear_spell hc u v, fun hclear => (bytes_spell hc (fun hfs => ?_) u v).symm⟩
      exact hclear.1 (by simp [hfs])
  | refl a => exact ⟨Iff.rfl, fun _ => rfl⟩
  | symm a b _ ih => exact ⟨ih.1.symm, fun h => (ih.2 (ih.1.mpr h)).symm⟩
  | trans a b c _ _ ih ih' =>
    exact ⟨ih.1.trans ih'.1, fun h => (ih.2 h).trans (ih'.2 (ih.1.mp h))⟩

theorem bytes_eq_iff_swaps (h : CaretClear a) (b : Bytes) : unixStyle.bytes a = unixStyle.bytes b ↔ Swaps a b := by
  constructor
  · intro heq
    have hb : CaretClear b := by
      rw [caretClear_iff, ← heq, ← caretClear_iff]
      exact h
    rw [swaps_iff, ← unprint_bytes h.1, ← unprint_bytes hb.1, heq]
  · intro hswaps
    exact hswaps.print.2 h

/-! ## Where the condition fails -/

theorem bytes_fs (u v : Bytes) :
    unixStyle.bytes (u ++ 0x1C :: v) = unixStyle.bytes u ++ '^' :: '\\' :: unixStyle.bytes v :=
  bytes_append_ascii u (by decide) v

theorem bytes_caret (u v : Bytes) :
    unixStyle.bytes (u ++ 0x5E :: v) = unixStyle.bytes u ++ '^' :: unixStyle.bytes v :=
  bytes_append_ascii u (by decide) v

theorem bytes_cons_plain (hlo : 0x20 ≤ b.toNat) (hhi : b.toNat < 0x7F) (hne : b ≠ 0x5C) (v : Bytes) :
    unixStyle.bytes (b :: v) = Char.ofNat b.toNat :: unixStyle.bytes v := by
  have hn : (Char.ofNat b.toNat).toNat = b.toNat :=
    Utf8.toNat_ofNat_of_valid (Or.inl (by omega))
  have hbs : Char.ofNat b.toNat ≠ '\\' := fun h => hne (UInt8.toNat_inj.mp (by rw [← hn, h]; rfl))
  have hsplit := bytes_append_ascii [] (b := b) (by omega) v
  rwa [push_plain (by omega) hbs (isHexed_of_lt (by omega))] at hsplit

variable {q : Utf8.Piece}

theorem bytes_cons_piece {rest : Bytes} {qs : List Utf8.Piece} (h : Utf8.pieces rest = q :: qs) :
    ∃ z, rest = q.bytes ++ z ∧ unixStyle.bytes rest = printPiece unixStyle .text q ++ unixStyle.bytes z := by
  obtain ⟨z, hz, hqs⟩ := @Utf8.exists_of_pieces_eq_append _ [q] qs h
  refine ⟨z, by simpa using hz, ?_⟩
  rw [bytes_eq_flatMap, h, flatMap_cons, bytes_eq_flatMap, hqs]

theorem bytes_continuations {tail : Bytes} (h : ∀ b ∈ tail, 0x80 ≤ b.toNat ∧ b.toNat ≤ 0xBF)
    (z : Bytes) : unixStyle.bytes (tail ++ z) = tail.flatMap pushHex ++ unixStyle.bytes z := by
  induction tail with
  | nil => rfl
  | cons b tail ih =>
    have hrest := ih fun c hc => h c (mem_cons_of_mem b hc)
    rw [bytes_eq_flatMap] at hrest ⊢
    rw [cons_append, Utf8.pieces_continuation (h b (mem_cons_self ..)),
      flatMap_cons, hrest, flatMap_cons, append_assoc]
    rfl

/-- A byte string and one that shows the claimed equivalence false of it. -/
def Parted (a : Bytes) : Prop :=
  ∃ b, ¬ (unixStyle.bytes a = unixStyle.bytes b ↔ Swaps a b)

theorem parted_of_swaps {a b : Bytes} (hswaps : Swaps a b)
    (hlen : (unixStyle.bytes a).length ≠ (unixStyle.bytes b).length) : Parted a :=
  ⟨b, fun h => hlen (congrArg List.length (h.mpr hswaps))⟩

theorem parted_of_bytes {a b : Bytes} (hprint : unixStyle.bytes a = unixStyle.bytes b)
    (hlen : (expand a).length ≠ (expand b).length) : Parted a :=
  ⟨b, fun h => hlen (congrArg List.length ((swaps_iff a b).mp (h.mp hprint)))⟩

theorem parted_of_fs (h : (0x1C : UInt8) ∈ a) : Parted a := by
  obtain ⟨u, v, rfl⟩ := append_of_mem h
  have hspell : Swaps (u ++ 0x1C :: v) (u ++ 0x5E :: 0x5C :: v) :=
    Relation.EqvGen.rel _ _ (Swap.spell u v 0x1C (by decide))
  refine parted_of_swaps hspell ?_
  have hbs : unixStyle.bytes (0x5C :: v) = '\\' :: '\\' :: unixStyle.bytes v :=
    bytes_append_ascii [] (by decide) v
  rw [bytes_fs, bytes_caret, hbs]
  simp

theorem parted_before_backslash (u z : Bytes) : Parted (u ++ 0x5E :: 0x5C :: z) := by
  have hspell : Swaps (u ++ 0x5E :: 0x5C :: z) (u ++ 0x1C :: z) :=
    Relation.EqvGen.symm _ _ (Relation.EqvGen.rel _ _ (Swap.spell u z 0x1C (by decide)))
  refine parted_of_swaps hspell ?_
  have hbs : unixStyle.bytes (0x5C :: z) = '\\' :: '\\' :: unixStyle.bytes z :=
    bytes_append_ascii [] (by decide) z
  rw [bytes_fs, bytes_caret, hbs]
  simp

theorem parted_before_letter {l : Char} (h : letterOf c.toNat = some l) (u z : Bytes) :
    Parted (u ++ 0x5E :: (String.utf8EncodeChar c ++ z)) := by
  have hl := letterOf_cases h
  have hctl : c.toNat < 0x20 := by omega
  have hform := Utf8.encode_ascii (c := c) (by omega)
  have hbyte : (UInt8.ofNat c.toNat).toNat = c.toNat := Utf8.toNat_ofNat_small (by omega)
  -- the letter after the exception is read as the escape
  have hprint : unixStyle.bytes (u ++ 0x5E :: (String.utf8EncodeChar c ++ z)) =
      unixStyle.bytes (u ++ 0x1C :: UInt8.ofNat l.toNat :: z) := by
    have hletter : unixStyle.bytes (UInt8.ofNat l.toNat :: z) = l :: unixStyle.bytes z := by
      rcases hl with hl | hl | hl | hl | hl
      all_goals
        rw [hl.2]
        exact bytes_cons_plain (by decide) (by decide) (by decide) z
    have hchar : unixStyle.bytes (UInt8.ofNat c.toNat :: z) = '\\' :: l :: unixStyle.bytes z := by
      have hsplit := bytes_append_ascii [] (b := UInt8.ofNat c.toNat) (by omega) z
      rwa [hbyte, Char.ofNat_toNat, push_control hctl, h] at hsplit
    rw [hform, singleton_append, bytes_caret, bytes_fs, hletter, hchar]
  refine parted_of_bytes hprint ?_
  have hspelt : expandByte (UInt8.ofNat c.toNat) = [UInt8.ofNat c.toNat] := by
    refine if_neg fun hcaret => ?_
    simp [isCaret, hbyte, h] at hcaret
  have hlspelt : expandByte (UInt8.ofNat l.toNat) = [UInt8.ofNat l.toNat] := by
    refine expandByte_of_ge ?_
    rcases hl with hl | hl | hl | hl | hl <;> rw [hl.2] <;> decide
  rw [hform, expand_append, expand_append]
  simp [expand, hspelt, hlspelt, show expandByte 0x5E = [0x5E] from rfl,
    show expandByte 0x1C = [0x5E, 0x5C] from rfl]

theorem toNat_hexDigit (n : Nat) : 0x30 ≤ (hexDigit n).toNat ∧ (hexDigit n).toNat ≤ 0x66 := by
  have h : "0123456789abcdef".toList.all (fun c => decide (0x30 ≤ c.toNat ∧ c.toNat ≤ 0x66)) = true := by decide
  exact of_decide_eq_true (all_eq_true.mp h _ (hexDigit_mem n))

theorem bytes_cons_hexDigit (n : Nat) (v : Bytes) :
    unixStyle.bytes (UInt8.ofNat (hexDigit n).toNat :: v) = hexDigit n :: unixStyle.bytes v := by
  have hn := toNat_hexDigit n
  have hbyte : (UInt8.ofNat (hexDigit n).toNat).toNat = (hexDigit n).toNat :=
    Utf8.toNat_ofNat_small (by omega)
  have hne : UInt8.ofNat (hexDigit n).toNat ≠ 0x5C := fun h => by
    have hsame : (hexDigit n).toNat = '\\'.toNat := by rw [← hbyte, h]; rfl
    exact (hexDigit_ne n).2 (char_ext hsame)
  rw [bytes_cons_plain (by omega) (by omega) hne, hbyte, Char.ofNat_toNat]

theorem parted_before_hex {lead : UInt8} {tail : Bytes}
    (hq : q.bytes = lead :: tail) (htail : ∀ b ∈ tail, 0x80 ≤ b.toNat ∧ b.toNat ≤ 0xBF)
    (hge : 0x20 ≤ lead.toNat) (hprint : printPiece unixStyle .text q = q.bytes.flatMap pushHex)
    {rest z : Bytes} (hrest : rest = q.bytes ++ z)
    (hbytes : unixStyle.bytes rest = printPiece unixStyle .text q ++ unixStyle.bytes z) (u : Bytes) :
    Parted (u ++ 0x5E :: rest) := by
  have hx : ∀ v, unixStyle.bytes (0x78 :: v) = 'x' :: unixStyle.bytes v :=
    bytes_cons_plain (by decide) (by decide) (by decide)
  have hspelt : expandByte lead = [lead] := expandByte_of_ge hge
  have htspelt : expand tail = tail := expand_of_ge fun b hb => by
    have := htail b hb
    omega
  have hdspelt : ∀ n, expandByte (UInt8.ofNat (hexDigit n).toNat) = [UInt8.ofNat (hexDigit n).toNat] := by
    intro n
    have := toNat_hexDigit n
    exact expandByte_of_ge (by rw [Utf8.toNat_ofNat_small (by omega)]; omega)
  -- the digits after the exception are read as the escape
  refine @parted_of_bytes _ (u ++ 0x1C :: 0x78 :: UInt8.ofNat (hexDigit (lead.toNat / 16)).toNat ::
    UInt8.ofNat (hexDigit (lead.toNat % 16)).toNat :: (tail ++ z)) ?_ ?_
  · rw [bytes_caret, bytes_fs, hx, bytes_cons_hexDigit, bytes_cons_hexDigit,
      bytes_continuations htail, hbytes, hprint, hq]
    rfl
  · rw [hrest, hq, expand_append, expand_append]
    have htz : expand (tail ++ z) = tail ++ expand z := by rw [expand_append, htspelt]
    simp only [expand, flatMap_cons, flatMap_append, cons_append, hspelt, hdspelt,
      show expandByte 0x5E = [0x5E] from rfl, show expandByte 0x1C = [0x5E, 0x5C] from rfl,
      show expandByte 0x78 = [0x78] from rfl, length_append, length_cons, length_nil]
    omega

theorem parted_of_caret (u : Bytes) {rest : Bytes} {qs : List Utf8.Piece}
    (hrest : Utf8.pieces rest = q :: qs) (hq : backslashed q = true) : Parted (u ++ 0x5E :: rest) := by
  obtain ⟨z, hz, hbytes⟩ := bytes_cons_piece hrest
  have hhead : ∃ lead tail, q.bytes = lead :: tail ∧
      ∀ b ∈ tail, 0x80 ≤ b.toNat ∧ b.toNat ≤ 0xBF := by
    cases rest with
    | nil => simp at hrest
    | cons lead more =>
      obtain ⟨tail, htail⟩ := Utf8.bytes_piece_eq lead more
      rw [Utf8.pieces_cons, List.cons.injEq] at hrest
      exact ⟨lead, tail, hrest.1 ▸ htail⟩
  obtain ⟨lead, tail, hform, htail⟩ := hhead
  cases q with
  | invalid bad =>
    have hlead : 0x80 ≤ lead.toNat := by
      refine @Utf8.invalid_of_mem rest bad (by rw [hrest]; exact mem_cons_self ..)
        lead ?_
      have : bad = lead :: tail := hform
      simp [this]
    exact parted_before_hex hform htail (by omega) rfl hz hbytes u
  | char c =>
    simp only [backslashed, Bool.or_eq_true, beq_iff_eq] at hq
    rcases hq with (hc | hl) | hh
    · subst hc
      rw [hz]
      exact parted_before_backslash u z
    · obtain ⟨l, hl⟩ := Option.isSome_iff_exists.mp hl
      rw [hz]
      exact parted_before_letter hl u z
    · have hbig := ge_of_isHexed hh
      have hlead := encode_ge (c := c) (by omega) lead (by
        have : String.utf8EncodeChar c = lead :: tail := hform
        simp [this])
      exact parted_before_hex hform htail hlead (push_hexed hh) hz hbytes u

theorem Parted.of_spell {u v : Bytes} (hb : isCaret b = true) (hfs : b ≠ 0x1C)
    (h : Parted (u ++ 0x5E :: (b + 0x40) :: v)) : Parted (u ++ b :: v) := by
  obtain ⟨other, hother⟩ := h
  refine ⟨other, fun hiff => hother ?_⟩
  rw [bytes_spell hb hfs, hiff, swaps_iff, swaps_iff, expand_append, expand_append, expand_spell hb]

theorem parted_of_not_clear (h : ¬ CaretClear a) : Parted a := by
  by_cases hfs : (0x1C : UInt8) ∈ a
  · exact parted_of_fs hfs
  · have hchain : ¬ (Utf8.pieces a).IsChain
        (fun p q => ¬ (endsCaret p = true ∧ backslashed q = true)) := fun hc => h ⟨hfs, hc⟩
    rw [isChain_iff_forall_rel_of_append_cons_cons] at hchain
    push Not at hchain
    obtain ⟨p, q, ps, qs, hsplit, hp, hq⟩ := hchain
    obtain ⟨more, ha, hmore⟩ := Utf8.exists_of_pieces_eq_append hsplit
    obtain ⟨rest, hrest, hqs⟩ := @Utf8.exists_of_pieces_eq_append _ [p] (q :: qs) hmore
    rw [ha, hrest]
    cases p with
    | invalid bad => simp [endsCaret] at hp
    | char c =>
      simp only [endsCaret, Bool.or_eq_true, beq_iff_eq] at hp
      rcases hp with hc | hc
      · subst hc
        exact parted_of_caret _ hqs hq
      · have hc' : c = Char.ofNat 0x1E := char_ext hc
        subst hc'
        -- a second spelling ends in a caret that stands for itself
        refine Parted.of_spell (b := 0x1E) (by decide) (by decide) ?_
        have hcaret := parted_of_caret (ps.flatMap Utf8.Piece.bytes ++ [0x5E]) hqs hq
        rwa [append_assoc] at hcaret

/-- For a byte string to print as its swaps do and nothing else, the condition
is exact. -/
theorem bytes_kernel_iff (a : Bytes) : (∀ b, unixStyle.bytes a = unixStyle.bytes b ↔ Swaps a b) ↔ CaretClear a := by
  constructor
  · intro h
    by_contra hclear
    obtain ⟨b, hb⟩ := parted_of_not_clear hclear
    exact hb (h b)
  · intro h
    exact bytes_eq_iff_swaps h

/-- The exception and a letter, and a caret and a newline, print the same; a
caret and a backslash do not print as the control they are traded for. -/
theorem bytes_kernel_broken :
    (unixStyle.bytes [0x1C, 0x6E] = unixStyle.bytes [0x5E, 0x0A] ∧ ¬ Swaps [0x1C, 0x6E] [0x5E, 0x0A]) ∧
    (unixStyle.bytes [0x1C, 0x78, 0x66, 0x66] = unixStyle.bytes [0x5E, 0xFF] ∧
      ¬ Swaps [0x1C, 0x78, 0x66, 0x66] [0x5E, 0xFF]) ∧
    (Swaps [0x1C] [0x5E, 0x5C] ∧ unixStyle.bytes [0x1C] ≠ unixStyle.bytes [0x5E, 0x5C]) := by
  refine ⟨⟨by decide, ?_⟩, ⟨by decide, ?_⟩, ?_, by decide⟩
  · rw [swaps_iff]
    decide
  · rw [swaps_iff]
    decide
  · rw [swaps_iff]
    decide

end Lsof.Render
