import Lsof.Basis.Lines

/-! # Rewriting ASCII before and after reading

Bytes above ASCII stand in runs, and an ASCII byte ends each. What only looks at
ASCII and writes ASCII may therefore be done on the bytes or on the characters they
are read as: taking off a prefix, replacing one character by another, undoing the
escapes of an escape character.
-/

namespace Lsof.Basis

open List

section Escapes

variable {α : Type} [DecidableEq α]

/-- Undo escapes: the escape character and one that has a code are what the code says.
Before any other character it stands for itself. -/
def unescapePairs (esc : α) (code : α → Option α) : List α → List α
  | [] => []
  | [a] => [a]
  | a :: b :: rest =>
    if a = esc then
      match code b with
      | some x => x :: unescapePairs esc code rest
      | none => a :: unescapePairs esc code (b :: rest)
    else a :: unescapePairs esc code (b :: rest)

variable {esc : α} {code : α → Option α}

theorem unescapePairs_cons_of_ne {a : α} (h : a ≠ esc) (rest : List α) :
    unescapePairs esc code (a :: rest) = a :: unescapePairs esc code rest := by
  cases rest with
  | nil => rfl
  | cons b rest => rw [unescapePairs, if_neg h]

theorem unescapePairs_pair {b x : α} (h : code b = some x) (rest : List α) :
    unescapePairs esc code (esc :: b :: rest) = x :: unescapePairs esc code rest := by
  rw [unescapePairs, if_pos rfl, h]

theorem unescapePairs_alone {b : α} (h : code b = none) (rest : List α) :
    unescapePairs esc code (esc :: b :: rest) = esc :: unescapePairs esc code (b :: rest) := by
  rw [unescapePairs, if_pos rfl, h]

theorem unescapePairs_append {w : List α} (h : esc ∉ w) (rest : List α) :
    unescapePairs esc code (w ++ rest) = w ++ unescapePairs esc code rest := by
  induction w with
  | nil => rfl
  | cons a w ih =>
    have ha : a ≠ esc := fun heq => h (heq ▸ mem_cons_self)
    rw [cons_append, unescapePairs_cons_of_ne ha, ih fun hmem => h (mem_cons_of_mem a hmem)]
    rfl

theorem unescapePairs_of_not_mem {w : List α} (h : esc ∉ w) : unescapePairs esc code w = w := by
  have happ := @unescapePairs_append α _ esc code w h []
  simpa [unescapePairs] using happ

theorem map_unescapePairs {β : Type} [DecidableEq β] {esc' : β} {code' : β → Option β} {g : α → β}
    (hesc : ∀ a, g a = esc' ↔ a = esc) (hcode : ∀ a, code' (g a) = (code a).map g) (w : List α) :
    (unescapePairs esc code w).map g = unescapePairs esc' code' (w.map g) := by
  induction w using unescapePairs.induct esc code with
  | case1 => rfl
  | case2 a => rfl
  | case3 b rest x hx ih =>
    have hg : g esc = esc' := (hesc esc).mpr rfl
    rw [unescapePairs_pair hx, map_cons, map_cons, map_cons, hg, unescapePairs_pair (by rw [hcode, hx]; rfl), ih]
  | case4 b rest hx ih =>
    have hg : g esc = esc' := (hesc esc).mpr rfl
    rw [unescapePairs_alone hx, map_cons, map_cons, map_cons, hg,
      unescapePairs_alone (by rw [hcode, hx]; rfl), ih, map_cons]
  | case5 a b rest ha ih =>
    have hg : g a ≠ esc' := fun h => ha ((hesc a).mp h)
    rw [unescapePairs_cons_of_ne ha, map_cons, map_cons, unescapePairs_cons_of_ne hg, ih]

theorem mem_unescapePairs_iff {x : α} (hx : x ≠ esc) (hcode : ∀ b y, code b = some y → b ≠ x ∧ y ≠ x) (w : List α) :
    x ∈ unescapePairs esc code w ↔ x ∈ w := by
  induction w using unescapePairs.induct esc code with
  | case1 => rfl
  | case2 a => rfl
  | case3 b rest y hy ih =>
    have hne := hcode b y hy
    rw [unescapePairs_pair hy, mem_cons, mem_cons, mem_cons, ih]
    simp [hx, Ne.symm hne.1, Ne.symm hne.2]
  | case4 b rest hy ih => rw [unescapePairs_alone hy, mem_cons, mem_cons, ih]
  | case5 a b rest ha ih => rw [unescapePairs_cons_of_ne ha, mem_cons, mem_cons, ih]

end Escapes

namespace Utf8

def High (w : Bytes) : Prop := ∀ b ∈ w, 0x80 ≤ b.toNat

/-- Bytes by their runs: one that nothing follows, or one and an ASCII byte, with the
statement known of whatever is no longer than the rest. -/
theorem runs_induction {motive : Bytes → Prop} (high : ∀ w, High w → motive w)
    (ascii : ∀ w a v, High w → a.toNat < 0x80 → (∀ u : Bytes, u.length ≤ v.length → motive u) → motive (w ++ a :: v))
    (bs : Bytes) : motive bs := by
  induction hlen : bs.length using Nat.strong_induction_on generalizing bs with
  | _ n ih =>
    by_cases hhigh : High bs
    · exact high bs hhigh
    · have hsplit := takeWhile_append_dropWhile (p := fun b : UInt8 => decide (0x80 ≤ b.toNat)) (l := bs)
      have hw : High (bs.takeWhile fun b => decide (0x80 ≤ b.toNat)) := by
        intro b hb
        simpa using mem_takeWhile_imp hb
      cases hdrop : bs.dropWhile fun b => decide (0x80 ≤ b.toNat) with
      | nil =>
        rw [hdrop, append_nil] at hsplit
        exact absurd (hsplit ▸ hw) hhigh
      | cons a v =>
        have ha : a.toNat < 0x80 := by
          have hne : bs.dropWhile (fun b => decide (0x80 ≤ b.toNat)) ≠ [] := by simp [hdrop]
          have hhead := head_dropWhile_not (fun b : UInt8 => decide (0x80 ≤ b.toNat)) hne
          simpa [hdrop] using hhead
        rw [hdrop] at hsplit
        have hshort : v.length < n := by
          rw [← hlen, ← hsplit]
          simp
          omega
        rw [← hsplit]
        exact ascii _ a v hw ha fun u hu => ih u.length (by omega) u rfl

def Piece.ascii? : Piece → Option UInt8
  | .char c => if c.toNat < 0x80 then some (UInt8.ofNat c.toNat) else none
  | .invalid _ => none

def Piece.ofByte (a : UInt8) : Piece := .char (Char.ofNat a.toNat)

theorem toNat_ofNat_byte (a : UInt8) : (Char.ofNat a.toNat).toNat = a.toNat := by
  have hlt := a.toNat_lt
  apply toNat_ofNat_of_valid
  unfold Nat.isValidChar
  omega

theorem char_ofNat_byte_inj {a b : UInt8} (h : Char.ofNat a.toNat = Char.ofNat b.toNat) : a = b := by
  have hnat := congrArg Char.toNat h
  rw [toNat_ofNat_byte, toNat_ofNat_byte] at hnat
  exact UInt8.toNat_inj.mp hnat

theorem ascii?_ofByte {a : UInt8} (ha : a.toNat < 0x80) : (Piece.ofByte a).ascii? = some a := by
  simp [Piece.ofByte, Piece.ascii?, toNat_ofNat_byte, ha]

variable {p : Piece}

theorem ofByte_of_ascii? {a : UInt8} (h : p.ascii? = some a) : p = Piece.ofByte a ∧ a.toNat < 0x80 := by
  cases p with
  | invalid bad => cases h
  | char c =>
    by_cases hc : c.toNat < 0x80
    · rw [Piece.ascii?, if_pos hc] at h
      cases h
      have hbyte := toNat_ofNat_small (Nat.lt_trans hc (by decide : 0x80 < 256))
      rw [hbyte, Piece.ofByte, hbyte, Char.ofNat_toNat]
      exact ⟨rfl, hc⟩
    · rw [Piece.ascii?, if_neg hc] at h
      cases h

theorem ascii?_of_shown {c : Char} (h : p.shown = c) (hc : c.toNat < 0x80) :
    p.ascii? = some (UInt8.ofNat c.toNat) := by
  cases p with
  | char d =>
    have hd : d = c := h
    rw [hd, Piece.ascii?, if_pos hc]
  | invalid bad =>
    rw [← h] at hc
    exact absurd hc (by decide : ¬ (Char.ofNat 0xFFFD).toNat < 0x80)

theorem ascii?_piece (lead : UInt8) (rest : Bytes) :
    (piece lead rest).1.ascii? = if lead.toNat < 0x80 then some lead else none := by
  by_cases hlead : lead.toNat < 0x80
  · rw [if_pos hlead, piece_ascii hlead]
    exact ascii?_ofByte hlead
  · rw [if_neg hlead]
    cases hascii : (piece lead rest).1.ascii? with
    | none => rfl
    | some a =>
      have hbyte := ofByte_of_ascii? hascii
      have hbytes := bytes_piece lead rest
      rw [hbyte.1, Piece.ofByte, Piece.bytes, encode_ascii (by rw [toNat_ofNat_byte]; exact hbyte.2),
        toNat_ofNat_byte, cons_append, List.cons.injEq] at hbytes
      have hsame : a = lead := by simpa using hbytes.1
      exact absurd (hsame ▸ hbyte.2) hlead

theorem ascii?_of_high {w : Bytes} (h : High w) (hp : p ∈ pieces w) : p.ascii? = none := by
  cases hascii : p.ascii? with
  | none => rfl
  | some a =>
    have hbyte := ofByte_of_ascii? hascii
    have hmem : a ∈ w := by
      rw [← flatMap_bytes_pieces w]
      apply mem_flatMap.mpr
      refine ⟨p, hp, ?_⟩
      rw [hbyte.1, Piece.ofByte, Piece.bytes, encode_ascii (by rw [toNat_ofNat_byte]; exact hbyte.2),
        toNat_ofNat_byte]
      simp
    have hhigh := h a hmem
    omega

def Piece.rewrite (f : UInt8 → UInt8) (p : Piece) : Piece := (p.ascii?.map fun a => Piece.ofByte (f a)).getD p

def Piece.recode (code : UInt8 → Option UInt8) (p : Piece) : Option Piece :=
  p.ascii?.bind fun a => (code a).map Piece.ofByte

theorem map_rewrite_of_high (f : UInt8 → UInt8) {w : Bytes} (h : High w) :
    (pieces w).map (Piece.rewrite f) = pieces w := by
  conv_rhs => rw [← map_id (pieces w)]
  apply map_congr_left
  intro p hp
  simp [Piece.rewrite, ascii?_of_high h hp]

variable {f : UInt8 → UInt8}

theorem pieces_map (hascii : ∀ a : UInt8, a.toNat < 0x80 → (f a).toNat < 0x80)
    (hhigh : ∀ b : UInt8, 0x80 ≤ b.toNat → f b = b) (bs : Bytes) :
    pieces (bs.map f) = (pieces bs).map (Piece.rewrite f) := by
  have hrun : ∀ w, High w → w.map f = w := by
    intro w hw
    conv_rhs => rw [← map_id w]
    exact map_congr_left fun b hb => hhigh b (hw b hb)
  induction bs using runs_induction with
  | high w hw => rw [hrun w hw, map_rewrite_of_high f hw]
  | ascii w a v hw ha ih =>
    have hpiece : Piece.rewrite f (.char (Char.ofNat a.toNat)) = .char (Char.ofNat (f a).toNat) := by
      have hbyte := ascii?_ofByte ha
      rw [Piece.ofByte] at hbyte
      simp [Piece.rewrite, hbyte, Piece.ofByte]
    rw [map_append, map_cons, hrun w hw, pieces_append_ascii w (hascii a ha), ih v (Nat.le_refl _),
      pieces_append_ascii w ha, map_append, map_cons, map_rewrite_of_high f hw, hpiece]

theorem ofByte_not_mem_of_high {w : Bytes} (h : High w) {a : UInt8} (ha : a.toNat < 0x80) :
    a ∉ w ∧ Piece.ofByte a ∉ pieces w := by
  constructor
  · intro hmem
    have hhigh := h a hmem
    omega
  · intro hmem
    have hnone := ascii?_of_high h hmem
    rw [ascii?_ofByte ha] at hnone
    cases hnone

theorem ofByte_inj {a b : UInt8} (h : Piece.ofByte a = Piece.ofByte b) : a = b :=
  char_ofNat_byte_inj (Piece.char.inj h)

section Unescape

variable {esc : UInt8} {code : UInt8 → Option UInt8}

theorem recode_piece (hcode : ∀ b x, code b = some x → b.toNat < 0x80 ∧ x.toNat < 0x80) (b : UInt8) (v : Bytes) :
    (piece b v).1.recode code = (code b).map Piece.ofByte := by
  unfold Piece.recode
  rw [ascii?_piece]
  by_cases hb : b.toNat < 0x80
  · simp [hb]
  · have hnone : code b = none := by
      cases hx : code b with
      | none => rfl
      | some x => exact absurd (hcode b x hx).1 hb
    simp [hb, hnone]

theorem pieces_unescapePairs (hesc : esc.toNat < 0x80)
    (hcode : ∀ b x, code b = some x → b.toNat < 0x80 ∧ x.toNat < 0x80) (bs : Bytes) :
    pieces (unescapePairs esc code bs) = unescapePairs (Piece.ofByte esc) (Piece.recode code) (pieces bs) := by
  induction bs using runs_induction with
  | high w hw =>
    have hno := ofByte_not_mem_of_high hw hesc
    rw [unescapePairs_of_not_mem hno.1, unescapePairs_of_not_mem hno.2]
  | ascii w a v hw ha ih =>
    have hno := ofByte_not_mem_of_high hw hesc
    have hread := pieces_append_ascii w ha v
    rw [unescapePairs_append hno.1, hread, unescapePairs_append hno.2]
    have hofByte : Piece.char (Char.ofNat a.toNat) = Piece.ofByte a := rfl
    by_cases hae : a = esc
    · rw [hofByte, hae]
      cases v with
      | nil =>
        rw [unescapePairs, pieces_nil, unescapePairs, pieces_append_ascii w hesc]
        rfl
      | cons b v =>
        have hrecode := recode_piece hcode b v
        rw [pieces_cons b v]
        cases hx : code b with
        | some x =>
          -- An escape: both bytes are of ASCII, and so is what they stand for.
          have hbx := hcode b x hx
          rw [hx] at hrecode
          rw [unescapePairs_pair hx, unescapePairs_pair hrecode, pieces_append_ascii w hbx.2,
            ih v (by simp), piece_ascii hbx.1, drop_zero]
          rfl
        | none =>
          rw [hx] at hrecode
          rw [unescapePairs_alone hx, unescapePairs_alone hrecode, pieces_append_ascii w hesc,
            ih (b :: v) (Nat.le_refl _), pieces_cons b v]
          rfl
    · have hne : Piece.char (Char.ofNat a.toNat) ≠ Piece.ofByte esc := fun h => hae (ofByte_inj h)
      rw [unescapePairs_cons_of_ne hae, unescapePairs_cons_of_ne hne, pieces_append_ascii w ha, ih v (Nat.le_refl _)]

end Unescape

theorem isPrefixOf?_decodeLossy {t : Text} (ht : ∀ c ∈ t, c.toNat < 0x80) (bs : Bytes) :
    t.isPrefixOf? (decodeLossy bs) = (t.bytes.isPrefixOf? bs).map decodeLossy := by
  induction t generalizing bs with
  | nil => rfl
  | cons c t ih =>
    have hc := ht c mem_cons_self
    have hbytes : Text.bytes (c :: t) = UInt8.ofNat c.toNat :: Text.bytes t := by
      rw [Text.bytes, flatMap_cons, encode_ascii hc]
      rfl
    rw [hbytes]
    cases bs with
    | nil => simp [decodeLossy_eq, List.isPrefixOf?]
    | cons b bs =>
      by_cases hb : b.toNat < 0x80
      · have hshown : decodeLossy (b :: bs) = Char.ofNat b.toNat :: decodeLossy bs :=
          decodeLossy_append_ascii [] hb bs
        have hsame : (c == Char.ofNat b.toNat) = (UInt8.ofNat c.toNat == b) := by
          rw [Bool.eq_iff_iff, beq_iff_eq, beq_iff_eq]
          constructor
          · intro h
            rw [h, toNat_ofNat_byte]
            simp
          · intro h
            rw [← h, toNat_ofNat_small (by omega), Char.ofNat_toNat]
        rw [hshown, List.isPrefixOf?, List.isPrefixOf?, hsame, ih (fun d hd => ht d (mem_cons_of_mem c hd))]
        cases UInt8.ofNat c.toNat == b <;> rfl
      · have hnone := ascii?_piece b bs
        rw [if_neg hb] at hnone
        have hshown : (c == (piece b bs).1.shown) = false := by
          rw [beq_eq_false_iff_ne]
          intro h
          rw [ascii?_of_shown h.symm hc] at hnone
          cases hnone
        have hbyte : (UInt8.ofNat c.toNat == b) = false := by
          rw [beq_eq_false_iff_ne]
          intro h
          rw [← h, toNat_ofNat_small (by omega)] at hb
          exact hb hc
        rw [decodeLossy_eq, pieces_cons, map_cons, List.isPrefixOf?, List.isPrefixOf?, hshown, hbyte]
        rfl

theorem shown_ofByte (a : UInt8) : (Piece.ofByte a).shown = Char.ofNat a.toNat := rfl

theorem high_shown (h : p.ascii? = none) : 0x80 ≤ p.shown.toNat := by
  by_contra hlow
  have hascii := ascii?_of_shown rfl (Nat.lt_of_not_le hlow)
  rw [h] at hascii
  cases hascii

theorem decodeLossy_map {g : Char → Char}
    (hascii : ∀ a : UInt8, a.toNat < 0x80 → (f a).toNat < 0x80 ∧ g (Char.ofNat a.toNat) = Char.ofNat (f a).toNat)
    (hbyte : ∀ b : UInt8, 0x80 ≤ b.toNat → f b = b) (hchar : ∀ c : Char, 0x80 ≤ c.toNat → g c = c) (bs : Bytes) :
    decodeLossy (bs.map f) = (decodeLossy bs).map g := by
  rw [decodeLossy_eq, decodeLossy_eq, pieces_map (fun a ha => (hascii a ha).1) hbyte, map_map, map_map]
  apply map_congr_left
  intro p _
  rw [Function.comp_apply, Function.comp_apply, Piece.rewrite]
  cases hp : p.ascii? with
  | none => exact (hchar _ (high_shown hp)).symm
  | some a =>
    have hof := ofByte_of_ascii? hp
    rw [hof.1, shown_ofByte, (hascii a hof.2).2]
    rfl

theorem decode_map (hascii : ∀ a : UInt8, a.toNat < 0x80 → (f a).toNat < 0x80)
    (hbyte : ∀ b : UInt8, 0x80 ≤ b.toNat → f b = b) (bs : Bytes) :
    (decode (bs.map f)).isSome = (decode bs).isSome := by
  have hinvalid : ∀ p bad, Piece.rewrite f p = .invalid bad ↔ p = .invalid bad := by
    intro p bad
    cases hp : p.ascii? with
    | none => simp [Piece.rewrite, hp]
    | some a =>
      have hof := ofByte_of_ascii? hp
      rw [hof.1, Piece.rewrite, ascii?_ofByte hof.2]
      simp [Piece.ofByte]
  rw [Bool.eq_iff_iff, decode_isSome, decode_isSome, pieces_map hascii hbyte]
  simp [hinvalid]

section Unescape

variable {esc : UInt8} {code : UInt8 → Option UInt8}

theorem decodeLossy_unescapePairs {read : Char → Option Char} (hesc : esc.toNat < 0x80)
    (hcode : ∀ b x, code b = some x → b.toNat < 0x80 ∧ x.toNat < 0x80)
    (hascii : ∀ a : UInt8, a.toNat < 0x80 → read (Char.ofNat a.toNat) = (code a).map fun x => Char.ofNat x.toNat)
    (hchar : ∀ c : Char, 0x80 ≤ c.toNat → read c = none) (bs : Bytes) :
    decodeLossy (unescapePairs esc code bs) = unescapePairs (Char.ofNat esc.toNat) read (decodeLossy bs) := by
  rw [decodeLossy_eq, decodeLossy_eq, pieces_unescapePairs hesc hcode]
  apply map_unescapePairs
  · intro p
    constructor
    · intro h
      have hp := ascii?_of_shown h (by rw [toNat_ofNat_byte]; exact hesc)
      rw [(ofByte_of_ascii? hp).1, toNat_ofNat_byte]
      simp
    · intro h
      rw [h, shown_ofByte]
  · intro p
    unfold Piece.recode
    cases hp : p.ascii? with
    | none => exact hchar _ (high_shown hp)
    | some a =>
      have hof := ofByte_of_ascii? hp
      rw [hof.1, shown_ofByte, hascii a hof.2, Option.bind_some, Option.map_map]
      rfl

theorem decode_unescapePairs (hesc : esc.toNat < 0x80)
    (hcode : ∀ b x, code b = some x → b.toNat < 0x80 ∧ x.toNat < 0x80) (bs : Bytes) :
    (decode (unescapePairs esc code bs)).isSome = (decode bs).isSome := by
  have hinvalid : ∀ bad, Piece.invalid bad ∈ unescapePairs (Piece.ofByte esc) (Piece.recode code) (pieces bs) ↔
      Piece.invalid bad ∈ pieces bs := by
    intro bad
    apply mem_unescapePairs_iff
    · intro h
      cases h
    · intro p y hy
      rcases Option.bind_eq_some_iff.mp hy with ⟨a, hp, hx⟩
      rcases Option.map_eq_some_iff.mp hx with ⟨x, _, hof⟩
      rw [(ofByte_of_ascii? hp).1, ← hof]
      constructor
      · intro h
        cases h
      · intro h
        cases h
  rw [Bool.eq_iff_iff, decode_isSome, decode_isSome, pieces_unescapePairs hesc hcode]
  simp only [hinvalid]

end Unescape

end Utf8

end Lsof.Basis
