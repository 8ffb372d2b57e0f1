import Lsof.Cli.Early

/-! # Undoing an option's errors

A mark is the lengths of the two buffers and whether lines were printed by then.
Rolling back cuts the buffers to those lengths. That is exact while nothing has
been printed since the mark; after a drain the lengths are those of buffers that
are gone.
-/

namespace Lsof.Cli.Early

open Lsof.Basis Lsof.Core List

def mark (e : Early) : Nat × Nat × Bool := (e.codes.byteLen, e.texts.byteLen, e.told)

/-- `none` where a cut would fall inside a character. -/
def rollback (e : Early) (m : Nat × Nat × Bool) : Option Early :=
  if e.told = m.2.2 ∧ e.codes.byteLen ≥ m.1 ∧ e.texts.byteLen ≥ m.2.1 then
    (Text.splitAt? m.1 e.codes).bind fun codes =>
      (Text.splitAt? m.2.1 e.texts).map fun texts => { e with codes := codes.1, texts := texts.1 }
  else some e

/-- Where `printed` lines were printed of those stored before a mark and since:
without one of the latter among them, what is left of the former is kept; else
the store is left as it is. -/
def AllOrNothing (q : Quotes) (old new : List EarlyLine) (printed : Nat) (e : Early) (m : Nat × Nat × Bool) :
    Prop :=
  let kept := if printed ≤ old.length then old.drop printed else (old ++ new).drop printed
  ∃ e', e.rollback m = some e' ∧ (old.length < printed → e' = e) ∧ e'.Holds kept ∧
    eachLine q e'.codes e'.texts = kept.map (EarlyLine.format q)

theorem splitAt?_byteLen (t : Text) : Text.splitAt? t.byteLen t = some (t, []) := by
  simpa using Text.splitAt?_append t []

theorem codesOf_eq_nil {ls : List EarlyLine} : codesOf ls = [] ↔ ls = [] := by
  constructor
  · intro h
    cases ls with
    | nil => rfl
    | cons l ls => exact absurd (append_eq_nil_iff.mp h).1 l.codes_ne_nil
  · rintro rfl
    rfl

section Marks

variable {e : Early} {m : Nat × Nat × Bool}

theorem rollback_of_ne (h : e.told ≠ m.2.2) : e.rollback m = some e := if_neg fun hall => h hall.1

theorem rollback_of_short (h : e.codes.byteLen < m.1 ∨ e.texts.byteLen < m.2.1) : e.rollback m = some e :=
  if_neg fun hall => by omega

theorem length_of_rollback {e' : Early} (htold : e.told = m.2.2) (hcodes : m.1 ≤ e.codes.byteLen)
    (htexts : m.2.1 ≤ e.texts.byteLen) (h : e.rollback m = some e') :
    e'.codes.byteLen = m.1 ∧ e'.texts.byteLen = m.2.1 := by
  rw [rollback, if_pos ⟨htold, hcodes, htexts⟩] at h
  obtain ⟨codes, hc, h⟩ := Option.bind_eq_some_iff.mp h
  obtain ⟨texts, ht, rfl⟩ := Option.map_eq_some_iff.mp h
  exact ⟨(Text.splitAt?_spec hc).2, (Text.splitAt?_spec ht).2⟩

theorem rollback_of_same (hcodes : e.codes.byteLen = m.1) (htexts : e.texts.byteLen = m.2.1) :
    e.rollback m = some e := by
  unfold rollback
  split
  · rw [← hcodes, ← htexts, splitAt?_byteLen, splitAt?_byteLen]
    rfl
  · rfl

end Marks

theorem rollback_append {e₁ e : Early} {ls new : List EarlyLine} (h₁ : e₁.Holds ls) (h : e.Holds (ls ++ new))
    (htold : e.told = e₁.told) : ∃ e', e.rollback e₁.mark = some e' ∧ e'.Holds ls := by
  have hcodes : e.codes = e₁.codes ++ codesOf new := by rw [h.1, codesOf_append, h₁.1]
  have htexts : e.texts = e₁.texts ++ textsOf new := by rw [h.2, textsOf_append, h₁.2]
  have hlong : e.told = e₁.mark.2.2 ∧ e.codes.byteLen ≥ e₁.mark.1 ∧ e.texts.byteLen ≥ e₁.mark.2.1 := by
    rw [hcodes, htexts, Text.byteLen_append, Text.byteLen_append]
    exact ⟨htold, Nat.le_add_right _ _, Nat.le_add_right _ _⟩
  refine ⟨{ e with codes := e₁.codes, texts := e₁.texts }, ?_, h₁⟩
  rw [rollback, if_pos hlong, hcodes, htexts]
  dsimp only [mark]
  rw [Text.splitAt?_append, Text.splitAt?_append]
  rfl

def Spared (e₁ e : Early) : Prop :=
  e₁.told = false ∨ e.codes.byteLen < e₁.codes.byteLen ∨ e.texts.byteLen < e₁.texts.byteLen ∨
    (e.codes.byteLen = e₁.codes.byteLen ∧ e.texts.byteLen = e₁.texts.byteLen)

theorem Holds.texts_of_codes {e : Early} {ls : List EarlyLine} (h : e.Holds ls) (hcodes : e.codes = []) :
    e.texts = [] := by
  have hnil : ls = [] := codesOf_eq_nil.mp (h.1 ▸ hcodes)
  rw [h.2, hnil]
  rfl

theorem spared_of_empty {e₁ e : Early} {ls₁ ls : List EarlyLine} (h₁ : e₁.Holds ls₁) (h : e.Holds ls)
    (hcodes : e.codes = []) : Spared e₁ e := by
  by_cases hmark : e₁.codes = []
  · refine .inr (.inr (.inr ⟨?_, ?_⟩))
    · rw [hcodes, hmark]
    · rw [h.texts_of_codes hcodes, h₁.texts_of_codes hmark]
  · refine .inr (.inl ?_)
    rw [hcodes]
    exact Nat.pos_of_ne_zero fun hzero => hmark (Text.byteLen_eq_zero.mp hzero)

section Since

variable {q : Quotes} {e₁ : Early} {r : Early × List Text} {old new : List EarlyLine} {k₁ k : Nat}
  (hk₁ : k₁ ≤ old.length) (h₁ : e₁.Holds (old.drop k₁))
  (hr : After q e₁ (old.drop k₁ ++ new) (old.drop k₁).length r k)

include hk₁ h₁ hr

theorem allOrNothing_of_unprinted (hk : k = 0) : AllOrNothing q old new (k₁ + k) r.1 e₁.mark := by
  subst hk
  have htold : r.1.told = e₁.told := hr.told.trans (Bool.or_false _)
  obtain ⟨e', hroll, hholds⟩ := rollback_append h₁ hr.holds htold
  rw [AllOrNothing, Nat.add_zero, if_pos hk₁]
  exact ⟨e', hroll, fun hlt => absurd hlt (Nat.not_lt_of_le hk₁), hholds, hholds.eachLine q⟩

theorem allOrNothing_iff_empty (hpos : 0 < k) (hk : k = (old.drop k₁).length) :
    AllOrNothing q old new (k₁ + k) r.1 e₁.mark ↔ r.1.codes = [] := by
  have hall : k₁ + k = old.length := by
    rw [hk, length_drop]
    omega
  have hnew : r.1.Holds new := by
    have hholds := hr.holds
    rwa [hk, drop_left' rfl] at hholds
  have hmark : 0 < e₁.codes.byteLen := by
    refine Nat.pos_of_ne_zero fun hzero => ?_
    have hnil := codesOf_eq_nil.mp (h₁.1 ▸ Text.byteLen_eq_zero.mp hzero)
    rw [hnil, length_nil] at hk
    omega
  rw [AllOrNothing, hall, if_pos (Nat.le_refl _), drop_length]
  constructor
  · rintro ⟨e', hroll, -, hholds, -⟩
    have hempty : e'.codes = [] := hholds.1
    by_cases hcut : r.1.told = e₁.told ∧ e₁.codes.byteLen ≤ r.1.codes.byteLen ∧
        e₁.texts.byteLen ≤ r.1.texts.byteLen
    · have hlen := (length_of_rollback (m := e₁.mark) hcut.1 hcut.2.1 hcut.2.2 hroll).1
      rw [hempty] at hlen
      have hzero : 0 = e₁.codes.byteLen := hlen
      omega
    · have hsame : r.1.rollback e₁.mark = some r.1 := if_neg hcut
      rw [← Option.some.inj (hroll.symm.trans hsame)]
      exact hempty
  · intro hempty
    have hnil : new = [] := codesOf_eq_nil.mp (hnew.1 ▸ hempty)
    rw [hnil] at hnew
    have hshort : r.1.codes.byteLen < e₁.mark.1 := by
      rw [hempty]
      exact hmark
    exact ⟨r.1, rollback_of_short (.inl hshort), fun _ => rfl, hnew, hnew.eachLine q⟩

omit h₁ in
theorem allOrNothing_iff_spared (hk : (old.drop k₁).length < k) :
    AllOrNothing q old new (k₁ + k) r.1 e₁.mark ↔ Spared e₁ r.1 := by
  have hlt : old.length < k₁ + k := by
    rw [length_drop] at hk
    omega
  have hholds : r.1.Holds ((old ++ new).drop (k₁ + k)) := by
    rw [← drop_drop, drop_append_of_le_length hk₁]
    exact hr.holds
  have htold : r.1.told = true := by
    have htold := hr.told
    rw [decide_eq_true (by omega : 0 < k), Bool.or_true] at htold
    exact htold
  rw [AllOrNothing, if_neg (Nat.not_le_of_lt hlt)]
  constructor
  · rintro ⟨e', hroll, hsame, -, -⟩
    rw [hsame hlt] at hroll
    by_contra hnot
    simp only [Spared, not_or, Bool.not_eq_false, Nat.not_lt] at hnot
    obtain ⟨htold₁, hcodes, htexts, hlens⟩ := hnot
    exact hlens (length_of_rollback (m := e₁.mark) (htold.trans htold₁.symm) hcodes htexts hroll)
  · intro hspared
    have hkept : r.1.rollback e₁.mark = some r.1 := by
      rcases hspared with hno | hshort | hshort | ⟨hcodes, htexts⟩
      · exact rollback_of_ne (by rw [htold]; exact fun h => absurd (h.trans hno) (by decide))
      · exact rollback_of_short (.inl hshort)
      · exact rollback_of_short (.inr hshort)
      · exact rollback_of_same hcodes htexts
    exact ⟨r.1, hkept, fun _ => rfl, hholds, hholds.eachLine q⟩

end Since

/-- Rolling back is all or nothing exactly where nothing was printed since the
mark, or nothing is held, or a line from after the mark was printed and the
mark's lengths spare what is held now. -/
theorem rollback_allOrNothing_iff (q : Quotes) (before since : List EarlyOp) :
    let r₁ := run q { sink := true } before
    let r := run q r₁.1 since
    let old := before.flatMap EarlyOp.stored
    let printed := r₁.2.length + r.2.length
    AllOrNothing q old (since.flatMap EarlyOp.stored) printed r.1 r₁.1.mark ↔
      r.2 = [] ∨ r.1.codes = [] ∨ (old.length < printed ∧ Spared r₁.1 r.1) := by
  intro r₁ r old printed
  have hstart : Holds { sink := true } [] := ⟨rfl, rfl⟩
  obtain ⟨k₁, h₁⟩ := after_run (q := q) hstart before
  rw [nil_append] at h₁
  obtain ⟨k, hk⟩ := after_run (q := q) h₁.holds since
  have hprinted₁ : r₁.2.length = k₁ := by
    rw [h₁.printed, length_map]
    exact length_take_of_le h₁.within
  have hprinted : r.2.length = k := by
    rw [hk.printed, length_map]
    exact length_take_of_le hk.within
  have hnone : r.2 = [] ↔ k = 0 := by rw [← hprinted, length_eq_zero_iff]
  have hlen : ((before.flatMap EarlyOp.stored).drop k₁).length = old.length - k₁ := length_drop
  have hwithin : k₁ ≤ old.length := h₁.within
  rw [hnone]
  show AllOrNothing q old _ (r₁.2.length + r.2.length) r.1 r₁.1.mark ↔
    k = 0 ∨ r.1.codes = [] ∨ (old.length < r₁.2.length + r.2.length ∧ Spared r₁.1 r.1)
  rw [hprinted₁, hprinted]
  rcases hk.whole with hzero | hwhole
  · exact iff_of_true (allOrNothing_of_unprinted hwithin h₁.holds hk hzero) (.inl hzero)
  by_cases hzero : k = 0
  · exact iff_of_true (allOrNothing_of_unprinted hwithin h₁.holds hk hzero) (.inl hzero)
  rcases Nat.eq_or_lt_of_le hwhole with heq | hmore
  · rw [allOrNothing_iff_empty hwithin h₁.holds hk (Nat.pos_of_ne_zero hzero) heq.symm]
    have hnot : ¬ old.length < k₁ + k := by omega
    exact ⟨fun h => .inr (.inl h), fun h => (h.resolve_left hzero).resolve_right fun h => hnot h.1⟩
  · rw [allOrNothing_iff_spared hwithin hk hmore]
    have hlt : old.length < k₁ + k := by omega
    constructor
    · exact fun h => .inr (.inr ⟨hlt, h⟩)
    · rintro (h | h | h)
      · exact absurd h hzero
      · exact spared_of_empty h₁.holds hk.holds h
      · exact h.2

/-- A line is printed, a second is held at the mark and printed after it, and a
third is stored: rolling back leaves half of the third, which was to go whole.
With another text it cuts inside a character. -/
theorem rollback_cuts_a_line :
    let q : Quotes := ⟨.linux, false⟩
    let said (t : Text) (h : t.byteLen < 2 ^ 63) : EarlyOp := .store (.line ⟨t, h⟩)
    let before := [said "ab".toList (by decide), .tell, said "cd".toList (by decide)]
    let r₁ := run q { sink := true } before
    let r := run q r₁.1 [.tell, said "efgh".toList (by decide)]
    r.2 = ["lsof: cd".toList] ∧
      (r.1.rollback r₁.1.mark).map (fun e => eachLine q e.codes e.texts) = some ["ef".toList] ∧
      (run q r₁.1 [.tell, said "zéa".toList (by decide)]).1.rollback r₁.1.mark = none := by
  decide +kernel

end Lsof.Cli.Early
