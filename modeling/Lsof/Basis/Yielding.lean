import Lsof.Basis.Chain
import Lsof.Basis.Firsts

/-! # The first of each name, unless it gives way

A pass over a list that keeps one element of each name: the first, unless it
gives way to a later one, which then takes its place. Beside the elements the pass
keeps where each name is.
-/

namespace Lsof.Basis

open List

variable {α κ : Type} [DecidableEq κ] (name : α → κ) (gives : α → α → Bool)

/-- An element takes the place of the one of its name that gives way to it. One of
a new name comes last. -/
def seat (kept : List α) (a : α) : List α :=
  if name a ∈ kept.map name then kept.map fun b => if name b = name a ∧ gives b a = true then a else b
  else kept ++ [a]

def winner (as : List α) (a : α) : α := (as.find? fun b => decide (name b = name a) && gives a b).getD a

theorem name_winner (as : List α) (a : α) : name (winner name gives as a) = name a := by
  unfold winner
  cases hfind : as.find? fun b => decide (name b = name a) && gives a b with
  | none => rfl
  | some b =>
    have hb := find?_some hfind
    simp only [Bool.and_eq_true, decide_eq_true_eq] at hb
    exact hb.1

theorem map_name_winner (as bs : List α) : (bs.map (winner name gives as)).map name = bs.map name := by
  rw [map_map]
  exact map_congr_left fun b _ => name_winner name gives as b

variable {gives}

theorem winner_concat (hgives : ∀ a b c, gives a b = true → gives b c = false) (as : List α) (a x : α) :
    winner name gives (as ++ [x]) a =
      if name (winner name gives as a) = name x ∧ gives (winner name gives as a) x = true then x
      else winner name gives as a := by
  rw [name_winner name gives]
  unfold winner
  rw [find?_append]
  cases hfind : as.find? fun b => decide (name b = name a) && gives a b with
  | some b =>
    have hb := find?_some hfind
    simp only [Bool.and_eq_true, decide_eq_true_eq] at hb
    have hstays : gives b x = false := hgives a b x hb.2
    simp [hstays]
  | none =>
    rw [Option.none_or, Option.getD_none]
    by_cases hx : name a = name x ∧ gives a x = true
    · rw [if_pos hx]
      simp [hx.1, hx.2]
    · rw [if_neg hx]
      have hnot : (decide (name x = name a) && gives a x) = false := by
        rw [Bool.eq_false_iff, Ne, Bool.and_eq_true, decide_eq_true_eq]
        exact fun h => hx ⟨h.1.symm, h.2⟩
      simp [hnot]

theorem foldl_seat (hgives : ∀ a b c, gives a b = true → gives b c = false) (as : List α) :
    as.foldl (seat name gives) [] = (firsts name as).map (winner name gives as) := by
  induction as using List.reverseRecOn with
  | nil => rfl
  | append_singleton as x ih =>
    rw [foldl_concat, ih, seat, map_name_winner, firsts_concat, keepFirst]
    by_cases hmet : name x ∈ (firsts name as).map name
    · rw [if_pos hmet, if_pos hmet, map_map]
      apply map_congr_left
      intro a ha
      rw [winner_concat name hgives, Function.comp_apply]
    · have hself : winner name gives (as ++ [x]) x = x := by
        rw [winner_concat name hgives]
        have hnone : winner name gives as x = x := by
          have hfind : as.find? (fun b => decide (name b = name x) && gives x b) = none := by
            rw [find?_eq_none]
            intro b hb hfound
            simp only [Bool.and_eq_true, decide_eq_true_eq] at hfound
            apply hmet
            rw [mem_map_firsts_iff, ← hfound.1]
            exact mem_map_of_mem hb
          rw [winner, hfind, Option.getD_none]
        rw [hnone, ite_self]
      rw [if_neg hmet, if_neg hmet, map_append, map_singleton, hself]
      congr 1
      apply map_congr_left
      intro a ha
      have hother : name a ≠ name x := fun h => hmet (h ▸ mem_map_of_mem ha)
      rw [winner_concat name hgives, name_winner name gives, if_neg fun h => hother h.1]

def Indexed (kept : List α) (index : κ → Option Nat) : Prop :=
  ∀ k i, index k = some i ↔ ∃ a, kept[i]? = some a ∧ name a = k

variable {name} {kept : List α} {index : κ → Option Nat}

omit [DecidableEq κ] in
theorem Indexed.nil : Indexed name [] fun _ => none := by
  intro k i
  simp

omit [DecidableEq κ] in
theorem Indexed.eq_none_iff (h : Indexed name kept index) (k : κ) : index k = none ↔ k ∉ kept.map name := by
  rw [mem_map]
  constructor
  · intro hnone hmem
    rcases hmem with ⟨a, ha, hk⟩
    rcases mem_iff_getElem?.mp ha with ⟨i, hi⟩
    have hsome := (h k i).mpr ⟨a, hi, hk⟩
    rw [hnone] at hsome
    exact absurd hsome nofun
  · intro hout
    cases hindex : index k with
    | none => rfl
    | some i =>
      rcases (h k i).mp hindex with ⟨a, ha, hk⟩
      exact absurd ⟨a, mem_of_getElem? ha, hk⟩ hout

omit [DecidableEq κ] in
theorem Indexed.nodup (h : Indexed name kept index) : (kept.map name).Nodup := by
  rw [nodup_iff_pairwise_ne, pairwise_iff_getElem]
  intro i j hi hj hij heq
  rw [length_map] at hi hj
  rw [getElem_map, getElem_map] at heq
  have hati : index (name kept[i]) = some i := (h _ _).mpr ⟨_, getElem?_eq_getElem hi, rfl⟩
  have hatj : index (name kept[i]) = some j := (h _ _).mpr ⟨_, getElem?_eq_getElem hj, heq.symm⟩
  have hsame := Option.some.inj (hati.symm.trans hatj)
  omega

theorem Indexed.push (h : Indexed name kept index) {a : α} (hnew : index (name a) = none) :
    Indexed name (kept ++ [a]) (update index (name a) kept.length) := by
  intro k i
  by_cases hk : k = name a
  · rw [hk, update_self]
    constructor
    · intro hi
      rw [← Option.some.inj hi]
      exact ⟨a, getElem?_concat_length, rfl⟩
    · intro hb
      rcases hb with ⟨b, hb, hname⟩
      rw [getElem?_append] at hb
      split at hb
      next hlt =>
        rw [(h _ _).mpr ⟨b, hb, hname⟩] at hnew
        exact absurd hnew nofun
      next hge =>
        have hzero : i - kept.length = 0 := by
          have hlt := (List.getElem?_eq_some_iff.mp hb).1
          rw [length_singleton] at hlt
          omega
        exact congrArg some (by omega)
  · rw [update_of_ne _ _ hk, h]
    constructor
    · intro hb
      rcases hb with ⟨b, hb, hname⟩
      exact ⟨b, by rw [getElem?_append_left (List.getElem?_eq_some_iff.mp hb).1, hb], hname⟩
    · intro hb
      rcases hb with ⟨b, hb, hname⟩
      rw [getElem?_append] at hb
      split at hb
      next => exact ⟨b, hb, hname⟩
      next =>
        have hlast : b = a := by
          rw [← mem_singleton]
          exact mem_of_getElem? hb
        exact absurd (hname.symm.trans (congrArg name hlast)) hk

omit [DecidableEq κ] in
theorem Indexed.set (h : Indexed name kept index) {a : α} {i : Nat} (hi : index (name a) = some i) :
    Indexed name (kept.set i a) index := by
  intro k j
  rw [h, getElem?_set]
  by_cases hij : i = j
  · rcases (h _ _).mp hi with ⟨b, hb, hname⟩
    have hlt : j < kept.length := hij ▸ (List.getElem?_eq_some_iff.mp hb).1
    rw [if_pos hij, ← hij, hb]
    rw [← hij] at hlt
    simp [hlt, hname]
  · rw [if_neg hij]

theorem Indexed.seat_eq (h : Indexed name kept index) {a b : α} {i : Nat} (hi : index (name a) = some i)
    (hb : kept[i]? = some b) : seat name gives kept a = if gives b a = true then kept.set i a else kept := by
  have hname : name b = name a := by
    rcases (h _ _).mp hi with ⟨c, hc, hname⟩
    rw [hb] at hc
    rw [Option.some.inj hc, hname]
  have hmet : name a ∈ kept.map name := by
    rw [← hname]
    exact mem_map_of_mem (mem_of_getElem? hb)
  -- no other element has the name
  have honly : ∀ j c, kept[j]? = some c → name c = name a → j = i := by
    intro j c hc hsame
    have hj := (h (name a) j).mpr ⟨c, hc, hsame⟩
    rw [hi] at hj
    exact (Option.some.inj hj).symm
  rw [seat, if_pos hmet]
  apply ext_getElem?
  intro j
  rw [getElem?_map]
  by_cases hij : j = i
  · rw [hij, hb, Option.map_some]
    by_cases hgives : gives b a = true
    · have hlt : i < kept.length := (List.getElem?_eq_some_iff.mp hb).1
      rw [if_pos ⟨hname, hgives⟩, if_pos hgives, getElem?_set_self hlt]
    · rw [if_neg fun hboth => hgives hboth.2, if_neg hgives, hb]
  · have hrest : (if gives b a = true then kept.set i a else kept)[j]? = kept[j]? := by
      split
      · exact getElem?_set_ne (Ne.symm hij)
      · rfl
    rw [hrest]
    cases hj : kept[j]? with
    | none => rfl
    | some c =>
      have hother : ¬ (name c = name a ∧ gives c a = true) := fun hboth => hij (honly j c hj hboth.1)
      rw [Option.map_some, if_neg hother]

end Lsof.Basis
