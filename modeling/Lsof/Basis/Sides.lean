import Lsof.Basis.Firsts

/-! # Two sides that share nothing

Elements are given one after another for one of two sides, and the first time a
name is given decides the side it is on: given again it is refused, or is there
already. Each side keeps the order in which its names were first given.
-/

namespace Lsof.Basis

open List

variable {α κ : Type} [DecidableEq κ] (name : α → κ)

/-- What is on a side once all of `given` was given. -/
def onSide (side : Bool) (given : List (Bool × α)) : List α :=
  ((firsts (fun g => name g.2) given).filter fun g => g.1 == side).map Prod.snd

variable {name} {given : List (Bool × α)} {side : Bool}

theorem mem_map_onSide {k : κ} (h : k ∈ (onSide name side given).map name) : k ∈ given.map fun g => name g.2 := by
  rcases mem_map.mp h with ⟨a, ha, hk⟩
  rcases mem_map.mp ha with ⟨g, hg, hga⟩
  have hfirst := mem_of_mem_firsts _ (mem_filter.mp hg).1
  rw [← hk, ← hga]
  exact mem_map_of_mem hfirst

theorem mem_onSide_or {k : κ} (h : k ∈ given.map fun g => name g.2) (side : Bool) :
    k ∈ (onSide name side given).map name ∨ k ∈ (onSide name (!side) given).map name := by
  rcases mem_map.mp ((mem_map_firsts_iff (fun g : Bool × α => name g.2) given k).mpr h) with ⟨g, hg, hk⟩
  have hside : ∀ s, g.1 = s → k ∈ (onSide name s given).map name := by
    intro s hs
    have hkept : g ∈ (firsts (fun g => name g.2) given).filter fun g => g.1 == s :=
      mem_filter.mpr ⟨hg, beq_iff_eq.mpr hs⟩
    rw [← hk]
    exact mem_map_of_mem (mem_map_of_mem hkept)
  by_cases hs : g.1 = side
  · exact Or.inl (hside side hs)
  · exact Or.inr (hside (!side) (Bool.eq_not.mpr hs))

variable (name) in
theorem nodup_onSide (side : Bool) (given : List (Bool × α)) : ((onSide name side given).map name).Nodup := by
  have hall := nodup_map_firsts (fun g : Bool × α => name g.2) given
  unfold onSide
  rw [map_map]
  exact hall.sublist (filter_sublist.map _)

variable (name) in
theorem disjoint_onSide (given : List (Bool × α)) :
    List.Disjoint ((onSide name false given).map name) ((onSide name true given).map name) := by
  intro k hincluded hexcluded
  rcases mem_map.mp hincluded with ⟨a, ha, hak⟩
  rcases mem_map.mp hexcluded with ⟨b, hb, hbk⟩
  rcases mem_map.mp ha with ⟨g, hg, hga⟩
  rcases mem_map.mp hb with ⟨g', hg', hgb⟩
  rcases mem_filter.mp hg with ⟨hgfirst, hgside⟩
  rcases mem_filter.mp hg' with ⟨hgfirst', hgside'⟩
  have hname : name g.2 = name g'.2 := by rw [hga, hgb, hak, hbk]
  have hsame := eq_of_mem_firsts (fun g : Bool × α => name g.2) hgfirst hgfirst' hname
  rw [hsame, eq_of_beq hgside'] at hgside
  cases hgside

theorem onSide_concat_of_met {s : Bool} {a : α} (h : name a ∈ given.map fun g => name g.2) :
    onSide name side (given ++ [(s, a)]) = onSide name side given := by
  unfold onSide
  rw [firsts_concat_of_mem (fun g : Bool × α => name g.2) h]

theorem onSide_concat_of_new {s : Bool} {a : α} (h : name a ∉ given.map fun g => name g.2) :
    onSide name side (given ++ [(s, a)]) = onSide name side given ++ if s = side then [a] else [] := by
  unfold onSide
  rw [firsts_concat_of_not_mem (fun g : Bool × α => name g.2) h, filter_append, map_append]
  by_cases hs : s = side
  · simp [hs]
  · simp [hs]

theorem onSide_concat (s : Bool) (a : α) (given : List (Bool × α)) :
    onSide name s (given ++ [(s, a)]) =
      if name a ∈ (onSide name (!s) given).map name then onSide name s given
      else if name a ∈ (onSide name s given).map name then onSide name s given
      else onSide name s given ++ [a] := by
  by_cases hother : name a ∈ (onSide name (!s) given).map name
  · rw [if_pos hother, onSide_concat_of_met (mem_map_onSide hother)]
  · rw [if_neg hother]
    by_cases hthis : name a ∈ (onSide name s given).map name
    · rw [if_pos hthis, onSide_concat_of_met (mem_map_onSide hthis)]
    · have hnew : name a ∉ given.map fun g => name g.2 := by
        intro hmem
        rcases mem_onSide_or hmem s with h | h
        · exact hthis h
        · exact hother h
      rw [if_neg hthis, onSide_concat_of_new hnew, if_pos rfl]

theorem onSide_not_concat (s : Bool) (a : α) (given : List (Bool × α)) :
    onSide name (!s) (given ++ [(s, a)]) = onSide name (!s) given := by
  by_cases hmet : name a ∈ given.map fun g => name g.2
  · exact onSide_concat_of_met hmet
  · rw [onSide_concat_of_new hmet]
    cases s with
    | true => exact append_nil _
    | false => exact append_nil _

end Lsof.Basis
