import Mathlib

/-! # The first of each name

A pass over a list that keeps an element only where none of the same name has
come before. What is kept is described by membership: the element that a
search for its own name finds.
-/

namespace Lsof.Basis

open List

variable {α κ : Type} [DecidableEq κ] (name : α → κ)

def keepFirst (kept : List α) (a : α) : List α :=
  if name a ∈ kept.map name then kept else kept ++ [a]

def firsts (as : List α) : List α := as.foldl (keepFirst name) []

@[simp] theorem firsts_nil : firsts name ([] : List α) = [] := rfl

theorem firsts_concat (as : List α) (a : α) : firsts name (as ++ [a]) = keepFirst name (firsts name as) a := by
  simp [firsts]

theorem mem_map_firsts_iff (as : List α) (k : κ) : k ∈ (firsts name as).map name ↔ k ∈ as.map name := by
  induction as using List.reverseRecOn with
  | nil => rfl
  | append_singleton as a ih =>
    rw [firsts_concat, keepFirst]
    by_cases hmet : name a ∈ (firsts name as).map name
    · rw [if_pos hmet, ih, map_append, mem_append]
      refine ⟨Or.inl, fun h => h.elim id fun hlast => ?_⟩
      -- the last name was met before, so it adds none
      have hname : k = name a := by simpa using hlast
      rw [hname] at ih ⊢
      exact ih.mp hmet
    · rw [if_neg hmet, map_append, mem_append, ih, map_append, mem_append]

variable {as : List α}

theorem firsts_concat_of_mem {a : α} (h : name a ∈ as.map name) : firsts name (as ++ [a]) = firsts name as := by
  rw [firsts_concat, keepFirst, if_pos ((mem_map_firsts_iff name as _).mpr h)]

theorem firsts_concat_of_not_mem {a : α} (h : name a ∉ as.map name) :
    firsts name (as ++ [a]) = firsts name as ++ [a] := by
  rw [firsts_concat, keepFirst, if_neg (mt (mem_map_firsts_iff name as _).mp h)]

theorem find?_eq_none_iff_not_mem_map (as : List α) (k : κ) :
    as.find? (fun a => name a = k) = none ↔ k ∉ as.map name := by
  simp only [find?_eq_none, decide_eq_true_eq, mem_map, not_exists, not_and]

theorem mem_firsts_iff (as : List α) (a : α) : a ∈ firsts name as ↔ as.find? (fun b => name b = name a) = some a := by
  induction as using List.reverseRecOn with
  | nil => simp
  | append_singleton as b ih =>
    rw [firsts_concat, keepFirst, find?_append]
    by_cases hmet : name b ∈ (firsts name as).map name
    · rw [if_pos hmet, ih]
      by_cases hname : name b = name a
      · -- a search for this name has already ended among the earlier elements
        have hfound : as.find? (fun b => name b = name a) ≠ none := by
          rw [Ne, find?_eq_none_iff_not_mem_map, not_not, ← hname]
          exact (mem_map_firsts_iff name as _).mp hmet
        obtain ⟨c, hc⟩ := Option.ne_none_iff_exists'.mp hfound
        rw [hc, Option.some_or]
      · simp [hname]
    · rw [if_neg hmet, mem_append, mem_singleton, ih]
      by_cases hname : name b = name a
      · have hnone : as.find? (fun b => name b = name a) = none := by
          rw [find?_eq_none_iff_not_mem_map, ← hname]
          exact fun h => hmet ((mem_map_firsts_iff name as _).mpr h)
        rw [hnone, Option.none_or]
        simp [hname, @eq_comm _ b a]
      · have hne : a ≠ b := fun h => hname (h ▸ rfl)
        simp [hname, hne]

theorem mem_of_mem_firsts {a : α} (h : a ∈ firsts name as) : a ∈ as :=
  mem_of_find?_eq_some ((mem_firsts_iff name as a).mp h)

theorem eq_of_mem_firsts {a b : α} (ha : a ∈ firsts name as)
    (hb : b ∈ firsts name as) (h : name a = name b) : a = b := by
  rw [mem_firsts_iff] at ha hb
  rw [h, hb] at ha
  exact (Option.some.inj ha).symm

theorem nodup_map_firsts (as : List α) : ((firsts name as).map name).Nodup := by
  induction as using List.reverseRecOn with
  | nil => exact nodup_nil
  | append_singleton as a ih =>
    rw [firsts_concat, keepFirst]
    split
    next => exact ih
    next hfresh =>
      rw [map_append, map_singleton]
      exact nodup_append.mpr ⟨ih, by simp, fun x hx y hy hxy =>
        hfresh (mem_singleton.mp hy ▸ hxy ▸ hx)⟩

theorem firsts_congr {κ' : Type} [DecidableEq κ'] {name : α → κ} {name' : α → κ'}
    (h : ∀ a b, name a = name b ↔ name' a = name' b) (as : List α) : firsts name as = firsts name' as := by
  induction as using List.reverseRecOn with
  | nil => rfl
  | append_singleton as a ih =>
    have hmet : name a ∈ (firsts name' as).map name ↔ name' a ∈ (firsts name' as).map name' := by
      simp only [mem_map, h]
    rw [firsts_concat, firsts_concat, ih, keepFirst, keepFirst]
    by_cases hmem : name a ∈ (firsts name' as).map name
    · rw [if_pos hmem, if_pos (hmet.mp hmem)]
    · rw [if_neg hmem, if_neg (mt hmet.mpr hmem)]

theorem firsts_map {β : Type} (f : β → α) (bs : List β) : firsts name (bs.map f) = (firsts (name ∘ f) bs).map f := by
  induction bs using List.reverseRecOn with
  | nil => rfl
  | append_singleton bs b ih =>
    rw [map_append, map_singleton, firsts_concat, firsts_concat, ih, keepFirst, keepFirst,
      map_map, Function.comp_apply]
    split
    next => rfl
    next => rw [map_append, map_singleton]

end Lsof.Basis
