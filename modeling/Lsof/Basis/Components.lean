import Mathlib

/-! # Components of a path

A path is scanned from its start: a component is the next element, whatever it
is, and all up to the separator after it. So a component begins with the
separator before it, and of two separators in a row the first is a component.
-/

namespace Lsof.Basis

open List

variable {α : Type} [DecidableEq α] (sep : α)

def components : List α → List (List α)
  | [] => []
  | [a] => [[a]]
  | a :: b :: rest =>
    if b = sep then [a] :: components (b :: rest)
    else match components (b :: rest) with
      | [] => [[a]]
      | first :: more => (a :: first) :: more

/-- The end of a component: the end of the path, or a separator past its first
element. -/
def IsEnd (path : List α) (e : Nat) : Prop := 0 < e ∧ (e = path.length ∨ path[e]? = some sep)

theorem components_ne_nil {a : α} {rest : List α} : components sep (a :: rest) ≠ [] := by
  cases rest with
  | nil => exact cons_ne_nil _ _
  | cons b rest =>
    rw [components]
    split
    · exact cons_ne_nil _ _
    · split <;> exact cons_ne_nil _ _

theorem components_cons (a : α) (rest : List α) :
    components sep (a :: rest) = (a :: rest.takeWhile (· != sep)) :: components sep (rest.dropWhile (· != sep)) := by
  induction rest generalizing a with
  | nil => rfl
  | cons b rest ih =>
    rw [components]
    by_cases hb : b = sep
    · rw [if_pos hb, takeWhile_cons_of_neg (by simp [hb]), dropWhile_cons_of_neg (by simp [hb])]
    · rw [if_neg hb, ih, takeWhile_cons_of_pos (by simpa using hb), dropWhile_cons_of_pos (by simpa using hb)]

theorem flatten_components (path : List α) : (components sep path).flatten = path := by
  induction path with
  | nil => rfl
  | cons a rest ih =>
    cases rest with
    | nil => rfl
    | cons b rest =>
      rw [components]
      split
      · rw [flatten_cons, ih]
        rfl
      · split
        next hnil => exact absurd hnil (components_ne_nil sep)
        next first more hcons =>
          rw [hcons] at ih
          rw [flatten_cons, cons_append, ← flatten_cons, ih]

theorem ne_nil_of_mem_components {path comp : List α} (h : comp ∈ components sep path) : comp ≠ [] := by
  induction path generalizing comp with
  | nil => exact absurd h not_mem_nil
  | cons a rest ih =>
    cases rest with
    | nil => exact mem_singleton.mp h ▸ cons_ne_nil _ _
    | cons b rest =>
      rw [components] at h
      split at h
      · rcases mem_cons.mp h with rfl | hmore
        · exact cons_ne_nil _ _
        · exact ih hmore
      · split at h
        · exact mem_singleton.mp h ▸ cons_ne_nil _ _
        next first more hcons =>
          rcases mem_cons.mp h with rfl | hmore
          · exact cons_ne_nil _ _
          · exact ih (hcons ▸ mem_cons_of_mem _ hmore)

theorem subset_of_mem_components {path comp : List α} (h : comp ∈ components sep path) : comp ⊆ path := by
  intro x hx
  have hmem : x ∈ (components sep path).flatten := mem_flatten.mpr ⟨comp, h, hx⟩
  rwa [flatten_components] at hmem

section Scan

variable {path : List α} {start : Nat} {a : α} {rest : List α} (h : path.drop start = a :: rest)

include h

theorem take_component : path.take (start + (a :: rest.takeWhile (· != sep)).length) =
    path.take start ++ (a :: rest.takeWhile (· != sep)) := by
  have hrest : a :: rest = (a :: rest.takeWhile (· != sep)) ++ rest.dropWhile (· != sep) := by
    rw [cons_append, takeWhile_append_dropWhile]
  rw [take_add, h]
  congr 1
  conv_lhs => rw [hrest]
  exact take_left' rfl

theorem drop_component : path.drop (start + (a :: rest.takeWhile (· != sep)).length) = rest.dropWhile (· != sep) := by
  have hrest : a :: rest = (a :: rest.takeWhile (· != sep)) ++ rest.dropWhile (· != sep) := by
    rw [cons_append, takeWhile_append_dropWhile]
  rw [← drop_drop, h]
  conv_lhs => rw [hrest]
  exact drop_left' rfl

omit [DecidableEq α] in
theorem length_of_drop : path.length = start + 1 + rest.length := by
  have hlen := congrArg List.length h
  rw [length_drop, length_cons] at hlen
  omega

theorem component_end_le : start + (a :: rest.takeWhile (· != sep)).length ≤ path.length := by
  have hlen := length_of_drop h
  have htake : (rest.takeWhile (· != sep)).length ≤ rest.length := (takeWhile_sublist _).length_le
  rw [length_cons]
  omega

theorem isEnd_component : IsEnd sep path (start + (a :: rest.takeWhile (· != sep)).length) := by
  refine ⟨by rw [length_cons]; omega, ?_⟩
  have hle := component_end_le sep h
  have hdrop := drop_component sep h
  cases hafter : rest.dropWhile (· != sep) with
  | nil =>
    rw [hafter] at hdrop
    have hge := drop_eq_nil_iff.mp hdrop
    exact .inl (Nat.le_antisymm hle hge)
  | cons b after =>
    have hsep := head?_dropWhile_not (· != sep) rest
    rw [hafter] at hsep hdrop
    refine .inr ?_
    have hat : path[start + (a :: rest.takeWhile (· != sep)).length]? =
        (path.drop (start + (a :: rest.takeWhile (· != sep)).length))[0]? := by rw [getElem?_drop, Nat.add_zero]
    rw [hat, hdrop]
    simpa using hsep

theorem eq_of_isEnd_component {e : Nat} (he : IsEnd sep path e) (hlt : start < e)
    (hle : e ≤ start + (a :: rest.takeWhile (· != sep)).length) :
    e = start + (a :: rest.takeWhile (· != sep)).length := by
  by_contra hne
  have hbound := component_end_le sep h
  have hsep : path[e]? = some sep := he.2.resolve_left (by omega)
  have hin : path[e]? = (rest.takeWhile (· != sep))[e - start - 1]? := by
    rw [length_cons] at hle hne
    have hat : path[e]? = (path.drop start)[e - start]? := by
      rw [getElem?_drop]
      congr 1
      omega
    have hsucc : e - start = (e - start - 1) + 1 := by omega
    rw [hat, h, hsucc, getElem?_cons_succ]
    conv_lhs => rw [← @List.takeWhile_append_dropWhile _ (· != sep) rest]
    rw [getElem?_append_left (by omega)]
    congr 1
  have hmem := mem_of_getElem? (hin.symm.trans hsep)
  exact absurd (mem_takeWhile_imp hmem) (by simp)

end Scan

omit [DecidableEq α] in
theorem isEnd_of_begins {sep : α} {path next : List α} {kept e : Nat} (hbegins : path.take kept <+: next)
    (hkept : IsEnd sep path kept) (he : IsEnd sep next e) (hle : e ≤ kept) :
    IsEnd sep path e ∧ next.take e = path.take e := by
  obtain ⟨more, rfl⟩ := hbegins
  have hwithin : kept ≤ path.length := by
    rcases hkept.2 with hend | hsep
    · omega
    · exact Nat.le_of_lt (List.getElem?_eq_some_iff.mp hsep).1
  have hlen : (path.take kept).length = kept := length_take_of_le hwithin
  have htake : (path.take kept ++ more).take e = path.take e := by
    rw [take_append_of_le_length (by omega), take_take, Nat.min_eq_left hle]
  refine ⟨?_, htake⟩
  rcases Nat.eq_or_lt_of_le hle with heq | hlt
  · exact heq ▸ hkept
  · have hnot : e ≠ (path.take kept ++ more).length := by
      rw [length_append]
      omega
    have hsep := he.2.resolve_left hnot
    rw [getElem?_append_left (by omega), getElem?_take_of_lt hlt] at hsep
    exact ⟨he.1, .inr hsep⟩

end Lsof.Basis
