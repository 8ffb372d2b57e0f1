import Mathlib

/-! # Placing elements into a list

An element is placed before the first one that belongs behind it, or last. The
list it is placed in stays a sublist, and placing several adds exactly those.
Where the elements listed and the elements placed are drawn from one list whose
order the test respects, the outcome is that list again without the rest.
-/

namespace Lsof.Basis

open List

variable {α : Type}

/-- Put an element before the first one the test says is behind it. -/
def place (behind : α → Bool) (as : List α) (x : α) : List α :=
  as.takeWhile (fun a => !behind a) ++ x :: as.dropWhile (fun a => !behind a)

theorem insertIdx_findIdx? (behind : α → Bool) (as : List α) (x : α) :
    as.insertIdx ((as.findIdx? behind).getD as.length) x = place behind as x := by
  induction as with
  | nil => rfl
  | cons a as ih =>
    unfold place at ih ⊢
    rw [findIdx?_cons, takeWhile_cons, dropWhile_cons]
    cases hb : behind a with
    | true => simp
    | false =>
      have hpos : ((as.findIdx? behind).map (fun i => i + 1)).getD (a :: as).length =
          (as.findIdx? behind).getD as.length + 1 := by
        cases as.findIdx? behind <;> rfl
      simpa [hpos] using ih

theorem place_perm (behind : α → Bool) (as : List α) (x : α) : (place behind as x).Perm (x :: as) := by
  unfold place
  have hsplit := @List.takeWhile_append_dropWhile _ (fun a => !behind a) as
  calc as.takeWhile (fun a => !behind a) ++ x :: as.dropWhile (fun a => !behind a)
      _ |>.Perm (x :: (as.takeWhile (fun a => !behind a) ++ as.dropWhile (fun a => !behind a))) :=
        perm_middle
      _ = x :: as := by rw [hsplit]

theorem sublist_place (behind : α → Bool) (as : List α) (x : α) : as.Sublist (place behind as x) := by
  have hsplit := @List.takeWhile_append_dropWhile _ (fun a => !behind a) as
  unfold place
  nth_rewrite 1 [← hsplit]
  exact (List.Sublist.refl _).append (sublist_cons_self _ _)

theorem place_between {behind : α → Bool} {before after : List α} (x : α)
    (hbefore : ∀ a ∈ before, behind a = false) (hafter : ∀ a ∈ after, behind a = true) :
    place behind (before ++ after) x = before ++ x :: after := by
  have htake : after.takeWhile (fun a => !behind a) = [] := by
    cases after with
    | nil => rfl
    | cons a after => simp [hafter a (mem_cons_self ..)]
  have hdrop : after.dropWhile (fun a => !behind a) = after := by
    cases after with
    | nil => rfl
    | cons a after => simp [hafter a (mem_cons_self ..)]
  have hpos : ∀ a ∈ before, (!behind a) = true := fun a ha => by simp [hbefore a ha]
  rw [place, takeWhile_append_of_pos hpos, dropWhile_append_of_pos hpos, htake, hdrop, append_nil]

variable (behind : α → α → Bool)

def placeAll (as xs : List α) : List α := xs.foldl (fun as x => place (behind x) as x) as

theorem placeAll_perm (as xs : List α) : (placeAll behind as xs).Perm (as ++ xs) := by
  induction xs generalizing as with
  | nil => simp [placeAll]
  | cons x xs ih =>
    calc placeAll behind (place (behind x) as x) xs
        _ |>.Perm (place (behind x) as x ++ xs) := ih _
        _ |>.Perm (x :: as ++ xs) := (place_perm _ as x).append_right xs
        _ |>.Perm (as ++ x :: xs) := perm_middle.symm

theorem sublist_placeAll (as xs : List α) : as.Sublist (placeAll behind as xs) := by
  induction xs generalizing as with
  | nil => exact List.Sublist.refl _
  | cons x xs ih => exact (sublist_place (behind x) as x).trans (ih _)

def either {ι : Type} (listed added : ι → Option α) (i : ι) : Option α := (listed i).or (added i)

theorem filterMap_either_perm {ι : Type} {listed added : ι → Option α} {items : List ι}
    (hexcl : ∀ i ∈ items, listed i = none ∨ added i = none) :
    (items.filterMap (either listed added)).Perm (items.filterMap listed ++ items.filterMap added) := by
  induction items with
  | nil => exact List.Perm.refl _
  | cons i items ih =>
    have hrest := ih fun j hj => hexcl j (mem_cons_of_mem i hj)
    rcases hexcl i (mem_cons_self ..) with hl | ha
    · cases ha : added i with
      | none =>
        have hor : either listed added i = none := by simp [either, hl, ha]
        rwa [filterMap_cons_none hl, filterMap_cons_none ha, filterMap_cons_none hor]
      | some x =>
        have hor : either listed added i = some x := by simp [either, hl, ha]
        rw [filterMap_cons_none hl, filterMap_cons_some ha, filterMap_cons_some hor]
        exact (hrest.cons x).trans perm_middle.symm
    · cases hl : listed i with
      | none =>
        have hor : either listed added i = none := by simp [either, hl, ha]
        rwa [filterMap_cons_none hl, filterMap_cons_none ha, filterMap_cons_none hor]
      | some b =>
        have hor : either listed added i = some b := by simp [either, hl]
        rw [filterMap_cons_some hl, filterMap_cons_none ha, filterMap_cons_some hor]
        exact hrest.cons b

/-- The elements of one list that are listed and those to be placed, where the
test keeps to the list's order for every element that is placed. -/
structure Placeable {ι : Type} (listed added : ι → Option α) (i j : ι) : Prop where
  later : ∀ x, added i = some x → ∀ b, listed j = some b → behind x b = true
  earlier : ∀ y, added j = some y → ∀ a, either listed added i = some a → behind y a = false

variable {behind}

theorem placeAll_merge {ι : Type} {listed added : ι → Option α} {items : List ι}
    (hexcl : ∀ i ∈ items, listed i = none ∨ added i = none)
    (hitems : items.Pairwise (Placeable behind listed added)) {before : List α}
    (hbefore : ∀ x ∈ items.filterMap added, ∀ a ∈ before, behind x a = false) :
    placeAll behind (before ++ items.filterMap listed) (items.filterMap added) =
      before ++ items.filterMap (either listed added) := by
  induction items generalizing before with
  | nil => rfl
  | cons i items ih =>
    rw [pairwise_cons] at hitems
    have hrest := @ih (fun j hj => hexcl j (mem_cons_of_mem i hj)) hitems.2
    have hsub : ∀ x ∈ items.filterMap added, x ∈ (i :: items).filterMap added := fun x hx =>
      ((sublist_cons_self i items).filterMap added).subset hx
    -- whichever way the first element is listed, the ones to come go after it
    have hgrow : ∀ b, either listed added i = some b →
        ∀ x ∈ items.filterMap added, ∀ a ∈ before ++ [b], behind x a = false := by
      intro b hb x hx a ha
      rcases mem_append.mp ha with ha | ha
      · exact hbefore x (hsub x hx) a ha
      · obtain ⟨j, hj, hxj⟩ := mem_filterMap.mp hx
        rw [mem_singleton.mp ha]
        exact (hitems.1 j hj).earlier x hxj b hb
    cases hl : listed i with
    | some b =>
      have hnone : added i = none := (hexcl i (mem_cons_self ..)).resolve_left (by simp [hl])
      have hor : either listed added i = some b := by simp [either, hl]
      rw [filterMap_cons_some hl, filterMap_cons_none hnone, filterMap_cons_some hor]
      simpa using hrest (hgrow b hor)
    | none =>
      cases ha : added i with
      | none =>
        have hor : either listed added i = none := by simp [either, hl, ha]
        rw [filterMap_cons_none hl, filterMap_cons_none ha, filterMap_cons_none hor]
        exact hrest (fun x hx => hbefore x (hsub x hx))
      | some x =>
        have hor : either listed added i = some x := by simp [either, hl, ha]
        have hafter : ∀ b ∈ items.filterMap listed, behind x b = true := by
          intro b hb
          obtain ⟨j, hj, hbj⟩ := mem_filterMap.mp hb
          exact (hitems.1 j hj).later x ha b hbj
        have hplace : place (behind x) (before ++ items.filterMap listed) x =
            before ++ x :: items.filterMap listed :=
          place_between x (hbefore x (by simp [ha])) hafter
        rw [filterMap_cons_none hl, filterMap_cons_some ha, filterMap_cons_some hor, placeAll, foldl_cons, hplace]
        simpa [placeAll] using hrest (hgrow x hor)

end Lsof.Basis
