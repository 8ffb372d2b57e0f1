import Lsof.Basis.Chain

/-! # Pairing what faces each other

Items are taken in order; one that has no partner yet is given the first item
without one that faces it. When facing is symmetric the outcome is a matching:
the partners of partners are the items themselves, only items that face each
other are partners, and no two that do are both left over.
-/

namespace Lsof.Basis

open List

variable {α κ : Type} [DecidableEq κ] (id : α → κ) (faces : α → α → Bool)

def pairStep (items : List α) (peer : κ → Option κ) (a : α) : κ → Option κ :=
  if (peer (id a)).isSome then peer
  else
    match ((items.filter (faces a)).map id).find? (fun k => (peer k).isNone) with
    | some k => update (update peer (id a) k) k (id a)
    | none => peer

def pairAll (items : List α) : κ → Option κ :=
  items.foldl (pairStep id faces items) (fun _ => none)

theorem pairStep_cases (items : List α) (peer : κ → Option κ) (a : α) :
    (∃ c ∈ items, faces a c = true ∧ peer (id a) = none ∧ peer (id c) = none ∧
      pairStep id faces items peer a = update (update peer (id a) (id c)) (id c) (id a)) ∨
    (pairStep id faces items peer a = peer ∧
      ∀ c ∈ items, faces a c = true → peer (id a) ≠ none ∨ peer (id c) ≠ none) := by
  unfold pairStep
  by_cases hfree : (peer (id a)).isSome
  · rw [if_pos hfree]
    exact Or.inr ⟨rfl, fun _ _ _ => Or.inl (Option.isSome_iff_ne_none.mp hfree)⟩
  · rw [if_neg hfree]
    have hnone : peer (id a) = none := by simpa using hfree
    cases hfind : ((items.filter (faces a)).map id).find? (fun k => (peer k).isNone) with
    | some k =>
      have hk := mem_of_find?_eq_some hfind
      have hfreek := find?_some hfind
      obtain ⟨c, hc, rfl⟩ := mem_map.mp hk
      obtain ⟨hmem, hfaces⟩ := mem_filter.mp hc
      exact Or.inl ⟨c, hmem, hfaces, hnone, by simpa using hfreek, rfl⟩
    | none =>
      refine Or.inr ⟨rfl, fun c hmem hfaces => Or.inr ?_⟩
      have hk := find?_eq_none.mp hfind (id c)
        (mem_map.mpr ⟨c, mem_filter.mpr ⟨hmem, hfaces⟩, rfl⟩)
      simpa using hk

structure Matching (items : List α) (peer : κ → Option κ) : Prop where
  symm : ∀ {k l}, peer k = some l → peer l = some k
  facing : ∀ {k l}, peer k = some l →
    ∃ a ∈ items, ∃ b ∈ items, id a = k ∧ id b = l ∧ faces a b = true

omit [DecidableEq κ] in
theorem Matching.empty (items : List α) : Matching id faces items (fun _ => none) where
  symm := by simp
  facing := by simp

variable {id faces}

variable {peer : κ → Option κ}

theorem update_update_eq_some_iff {k l : κ} (hk : peer k = none) (hl : peer l = none) (x y : κ) :
    update (update peer k l) l k x = some y ↔ peer x = some y ∨ (x = k ∧ y = l) ∨ (x = l ∧ y = k) := by
  unfold update
  by_cases hxl : x = l
  · rw [if_pos hxl, hxl, hl]
    by_cases hkl : k = l <;> simp [hkl, eq_comm]
  · rw [if_neg hxl]
    by_cases hxk : x = k
    · rw [if_pos hxk, hxk, hk]
      have : k ≠ l := hxk ▸ hxl
      simp [this, eq_comm]
    · simp [hxk, hxl]

variable {items : List α}

theorem Matching.step (hfaces : ∀ a b, faces a b = faces b a)
    (h : Matching id faces items peer) {a : α} (ha : a ∈ items) :
    Matching id faces items (pairStep id faces items peer a) := by
  obtain ⟨c, hc, hac, hfreea, hfreec, heq⟩ | ⟨heq, -⟩ := pairStep_cases id faces items peer a
  · rw [heq]
    have hmem := update_update_eq_some_iff hfreea hfreec
    refine ⟨fun {k l} hkl => ?_, fun {k l} hkl => ?_⟩
    · rw [hmem] at hkl ⊢
      rcases hkl with hkl | ⟨rfl, rfl⟩ | ⟨rfl, rfl⟩
      · exact Or.inl (h.symm hkl)
      · exact Or.inr (Or.inr ⟨rfl, rfl⟩)
      · exact Or.inr (Or.inl ⟨rfl, rfl⟩)
    · rw [hmem] at hkl
      rcases hkl with hkl | ⟨rfl, rfl⟩ | ⟨rfl, rfl⟩
      · exact h.facing hkl
      · exact ⟨a, ha, c, hc, rfl, rfl, hac⟩
      · exact ⟨c, hc, a, ha, rfl, rfl, hfaces a c ▸ hac⟩
  · rw [heq]
    exact h

theorem pairStep_grows (a : α) {k : κ} (hk : peer k ≠ none) : pairStep id faces items peer a k ≠ none := by
  obtain ⟨c, -, -, hfreea, hfreec, heq⟩ | ⟨heq, -⟩ := pairStep_cases id faces items peer a
  · rw [heq]
    obtain ⟨l, hl⟩ := Option.ne_none_iff_exists'.mp hk
    have := (update_update_eq_some_iff hfreea hfreec k l).mpr (Or.inl hl)
    simp [this]
  · rwa [heq]

theorem pairStep_settles (peer : κ → Option κ) {a c : α} (hc : c ∈ items) (hac : faces a c = true) :
    pairStep id faces items peer a (id a) ≠ none ∨ pairStep id faces items peer a (id c) ≠ none := by
  obtain ⟨d, -, -, hfreea, hfreed, heq⟩ | ⟨heq, hnone⟩ := pairStep_cases id faces items peer a
  · have := (update_update_eq_some_iff hfreea hfreed (id a) (id d)).mpr (Or.inr (Or.inl ⟨rfl, rfl⟩))
    exact Or.inl (by rw [heq, this]; exact Option.some_ne_none _)
  · rw [heq]
    exact hnone c hc hac

theorem foldl_pairStep_grows (as : List α) {k : κ} (hk : peer k ≠ none) :
    as.foldl (pairStep id faces items) peer k ≠ none := by
  induction as generalizing peer with
  | nil => exact hk
  | cons a as ih => exact ih (pairStep_grows a hk)

theorem foldl_pairStep_settles {as : List α} (peer : κ → Option κ) {a c : α} (ha : a ∈ as)
    (hc : c ∈ items) (hac : faces a c = true) :
    as.foldl (pairStep id faces items) peer (id a) ≠ none ∨
      as.foldl (pairStep id faces items) peer (id c) ≠ none := by
  induction as generalizing peer with
  | nil => simp at ha
  | cons b as ih =>
    rw [foldl_cons]
    rcases mem_cons.mp ha with rfl | ha
    · exact (pairStep_settles peer hc hac).imp (foldl_pairStep_grows as) (foldl_pairStep_grows as)
    · exact ih _ ha

theorem Matching.foldl (hfaces : ∀ a b, faces a b = faces b a) {as : List α} (has : as ⊆ items)
    (h : Matching id faces items peer) : Matching id faces items (as.foldl (pairStep id faces items) peer) := by
  induction as generalizing peer with
  | nil => exact h
  | cons a as ih =>
    rw [cons_subset] at has
    exact ih has.2 (h.step hfaces has.1)

theorem pairAll_matching (hfaces : ∀ a b, faces a b = faces b a) (items : List α) :
    Matching id faces items (pairAll id faces items) :=
  Matching.foldl hfaces (List.Subset.refl items) (Matching.empty id faces items)

theorem pairAll_maximal {a c : α} (ha : a ∈ items) (hc : c ∈ items) (hac : faces a c = true) :
    pairAll id faces items (id a) ≠ none ∨ pairAll id faces items (id c) ≠ none :=
  foldl_pairStep_settles _ ha hc hac

end Lsof.Basis
