import Mathlib

/-! # Terminated tokens and marked groups

A sequence of tokens, each followed by a terminator that is in none of them, is
split back at the terminator. A sequence of groups, each begun by an element
that begins no other place, is split back at those elements.
-/

namespace Lsof.Basis

open List

variable {α : Type}

section Tokens

variable [BEq α] [LawfulBEq α]

def splitTerminated (term : α) (out : List α) : List (List α) := (out.splitOnP (· == term)).dropLast

theorem splitOn_of_not_mem {sep : α} {token : List α} (h : sep ∉ token) : token.splitOn sep = [token] := by
  rw [splitOn_eq_splitOnP]
  apply splitOnP_eq_singleton
  intro x hx
  simp only [beq_eq_false_iff_ne]
  exact fun hsep => h (hsep ▸ hx)

theorem splitOn_token {sep : α} {token : List α} (h : sep ∉ token) (rest : List α) :
    (token ++ sep :: rest).splitOn sep = token :: rest.splitOn sep := by
  have hcut : (token ++ sep :: rest).splitOnP (· == sep) =
      token.splitOnP (· == sep) ++ rest.splitOnP (· == sep) :=
    splitOnP_append_cons _ _ (beq_self_eq_true sep)
  rw [splitOn_eq_splitOnP, hcut, ← splitOn_eq_splitOnP, splitOn_of_not_mem h]
  rfl

theorem splitOn_flatMap {term : α} {tokens : List (List α)} (h : ∀ token ∈ tokens, term ∉ token) :
    (tokens.flatMap fun token => token ++ [term]).splitOn term = tokens ++ [[]] := by
  induction tokens with
  | nil => rfl
  | cons token tokens ih =>
    have hrest : ∀ t ∈ tokens, term ∉ t := fun t ht => h t (mem_cons_of_mem _ ht)
    rw [flatMap_cons, append_assoc, singleton_append,
      splitOn_token (h token mem_cons_self), ih hrest]
    rfl

theorem splitTerminated_flatMap {term : α} {tokens : List (List α)} (h : ∀ token ∈ tokens, term ∉ token) :
    splitTerminated term (tokens.flatMap fun token => token ++ [term]) = tokens := by
  rw [splitTerminated, ← splitOn_eq_splitOnP, splitOn_flatMap h, dropLast_concat]

theorem not_mem_of_mem_splitOn {sep : α} {xs piece : List α} (h : piece ∈ xs.splitOn sep) : sep ∉ piece := by
  induction xs generalizing piece with
  | nil => exact mem_singleton.mp h ▸ not_mem_nil
  | cons x xs ih =>
    rw [splitOn_cons_eq_if_modifyHead] at h
    split at h
    · rcases mem_cons.mp h with rfl | hmore
      · exact not_mem_nil
      · exact ih hmore
    next hx =>
      cases hsplit : xs.splitOn sep with
      | nil => simp [hsplit] at h
      | cons first more =>
        rw [hsplit] at h ih
        rcases mem_cons.mp h with rfl | hmore
        · intro hmem
          rcases mem_cons.mp hmem with rfl | hfirst
          · exact hx (beq_self_eq_true _)
          · exact ih mem_cons_self hfirst
        · exact ih (mem_cons_of_mem _ hmore)

end Tokens

def groupAt (begins : α → Bool) : List α → List (List α)
  | [] => []
  | x :: xs =>
    match groupAt begins xs with
    | (y :: group) :: groups =>
      if begins y then [x] :: (y :: group) :: groups else (x :: y :: group) :: groups
    | _ => [[x]]

def Begun (begins : α → Bool) (group : List α) : Prop :=
  ∃ x rest, group = x :: rest ∧ begins x = true ∧ ∀ y ∈ rest, begins y = false

theorem groupAt_begun {begins : α → Bool} {x : α} {rest : List α} (hrest : ∀ y ∈ rest, begins y = false)
    {groups : List (List α)} {tail : List α} (htail : groupAt begins tail = groups)
    (hgroups : ∀ group ∈ groups, Begun begins group) :
    groupAt begins (x :: rest ++ tail) = (x :: rest) :: groups := by
  induction rest generalizing x with
  | nil =>
    rw [singleton_append, groupAt, htail]
    cases groups with
    | nil => rfl
    | cons group groups =>
      obtain ⟨y, more, rfl, hy, -⟩ := hgroups group (mem_cons_self ..)
      exact if_pos hy
  | cons y rest ih =>
    obtain ⟨hy, hmore⟩ := forall_mem_cons.mp hrest
    rw [cons_append, groupAt, ih hmore]
    exact if_neg (by rw [hy]; decide)

theorem groupAt_flatten {begins : α → Bool} {groups : List (List α)}
    (h : ∀ group ∈ groups, Begun begins group) : groupAt begins groups.flatten = groups := by
  induction groups with
  | nil => rfl
  | cons group groups ih =>
    obtain ⟨hgroup, hgroups⟩ := forall_mem_cons.mp h
    obtain ⟨x, rest, rfl, -, hrest⟩ := hgroup
    rw [flatten_cons]
    exact groupAt_begun hrest (ih hgroups) hgroups

def Closed (ends : α → Bool) (group : List α) : Prop :=
  ∃ front last, group = front ++ [last] ∧ (∀ x ∈ front, ends x = false) ∧ ends last = true

theorem Closed.append_prefix {ends : α → Bool} {front front' tail tail' : List α} {last last' : α}
    (hfront : ∀ x ∈ front, ends x = false) (hlast : ends last = true) (hfront' : ∀ x ∈ front', ends x = false)
    (hlast' : ends last' = true) (h : front ++ last :: tail <+: front' ++ last' :: tail') :
    front ++ [last] = front' ++ [last'] ∧ tail <+: tail' := by
  induction front generalizing front' with
  | nil =>
    cases front' with
    | nil =>
      have hsplit := cons_prefix_cons.mp h
      exact ⟨congrArg (fun x => [x]) hsplit.1, hsplit.2⟩
    | cons y front' =>
      have hsplit := cons_prefix_cons.mp h
      rw [hsplit.1, hfront' y mem_cons_self] at hlast
      cases hlast
  | cons x front ih =>
    cases front' with
    | nil =>
      have hsplit := cons_prefix_cons.mp h
      rw [← hsplit.1, hfront x mem_cons_self] at hlast'
      cases hlast'
    | cons y front' =>
      have hsplit := cons_prefix_cons.mp h
      have hrest := ih (fun z hz => hfront z (mem_cons_of_mem x hz))
        (fun z hz => hfront' z (mem_cons_of_mem y hz)) hsplit.2
      rw [cons_append, cons_append, hsplit.1, hrest.1]
      exact ⟨rfl, hrest.2⟩

theorem prefix_of_flatten_prefix {ends : α → Bool} {groups more : List (List α)}
    (hgroups : ∀ group ∈ groups, Closed ends group) (hmore : ∀ group ∈ more, Closed ends group)
    (h : groups.flatten <+: more.flatten) : groups <+: more := by
  induction groups generalizing more with
  | nil => exact nil_prefix
  | cons group groups ih =>
    rcases hgroups group mem_cons_self with ⟨front, last, hgroup, hfront, hlast⟩
    cases more with
    | nil =>
      rw [flatten_cons, hgroup] at h
      have hlen := h.length_le
      simp at hlen
    | cons other more =>
      rcases hmore other mem_cons_self with ⟨front', last', hother, hfront', hlast'⟩
      rw [flatten_cons, flatten_cons, hgroup, hother, append_assoc, append_assoc] at h
      have hsplit := Closed.append_prefix hfront hlast hfront' hlast' h
      rw [hgroup, hother, hsplit.1]
      exact prefix_cons_inj _ |>.mpr
        (ih (fun g hg => hgroups g (mem_cons_of_mem group hg))
          (fun g hg => hmore g (mem_cons_of_mem other hg)) hsplit.2)

end Lsof.Basis
