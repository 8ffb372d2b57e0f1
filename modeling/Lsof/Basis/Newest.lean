import Lsof.Basis.Chain
import Lsof.Basis.Firsts

/-! # The newest kind of each key

Values come one after another, each of a key and of one of its kinds. What a key
stands for is the latest value that was a kind new to it. Two tables give it:
one of hash chains that an entry is put at the head of unless the chain has it,
and one that keeps, for each key, the answer and the kinds seen.
-/

namespace Lsof.Basis

open List

variable {κ ν : Type} [DecidableEq κ] [DecidableEq ν]

/-- The kinds a key has had, in the order first met. -/
def kindsOf (es : List (κ × ν)) (k : κ) : List ν := firsts id ((es.filter fun e => e.1 = k).map Prod.snd)

def newest (es : List (κ × ν)) (k : κ) : Option ν := (kindsOf es k).getLast?

theorem mem_kindsOf (es : List (κ × ν)) (k : κ) (v : ν) : v ∈ kindsOf es k ↔ (k, v) ∈ es := by
  have hmem := mem_map_firsts_iff id ((es.filter fun e => e.1 = k).map Prod.snd) v
  rw [map_id, map_id] at hmem
  rw [kindsOf, hmem]
  simp only [mem_map, mem_filter, decide_eq_true_eq]
  constructor
  · intro h
    rcases h with ⟨e, ⟨he, hk⟩, hv⟩
    rw [← hk, ← hv]
    exact he
  · intro h
    exact ⟨(k, v), ⟨h, rfl⟩, rfl⟩

theorem kindsOf_concat_of_ne {e : κ × ν} {k : κ} (h : e.1 ≠ k) (es : List (κ × ν)) :
    kindsOf (es ++ [e]) k = kindsOf es k := by
  have hout : [e].filter (fun e => e.1 = k) = [] := by simp [h]
  rw [kindsOf, filter_append, hout, append_nil]
  rfl

theorem kindsOf_concat_self (es : List (κ × ν)) (e : κ × ν) :
    kindsOf (es ++ [e]) e.1 = if e ∈ es then kindsOf es e.1 else kindsOf es e.1 ++ [e.2] := by
  have hmem := mem_kindsOf es e.1 e.2
  have hstep : kindsOf (es ++ [e]) e.1 = keepFirst id (kindsOf es e.1) e.2 := by
    have hlast : [e].filter (fun d => d.1 = e.1) = [e] := by simp
    rw [kindsOf, filter_append, hlast, map_append, map_singleton, firsts_concat]
    rfl
  rw [hstep, keepFirst, map_id, id_eq]
  by_cases hin : e ∈ es
  · rw [if_pos hin, if_pos (hmem.mpr hin)]
  · rw [if_neg hin, if_neg (fun hk => hin (hmem.mp hk))]

theorem newest_concat (es : List (κ × ν)) (e : κ × ν) (k : κ) :
    newest (es ++ [e]) k = if e.1 = k ∧ e ∉ es then some e.2 else newest es k := by
  unfold newest
  by_cases hk : e.1 = k
  · rw [← hk, kindsOf_concat_self]
    by_cases hin : e ∈ es
    · rw [if_pos hin, if_neg (fun h => h.2 hin)]
    · rw [if_neg hin, if_pos ⟨rfl, hin⟩, getLast?_concat]
  · rw [kindsOf_concat_of_ne hk, if_neg (fun h => hk h.1)]

theorem newest_filterMap {ρ κ' ν' : Type} [DecidableEq κ'] [DecidableEq ν'] {f : ρ → Option (κ × ν)}
    {g : ρ → Option (κ' × ν')} {k : κ} {k' : κ'} {t : ν → ν'} (ht : Function.Injective t) {rs : List ρ}
    (h : ∀ r ∈ rs, ((g r).filter fun e => e.1 = k').map Prod.snd =
      ((f r).filter fun e => e.1 = k).map (t ∘ Prod.snd)) :
    newest (rs.filterMap g) k' = (newest (rs.filterMap f) k).map t := by
  have hvalues : ((rs.filterMap g).filter fun e => e.1 = k').map Prod.snd =
      (((rs.filterMap f).filter fun e => e.1 = k).map Prod.snd).map t := by
    rw [filter_filterMap, map_filterMap, filter_filterMap, map_map, map_filterMap]
    exact filterMap_congr h
  have hfirsts : ∀ vs : List ν, firsts id (vs.map t) = (firsts id vs).map t := by
    intro vs
    rw [firsts_map]
    exact congrArg (List.map t) (firsts_congr (fun _ _ => ht.eq_iff) vs)
  rw [newest, newest, kindsOf, kindsOf, hvalues, hfirsts, getLast?_map]

section Chains

variable {β : Type} [DecidableEq β] (hash : κ → β)

def chainEnter (table : β → List (κ × ν)) (e : κ × ν) : β → List (κ × ν) :=
  if e ∈ table (hash e.1) then table
  else fun b => if b = hash e.1 then e :: table b else table b

def chainSearch (table : β → List (κ × ν)) (k : κ) : Option ν :=
  ((table (hash k)).find? fun e => e.1 = k).map Prod.snd

def chainPush (table : β → List (κ × ν)) (e : κ × ν) : β → List (κ × ν) :=
  fun b => if b = hash e.1 then e :: table b else table b

omit [DecidableEq ν] in
theorem chainSearch_push (table : β → List (κ × ν)) (e : κ × ν) (k : κ) :
    chainSearch hash (chainPush hash table e) k = if e.1 = k then some e.2 else chainSearch hash table k := by
  unfold chainSearch chainPush
  by_cases hk : e.1 = k
  · simp [hk]
  · rw [if_neg hk]
    by_cases hb : hash k = hash e.1
    · rw [if_pos hb, find?_cons_of_neg (by simpa using hk)]
    · rw [if_neg hb]

/-- What the chains hold after these values. -/
structure Chains (es : List (κ × ν)) (table : β → List (κ × ν)) : Prop where
  mem : ∀ e, e ∈ table (hash e.1) ↔ e ∈ es
  search : ∀ k, chainSearch hash table k = newest es k

omit [DecidableEq β] in
theorem Chains.nil : Chains hash ([] : List (κ × ν)) fun _ => [] := ⟨fun _ => Iff.rfl, fun _ => rfl⟩

variable {hash}

theorem Chains.enter {es : List (κ × ν)} {table : β → List (κ × ν)} (h : Chains hash es table) (e : κ × ν) :
    Chains hash (es ++ [e]) (chainEnter hash table e) := by
  unfold chainEnter
  by_cases hin : e ∈ table (hash e.1)
  · have hes : e ∈ es := (h.mem e).mp hin
    rw [if_pos hin]
    constructor
    · intro d
      rw [h.mem, mem_append, mem_singleton]
      constructor
      · exact Or.inl
      · intro hd
        rcases hd with hd | hd
        · exact hd
        · rw [hd]
          exact hes
    · intro k
      rw [h.search, newest_concat, if_neg (fun hnew => hnew.2 hes)]
  · have hes : e ∉ es := fun hmem => hin ((h.mem e).mpr hmem)
    rw [if_neg hin]
    constructor
    · intro d
      rw [mem_append, mem_singleton]
      by_cases hb : hash d.1 = hash e.1
      · rw [if_pos hb, mem_cons, h.mem, or_comm]
      · rw [if_neg hb, h.mem]
        constructor
        · exact Or.inl
        · intro hd
          rcases hd with hd | hd
          · exact hd
          · exact absurd (congrArg (fun d => hash d.1) hd) hb
    · intro k
      have hsearch := chainSearch_push hash table e k
      rw [h.search] at hsearch
      rw [newest_concat]
      simp only [hes, not_false_eq_true, and_true]
      exact hsearch

theorem Chains.foldl {es : List (κ × ν)} {table : β → List (κ × ν)} (h : Chains hash es table) (more : List (κ × ν)) :
    Chains hash (es ++ more) (more.foldl (chainEnter hash) table) := by
  induction more generalizing es table with
  | nil =>
    rw [append_nil]
    exact h
  | cons e more ih =>
    have hstep := ih (h.enter e)
    rw [append_assoc] at hstep
    exact hstep

end Chains

end Lsof.Basis
