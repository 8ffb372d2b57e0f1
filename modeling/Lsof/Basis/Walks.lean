import Mathlib

/-! # Walks along links

From a node each link leads to one other at most. A plain walk follows the links
until there is none or it is back at the node where it began; along a circle that
misses that node it never ends. A guarded walk also ends at a node that it has met.
-/

namespace Lsof.Basis

open List

variable {κ : Type} [DecidableEq κ] (next : κ → Option κ) (stop : κ)

/-- The nodes met; none where the turns are not enough. -/
def plainWalk : Nat → Option κ → Option (List κ)
  | 0, _ => none
  | _ + 1, none => some []
  | turns + 1, some n => if n = stop then some [] else (plainWalk turns (next n)).map (n :: ·)

/-- The nodes met that are not among `walked`; none where the turns are not enough. -/
def guardedWalk : Nat → Option κ → List κ → Option (List κ)
  | 0, _, _ => none
  | _ + 1, none, _ => some []
  | turns + 1, some n, walked =>
    if n = stop ∨ n ∈ walked then some [] else (guardedWalk turns (next n) (n :: walked)).map (n :: ·)

variable {next stop}

variable {cur : Option κ}

theorem plainWalk_unique {turns turns' : Nat} {ns ns' : List κ}
    (h : plainWalk next stop turns cur = some ns) (h' : plainWalk next stop turns' cur = some ns') : ns = ns' := by
  induction turns generalizing turns' cur ns ns' with
  | zero => exact absurd h nofun
  | succ turns ih =>
    cases turns' with
    | zero => exact absurd h' nofun
    | succ turns' =>
      cases cur with
      | none => exact Option.some.inj (h.symm.trans h')
      | some n =>
        rw [plainWalk] at h h'
        by_cases hstop : n = stop
        · rw [if_pos hstop] at h h'
          exact Option.some.inj (h.symm.trans h')
        · rw [if_neg hstop] at h h'
          rcases Option.map_eq_some_iff.mp h with ⟨rest, hrest, hns⟩
          rcases Option.map_eq_some_iff.mp h' with ⟨rest', hrest', hns'⟩
          rw [← hns, ← hns', ih hrest hrest']

variable {turns : Nat}

theorem plainWalk_from {ns : List κ} (h : plainWalk next stop turns cur = some ns)
    {m : κ} (hm : m ∈ ns) : ∃ turns' rest, plainWalk next stop turns' (some m) = some rest ∧ rest.length ≤ ns.length := by
  induction turns generalizing cur ns with
  | zero => exact absurd h nofun
  | succ turns ih =>
    cases cur with
    | none =>
      rw [← Option.some.inj h] at hm
      exact absurd hm not_mem_nil
    | some n =>
      by_cases hmn : m = n
      · rw [hmn]
        exact ⟨turns + 1, ns, h, Nat.le_refl _⟩
      · rw [plainWalk] at h
        by_cases hstop : n = stop
        · rw [if_pos hstop] at h
          rw [← Option.some.inj h] at hm
          exact absurd hm not_mem_nil
        · rw [if_neg hstop] at h
          rcases Option.map_eq_some_iff.mp h with ⟨rest, hrest, hns⟩
          rw [← hns] at hm ⊢
          rcases mem_cons.mp hm with heq | hin
          · exact absurd heq hmn
          · rcases ih hrest hin with ⟨turns', tail, htail, hle⟩
            exact ⟨turns', tail, htail, Nat.le_succ_of_le hle⟩

theorem plainWalk_guarded {ns walked : List κ} (h : plainWalk next stop turns cur = some ns)
    (hnew : ∀ m ∈ ns, m ∉ walked) : guardedWalk next stop turns cur walked = some ns := by
  induction turns generalizing cur ns walked with
  | zero => exact absurd h nofun
  | succ turns ih =>
    cases cur with
    | none => exact h
    | some n =>
      have hwhole := h
      rw [plainWalk] at h
      rw [guardedWalk]
      by_cases hstop : n = stop
      · rw [if_pos hstop] at h
        rw [if_pos (Or.inl hstop), h]
      · rw [if_neg hstop] at h
        rcases Option.map_eq_some_iff.mp h with ⟨rest, hrest, hns⟩
        have hn : n ∉ walked := hnew n (hns ▸ mem_cons_self)
        have hboth : ¬ (n = stop ∨ n ∈ walked) := fun hor => hor.elim hstop hn
        have hfresh : ∀ m ∈ rest, m ∉ n :: walked := by
          intro m hm hmem
          rcases mem_cons.mp hmem with heq | hold
          · -- the walk from `n` would be shorter than itself
            rcases plainWalk_from hrest hm with ⟨turns', tail, htail, hle⟩
            rw [heq] at htail
            have hsame := plainWalk_unique htail hwhole
            rw [hsame, ← hns, length_cons] at hle
            omega
          · exact hnew m (hns ▸ mem_cons_of_mem n hm) hold
        rw [if_neg hboth, ih hrest hfresh, ← hns]
        rfl

theorem plainWalk_forall {Good : κ → Prop} (hnext : ∀ p, Good p → ∀ q ∈ next p, Good q)
    (hcur : ∀ p ∈ cur, Good p) {ns : List κ} (h : plainWalk next stop turns cur = some ns) : ∀ p ∈ ns, Good p := by
  induction turns generalizing cur ns with
  | zero => exact absurd h nofun
  | succ turns ih =>
    cases cur with
    | none =>
      rw [← Option.some.inj h]
      exact fun _ hp => absurd hp not_mem_nil
    | some n =>
      rw [plainWalk] at h
      by_cases hstop : n = stop
      · rw [if_pos hstop] at h
        rw [← Option.some.inj h]
        exact fun _ hp => absurd hp not_mem_nil
      · rw [if_neg hstop] at h
        rcases Option.map_eq_some_iff.mp h with ⟨rest, hrest, hns⟩
        have hn := hcur n rfl
        rw [← hns]
        exact forall_mem_cons.mpr ⟨hn, ih (hnext n hn) hrest⟩

theorem guardedWalk_unique {turns turns' : Nat} {walked ns ns' : List κ}
    (h : guardedWalk next stop turns cur walked = some ns) (h' : guardedWalk next stop turns' cur walked = some ns') :
    ns = ns' := by
  induction turns generalizing turns' cur walked ns ns' with
  | zero => exact absurd h nofun
  | succ turns ih =>
    cases turns' with
    | zero => exact absurd h' nofun
    | succ turns' =>
      cases cur with
      | none => exact Option.some.inj (h.symm.trans h')
      | some n =>
        rw [guardedWalk] at h h'
        by_cases hend : n = stop ∨ n ∈ walked
        · rw [if_pos hend] at h h'
          exact Option.some.inj (h.symm.trans h')
        · rw [if_neg hend] at h h'
          rcases Option.map_eq_some_iff.mp h with ⟨rest, hrest, hns⟩
          rcases Option.map_eq_some_iff.mp h' with ⟨rest', hrest', hns'⟩
          rw [← hns, ← hns', ih hrest hrest']

theorem guardedWalk_isSome {keys : List κ} (hkeys : ∀ n, (next n).isSome = true → n ∈ keys)
    {walked : List κ} (hnodup : walked.Nodup) (hwalked : cur.isSome = true → walked ⊆ keys)
    (hshort : walked.length ≤ keys.length + 1) (hturns : keys.length + 2 ≤ turns + walked.length) :
    (guardedWalk next stop turns cur walked).isSome = true := by
  induction turns generalizing cur walked with
  | zero => omega
  | succ turns ih =>
    cases cur with
    | none => rfl
    | some n =>
      have hsubset := hwalked rfl
      have hlength : walked.length ≤ keys.length := (subperm_of_subset hnodup hsubset).length_le
      rw [guardedWalk]
      by_cases hend : n = stop ∨ n ∈ walked
      · rw [if_pos hend]
        rfl
      · rw [if_neg hend, Option.isSome_map]
        have hn : n ∉ walked := fun hmem => hend (Or.inr hmem)
        apply ih
        · exact nodup_cons.mpr ⟨hn, hnodup⟩
        · intro hsome
          exact cons_subset.mpr ⟨hkeys n hsome, hsubset⟩
        · rw [length_cons]
          omega
        · rw [length_cons]
          omega

theorem plainWalk_map {κ' : Type} [DecidableEq κ'] {next' : κ' → Option κ'} {f : κ → κ'} {Good : κ → Prop}
    (hmap : ∀ p, Good p → next' (f p) = (next p).map f) (hnext : ∀ p, Good p → ∀ q ∈ next p, Good q)
    (hinj : ∀ p q, Good p → Good q → f p = f q → p = q) (hstop : Good stop)
    (hcur : ∀ p ∈ cur, Good p) {ps : List κ} (h : plainWalk next stop turns cur = some ps) :
    plainWalk next' (f stop) turns (cur.map f) = some (ps.map f) := by
  induction turns generalizing cur ps with
  | zero => exact absurd h nofun
  | succ turns ih =>
    cases cur with
    | none =>
      rw [← Option.some.inj h]
      rfl
    | some p =>
      have hp := hcur p rfl
      rw [plainWalk] at h
      rw [Option.map_some, plainWalk]
      by_cases hps : p = stop
      · rw [if_pos hps] at h
        rw [if_pos (congrArg f hps), ← Option.some.inj h]
        rfl
      · have hother : ¬ f p = f stop := fun heq => hps (hinj p stop hp hstop heq)
        rw [if_neg hps] at h
        rcases Option.map_eq_some_iff.mp h with ⟨rest, hrest, hcons⟩
        rw [if_neg hother, hmap p hp, ih (hnext p hp) hrest, ← hcons]
        rfl

end Lsof.Basis
