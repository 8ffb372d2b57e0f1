import Lsof.Windows.ResolvePool

/-! # The pool comes to its end

Every step of the pool leaves less to do, and while the caller waits some step is
possible that is not giving up. The deadline leaves time for every lookup that
keeps to its bound.
-/

namespace Lsof.Windows

open List

namespace Pool

variable {α ν : Type} {addrs : List α} {s t : Pool α ν}

def rank : Worker α ν → Nat
  | .taken _ => 5
  | .looking _ => 4
  | .answered _ _ => 3
  | .ready => 1
  | _ => 0

def callerRank : Caller → Nat
  | .starting left => 2 * left + 1
  | .returned _ => 0

def pending (addrs : List α) (s : Pool α ν) : Nat :=
  callerRank s.caller + 5 * (addrs.length - s.next) + s.channel.length

/-- What is left to do. -/
def work (addrs : List α) (s : Pool α ν) : Nat := s.pending addrs + ∑ w ∈ Finset.range s.started, rank (s.worker w)

theorem work_lt_of_set {w : Nat} {now : Worker α ν} (hw : w < s.started) (hn : t.started = s.started)
    (ht : t.worker = s.set w now) (hless : t.pending addrs + rank now < s.pending addrs + rank (s.worker w)) :
    t.work addrs < s.work addrs := by
  have hmem := Finset.mem_range.mpr hw
  have hrest : ∑ v ∈ (Finset.range s.started).erase w, rank (s.set w now v) =
      ∑ v ∈ (Finset.range s.started).erase w, rank (s.worker v) :=
    Finset.sum_congr rfl fun v hv => by rw [set, Function.update_of_ne (Finset.ne_of_mem_erase hv)]
  have hself : s.set w now w = now := Function.update_self ..
  rw [work, work, hn, ht, ← Finset.add_sum_erase _ _ hmem, ← Finset.add_sum_erase _ (fun v => rank (s.worker v)) hmem,
    hrest, hself]
  omega

variable [DecidableEq α]

theorem work_step (h : s.Heard addrs) (hst : Step addrs s t) : t.work addrs < s.work addrs := by
  cases hst with
  | @spawn left ok hc =>
    have hready : s.worker s.started = .ready := by_contra fun hr => Nat.lt_irrefl _ (h.idle _ hr)
    cases ok <;> simp [work, pending, hc, callerRank, Finset.sum_range_succ, hready, rank]
    omega
  | take hw hr hip =>
    have hnext := (List.getElem?_eq_some_iff.mp hip).1
    refine work_lt_of_set hw rfl rfl ?_
    simp only [pending, hr, rank]
    omega
  | past hw hr hip =>
    refine work_lt_of_set hw rfl rfl ?_
    simp only [pending, hr, rank]
    omega
  | lookup hw | give name hw | panic hw | send hw hc | unheard hw hc =>
    refine work_lt_of_set (h.idle _ (by simp [hw])) rfl rfl ?_
    simp [pending, hw, rank] <;> omega
  | receive hc hlen hch => simp [work, pending, hch]
  | leave late hc hlate hend => simp [work, pending, hc, callerRank]

theorem length_le_work {run : List (Pool α ν)} (h : s.Heard addrs) (hrun : (s :: run).IsChain (Step addrs)) :
    run.length ≤ s.work addrs := by
  induction run generalizing s with
  | nil => exact Nat.zero_le _
  | cons t run ih =>
    obtain ⟨hst, hrest⟩ := isChain_cons_cons.mp hrun
    exact Nat.lt_of_le_of_lt (ih (h.step hst) hrest) (work_step h hst)

/-- While the caller has not returned, a step is possible other than giving up. -/
theorem exists_step (hc : ∀ late, s.caller ≠ .returned late) :
    ∃ t, Step addrs s t ∧ t.caller ≠ .returned true := by
  match hleft : s.caller with
  | .returned late => exact absurd hleft (hc late)
  | .starting (left + 1) => exact ⟨_, .spawn true hleft, by simp⟩
  | .starting 0 =>
    by_cases hlen : s.out.length < addrs.length
    · match hch : s.channel with
      | (ip, name) :: rest => exact ⟨_, .receive hleft hlen hch, hc true⟩
      | [] =>
        by_cases hstop : ∀ w < s.started, s.worker w = .done ∨ s.worker w = .dead
        · exact ⟨_, .leave false hleft (by simp) fun _ => .inr ⟨hch, hstop⟩, by simp⟩
        · simp only [not_forall, not_or] at hstop
          obtain ⟨w, hw, hdone, hdead⟩ := hstop
          match hs : s.worker w with
          | .ready =>
            cases hip : addrs[s.next]? with
            | none => exact ⟨_, .past hw hs hip, hc true⟩
            | some ip => exact ⟨_, .take hw hs hip, hc true⟩
          | .taken ip => exact ⟨_, .lookup hs, hc true⟩
          | .looking ip => exact ⟨_, .panic hs, hc true⟩
          | .answered ip name => exact ⟨_, .send hs hleft, hc true⟩
          | .done => exact absurd hs hdone
          | .dead => exact absurd hs hdead
    · exact ⟨_, .leave false hleft (by simp) fun _ => .inl (Nat.le_of_not_lt hlen), by simp⟩

/-- No run is longer than its addresses and workers allow, and a state from which only the
deadline could lead on is one in which the call has returned. -/
theorem resolveWith_ends {workers : Nat} {run : List (Pool α ν)}
    (hrun : (start addrs workers :: run).IsChain (Step addrs)) :
    run.length ≤ 5 * addrs.length + 2 * max 1 (min workers addrs.length) + 1 ∧
      ∀ s ∈ start addrs workers :: run, (∀ t, Step addrs s t → t.caller = .returned true) →
        ∃ late, s.caller = .returned late := by
  refine ⟨(length_le_work (.start workers) hrun).trans ?_, fun s _ hstuck => by_contra fun hc => ?_⟩
  · unfold start
    split <;> simp only [work, pending, callerRank, Finset.range_zero, Finset.sum_empty, length_nil] <;> omega
  · obtain ⟨t, hst, ht⟩ := @exists_step _ _ addrs _ _ (not_exists.mp hc)
    exact ht (hstuck t hst)

theorem resolveWith_ends_spawned : ∃ s : Pool Nat Bool, [start [7] 1, s].IsChain (Step [7]) ∧
    [s].length ≤ 5 * [7].length + 2 * max 1 (min 1 [7].length) + 1 := by
  have hrun : [start [7] 1, _].IsChain (Step (ν := Bool) [7]) := .cons_cons (.spawn true rfl) (.singleton _)
  exact ⟨_, hrun, (resolveWith_ends hrun).1⟩

end Pool

/-! ## The deadline -/

/-- Durations are nanoseconds; this is `Duration::MAX`. -/
def DURATION_MAX : Nat := 2 ^ 64 * 10 ^ 9 - 1

def PHASE_SLACK : Nat := 10 ^ 9

def checked (limit n : Nat) : Option Nat := if n ≤ limit then some n else none

def phaseBudget? (distinct workers perLookup : Nat) : Option Nat := do
  let rounds := (distinct + (max workers 1 - 1)) / max workers 1
  let r ← checked (2 ^ 32 - 1) rounds
  let d ← checked DURATION_MAX (perLookup * r)
  checked DURATION_MAX (d + PHASE_SLACK)

def phaseBudget (distinct workers perLookup : Nat) : Nat :=
  (phaseBudget? distinct workers perLookup).getD DURATION_MAX

/-- When each worker is free again after `n` addresses were taken, each by the worker
that was free first. A worker takes its first one when it has started. -/
inductive Serving {workers : Nat} (perLookup : Nat) : Nat → (Fin workers → Nat) → Prop where
  | start {free} (h : ∀ w, free w ≤ PHASE_SLACK) : Serving perLookup 0 free
  | take {n free w time} (h : Serving perLookup n free) (hfirst : ∀ v, free w ≤ free v) (htime : time ≤ perLookup) :
      Serving perLookup (n + 1) (Function.update free w (free w + time))

variable {workers perLookup n : Nat} {free : Fin workers → Nat}

theorem Serving.counts (h : Serving perLookup n free) : ∃ count : Fin workers → Nat, ∑ w, count w = n ∧
    ∀ w, free w ≤ PHASE_SLACK + perLookup * count w := by
  induction h with
  | start h => exact ⟨0, by simp, by simpa using h⟩
  | @take n free w time _ _ htime ih =>
    obtain ⟨count, hsum, hcount⟩ := ih
    refine ⟨count + Pi.single w 1, by simp [Finset.sum_add_distrib, hsum], fun v => ?_⟩
    have hv := hcount v
    by_cases hw : v = w
    · subst hw
      rw [Function.update_self, Pi.add_apply, Pi.single_eq_same, Nat.mul_succ]
      omega
    · simpa [Function.update_of_ne hw, Pi.single_eq_of_ne hw] using hv

/-- The worker that has taken the fewest addresses bounds when the first one is free. -/
theorem Serving.free_le (h : Serving perLookup n free) (w : Fin workers) :
    free w ≤ PHASE_SLACK + perLookup * ((n + (workers - 1)) / workers) := by
  have hpos : 0 < workers := w.pos
  induction h generalizing w with
  | start h => exact (h w).trans (Nat.le_add_right _ _)
  | @take n free u time hserve hfirst htime ih =>
    obtain ⟨count, hsum, hcount⟩ := hserve.counts
    obtain ⟨v, hv⟩ : ∃ v, count v ≤ n / workers := by
      by_contra hall
      have hmany := Finset.card_nsmul_le_sum Finset.univ count (n / workers + 1) fun v _ => by
        have := not_exists.mp hall v
        omega
      rw [hsum, Finset.card_univ, Fintype.card_fin, smul_eq_mul, Nat.mul_succ] at hmany
      have hmod := Nat.mod_add_div n workers
      have hlt := Nat.mod_lt n hpos
      omega
    have hceil : (n + 1 + (workers - 1)) / workers = n / workers + 1 := by
      rw [show n + 1 + (workers - 1) = n + workers by omega, Nat.add_div_right n hpos]
    by_cases hw : w = u
    · subst hw
      have hfree := (hfirst v).trans (hcount v)
      have hmul := Nat.mul_le_mul_left perLookup hv
      rw [Function.update_self, hceil, Nat.mul_succ]
      omega
    · rw [Function.update_of_ne hw]
      have hdiv : (n + (workers - 1)) / workers ≤ (n + 1 + (workers - 1)) / workers := Nat.div_le_div_right (by omega)
      exact (ih w).trans (Nat.add_le_add_left (Nat.mul_le_mul_left _ hdiv) _)

/-- Where every worker has started within the slack and every lookup keeps to its bound,
none ends past the phase's budget, unless that is more than a `Duration` holds. -/
theorem phaseBudget_covers {distinct : Nat} (h : Serving perLookup distinct free) (w : Fin workers) :
    free w ≤ phaseBudget distinct workers perLookup ∨ phaseBudget distinct workers perLookup = DURATION_MAX := by
  have hfree := h.free_le w
  unfold phaseBudget
  cases hbudget : phaseBudget? distinct workers perLookup with
  | none => exact .inr rfl
  | some budget =>
    simp only [phaseBudget?, checked, Option.bind_eq_bind, Option.bind_eq_some_iff, Option.ite_none_right_eq_some,
      Option.some.injEq, Nat.max_eq_left w.pos] at hbudget
    obtain ⟨r, ⟨-, rfl⟩, d, ⟨-, rfl⟩, -, rfl⟩ := hbudget
    exact .inl (Nat.add_comm .. ▸ hfree)

theorem phaseBudget_covers_two : Function.update (fun _ : Fin 1 => 0) 0 (0 + 5) 0 ≤ phaseBudget 1 1 5 ∨
    phaseBudget 1 1 5 = DURATION_MAX :=
  phaseBudget_covers (.take (.start fun _ => Nat.zero_le _) (fun _ => Nat.zero_le _) (Nat.le_refl 5)) 0

end Lsof.Windows
