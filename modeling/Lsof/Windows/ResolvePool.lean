import Mathlib

/-! # The pool that resolves host names

`resolve_with()` starts threads that take the addresses one by one from a shared
counter and send each answer to the caller, which waits until it has them all,
until every thread has ended, or until the deadline. Threads and caller take
their steps in any order.
-/

namespace Lsof.Windows

open List

inductive Worker (α ν : Type) where
  | ready
  | taken (ip : α)
  | looking (ip : α)
  | answered (ip : α) (name : ν)
  | done
  | dead

/-- The caller, with threads left to start; it waits once there is none. It returns
`late` where the deadline ends the wait. -/
inductive Caller where
  | starting (left : Nat)
  | returned (late : Bool)

inductive Event (α ν : Type) where
  | began (w : Nat) (ip : α)
  | gave (w : Nat) (ip : α) (name : ν)
  | died (w : Nat) (ip : α)
  | returned

structure Pool (α ν : Type) where
  caller : Caller
  started : Nat := 0
  next : Nat := 0
  worker : Nat → Worker α ν := fun _ => .ready
  channel : List (α × ν) := []
  out : List (α × ν) := []
  /-- What happened, the latest first. -/
  log : List (Event α ν) := []

namespace Pool

variable {α ν : Type} (addrs : List α)

def start (workers : Nat) : Pool α ν :=
  if addrs.isEmpty then { caller := .returned false, log := [.returned] }
  else { caller := .starting (max 1 (min workers addrs.length)) }

def set (s : Pool α ν) (w : Nat) (now : Worker α ν) : Nat → Worker α ν := Function.update s.worker w now

inductive Step [DecidableEq α] : Pool α ν → Pool α ν → Prop where
  | spawn {s left} (ok : Bool) (hc : s.caller = .starting (left + 1)) :
      Step s { s with caller := .starting left, started := s.started + ok.toNat }
  | take {s w ip} (hw : w < s.started) (h : s.worker w = .ready) (hip : addrs[s.next]? = some ip) :
      Step s { s with next := s.next + 1, worker := s.set w (.taken ip) }
  | past {s w} (hw : w < s.started) (h : s.worker w = .ready) (hip : addrs[s.next]? = none) :
      Step s { s with next := s.next + 1, worker := s.set w .done }
  | lookup {s w ip} (h : s.worker w = .taken ip) :
      Step s { s with worker := s.set w (.looking ip), log := .began w ip :: s.log }
  | give {s w ip} (name : ν) (h : s.worker w = .looking ip) :
      Step s { s with worker := s.set w (.answered ip name), log := .gave w ip name :: s.log }
  | panic {s w ip} (h : s.worker w = .looking ip) :
      Step s { s with worker := s.set w .dead, log := .died w ip :: s.log }
  | send {s w ip name left} (h : s.worker w = .answered ip name) (hc : s.caller = .starting left) :
      Step s { s with worker := s.set w .ready, channel := s.channel ++ [(ip, name)] }
  | unheard {s w ip name late} (h : s.worker w = .answered ip name) (hc : s.caller = .returned late) :
      Step s { s with worker := s.set w .done }
  | receive {s ip name rest} (hc : s.caller = .starting 0) (hlen : s.out.length < addrs.length)
      (hch : s.channel = (ip, name) :: rest) :
      Step s { s with channel := rest, out := (ip, name) :: s.out.filter (·.1 ≠ ip) }
  | leave {s} (late : Bool) (hc : s.caller = .starting 0) (hlate : late = true → s.out.length < addrs.length)
      (hend : late = false → addrs.length ≤ s.out.length ∨
        s.channel = [] ∧ ∀ w < s.started, s.worker w = .done ∨ s.worker w = .dead) :
      Step s { s with caller := .returned late, log := .returned :: s.log }

def begun : Event α ν → Option α
  | .began _ ip => some ip
  | _ => none

/-- Every address taken is held by one worker, or its lookup has begun, once. -/
structure Shared (s : Pool α ν) : Prop where
  nodup : (s.log.filterMap begun).Nodup
  range : ∀ w ip, .began w ip ∈ s.log → ip ∈ addrs.take s.next
  taken : ∀ w ip, s.worker w = .taken ip → ip ∈ addrs.take s.next ∧ ∀ v, .began v ip ∉ s.log
  one : ∀ v w ip, s.worker v = .taken ip → s.worker w = .taken ip → v = w
  covers : ∀ ip ∈ addrs.take s.next, (∃ w, s.worker w = .taken ip) ∨ ∃ w, .began w ip ∈ s.log

variable {addrs} {s t : Pool α ν} {w : Nat} {now : Worker α ν}

theorem set_eq_iff {v : Nat} {x : Worker α ν} :
    s.set w now v = x ↔ v = w ∧ now = x ∨ v ≠ w ∧ s.worker v = x := by
  rw [set, Function.update_apply]
  split <;> simp_all

theorem taken_set (hold : ∀ ip, s.worker w ≠ .taken ip) (hnow : ∀ ip, now ≠ .taken ip) (v : Nat) (ip : α) :
    s.set w now v = .taken ip ↔ s.worker v = .taken ip := by
  rw [set_eq_iff]
  have hv : s.worker v = .taken ip → v ≠ w := fun h heq => hold ip (heq ▸ h)
  simp [hnow, and_iff_right_of_imp hv]

theorem Shared.congr (h : s.Shared addrs) (hl : t.log.filterMap begun = s.log.filterMap begun)
    (hb : ∀ w ip, .began w ip ∈ t.log ↔ .began w ip ∈ s.log) (hn : addrs.take t.next = addrs.take s.next)
    (ht : ∀ w ip, t.worker w = .taken ip ↔ s.worker w = .taken ip) : t.Shared addrs := by
  constructor
  · rw [hl]
    exact h.nodup
  · simpa only [hb, hn] using h.range
  · simpa only [hb, hn, ht] using h.taken
  · simpa only [ht] using h.one
  · simpa only [hb, hn, ht] using h.covers

theorem Shared.step [DecidableEq α] (h : s.Shared addrs) (hd : addrs.Nodup) (hst : Step addrs s t) : t.Shared addrs := by
  cases hst with
  | spawn ok hc | receive hc hlen hch | leave late hc hlate hend =>
    exact h.congr rfl (by simp) rfl fun _ _ => .rfl
  | give name hw | panic hw | send hw hc | unheard hw hc =>
    exact h.congr rfl (by simp) rfl (taken_set (by simp [hw]) (by simp))
  | past hw hr hip =>
    have hlen : addrs.length ≤ s.next := getElem?_eq_none_iff.mp hip
    refine h.congr rfl (fun _ _ => .rfl) ?_ (taken_set (by simp [hr]) (by simp))
    exact (take_of_length_le (Nat.le_succ_of_le hlen)).trans (take_of_length_le hlen).symm
  | @take w ip hw hr hip =>
    have hmem : ∀ x, x ∈ addrs.take (s.next + 1) ↔ x ∈ addrs.take s.next ∨ x = ip := by
      simp [take_add_one, hip]
    have hfresh : ip ∉ addrs.take s.next := by
      have hnodup : (addrs.take (s.next + 1)).Nodup := hd.sublist (take_sublist _ _)
      rw [take_add_one, hip] at hnodup
      exact fun hin => (nodup_append.mp hnodup).2.2 ip hin ip (by simp) rfl
    obtain ⟨h1, h2, h3, h4, h5⟩ := h
    constructor <;> simp only [set_eq_iff] <;> grind
  | @lookup w ip hw =>
    obtain ⟨h1, h2, h3, h4, h5⟩ := h
    have hnew : ip ∉ s.log.filterMap begun := by
      rw [mem_filterMap]
      rintro ⟨e, he, hb⟩
      cases e <;> simp [begun] at hb
      exact (h3 w ip hw).2 _ (hb ▸ he)
    constructor <;> simp only [set_eq_iff]
    · exact nodup_cons.mpr ⟨hnew, h1⟩
    all_goals grind

/-- Where each lookup and each answer stands, the answers while the caller listens. -/
structure Heard (addrs : List α) (s : Pool α ν) : Prop where
  idle : ∀ w, s.worker w ≠ .ready → w < s.started
  dead : ∀ w, s.worker w = .dead → ∃ ip, .died w ip ∈ s.log
  looking : ∀ w ip, s.worker w = .looking ip → .began w ip ∈ s.log
  began : ∀ w ip, .began w ip ∈ s.log →
    s.worker w = .looking ip ∨ (∃ name, .gave w ip name ∈ s.log) ∨ .died w ip ∈ s.log
  gave : ∀ w ip name, .gave w ip name ∈ s.log → .began w ip ∈ s.log
  answered : ∀ w ip name, s.worker w = .answered ip name → .gave w ip name ∈ s.log
  own : ∀ p, p ∈ s.channel ∨ p ∈ s.out → ∃ w, .gave w p.1 p.2 ∈ s.log
  keys : (s.out.map Prod.fst).Nodup
  heard : ∀ left, s.caller = .starting left → ∀ w ip name, .gave w ip name ∈ s.log →
    s.worker w = .answered ip name ∨ (ip, name) ∈ s.channel ∨ ip ∈ s.out.map Prod.fst
  past : ∀ left, s.caller = .starting left → ∀ w, s.worker w = .done → addrs.length ≤ s.next

theorem Heard.step [DecidableEq α] (h : s.Heard addrs) (hst : Step addrs s t) : t.Heard addrs := by
  obtain ⟨h1, h2, h3, h4, h5, h6, h7, h8, h9, h10⟩ := h
  cases hst with
  | spawn ok hc | leave late hc hlate hend => constructor <;> grind
  | @receive ip name rest hc hlen hch =>
    refine ⟨h1, h2, h3, h4, h5, h6, ?_, ?_, ?_, h10⟩
    · intro p hp
      apply h7
      rw [hch]
      grind
    · have hsub : ((s.out.filter (·.1 ≠ ip)).map Prod.fst).Nodup := h8.sublist (filter_sublist.map _)
      exact nodup_cons.mpr ⟨by simp, hsub⟩
    · intro left hl v x n hg
      rcases h9 left hl v x n hg with h | h | h
      · exact .inl h
      · rw [hch] at h
        grind
      · by_cases hx : x = ip
        · simp [hx]
        · exact .inr (.inr (by simpa [hx] using h))
  | give name hw | panic hw | send hw hc | unheard hw hc | past hw hr hip | take hw hr hip | lookup hw =>
    constructor <;> simp only [set_eq_iff, ne_eq] <;> grind

/-- What the caller has when it leaves before the deadline: every address, or, its
workers all stopped, every answer. -/
def Settled (addrs : List α) (s : Pool α ν) : Prop :=
  (∀ ip ∈ addrs, ip ∈ s.out.map Prod.fst) ∨
    (∀ w < s.started, s.worker w = .done ∨ s.worker w = .dead) ∧
    (∀ w ip name, .gave w ip name ∈ s.log → ip ∈ s.out.map Prod.fst) ∧
    ((∃ w < s.started, ∀ ip, .died w ip ∉ s.log) →
      ∀ ip ∈ addrs, ip ∈ s.out.map Prod.fst ∨ ∃ w, .died w ip ∈ s.log)

theorem Heard.full (h : s.Heard addrs) (hs : s.Shared addrs) (hlen : addrs.length ≤ s.out.length) :
    ∀ ip ∈ addrs, ip ∈ s.out.map Prod.fst := by
  have hsub : s.out.map Prod.fst ⊆ addrs := by
    intro ip hip
    obtain ⟨p, hp, rfl⟩ := mem_map.mp hip
    obtain ⟨w, hw⟩ := h.own p (.inr hp)
    exact mem_of_mem_take (hs.range w _ (h.gave w _ _ hw))
  have hperm := (h.keys.subperm hsub).perm_of_length_le (by simpa using hlen)
  exact fun ip hip => hperm.symm.subset hip

theorem Heard.settled (h : s.Heard addrs) (hs : s.Shared addrs) (hc : s.caller = .starting 0)
    (hend : addrs.length ≤ s.out.length ∨ s.channel = [] ∧ ∀ w < s.started, s.worker w = .done ∨ s.worker w = .dead) :
    s.Settled addrs := by
  rcases hend with hlen | ⟨hch, hstop⟩
  · exact .inl (h.full hs hlen)
  have hall : ∀ w, s.worker w = .ready ∨ s.worker w = .done ∨ s.worker w = .dead := by
    intro w
    by_cases hw : s.worker w = .ready
    · exact .inl hw
    · exact .inr (hstop w (h.idle w hw))
  have hgave : ∀ w ip name, .gave w ip name ∈ s.log → ip ∈ s.out.map Prod.fst := by
    intro w ip name hg
    have := h.heard 0 hc w ip name hg
    grind
  refine .inr ⟨hstop, hgave, ?_⟩
  rintro ⟨w, hw, hlive⟩ ip hip
  have hdone : s.worker w = .done := (hstop w hw).resolve_right fun hd => absurd (h.dead w hd) (by simpa using hlive)
  rw [← take_of_length_le (h.past 0 hc w hdone)] at hip
  rcases hs.covers ip hip with ⟨v, hv⟩ | ⟨v, hv⟩
  · grind
  · have := h.began v ip hv
    grind

def left : Worker α ν → Nat
  | .ready | .taken _ => 1
  | _ => 0

def begins (w : Nat) : Event α ν → Bool
  | .began v _ => v == w
  | _ => false

def isReturned : Event α ν → Bool
  | .returned => true
  | _ => false

/-- The lookups worker `w` began since the call returned. -/
def beganSince (s : Pool α ν) (w : Nat) : Nat := (s.log.takeWhile (!isReturned ·)).countP (begins w)

/-- What holds once the caller has returned. -/
structure Over (addrs : List α) (s : Pool α ν) : Prop where
  settled : s.caller = .returned false → s.Settled addrs
  more : ∀ late, s.caller = .returned late → ∀ w, s.beganSince w + left (s.worker w) ≤ 1

theorem Settled.full (h : s.Settled addrs) (hw : w < s.started) (hdone : s.worker w ≠ .done)
    (hdead : s.worker w ≠ .dead) : ∀ ip ∈ addrs, ip ∈ s.out.map Prod.fst :=
  h.resolve_right fun hend => (hend.1 w hw).elim hdone hdead

theorem Over.work (h : s.Over addrs) (hw : w < s.started) (hdone : s.worker w ≠ .done)
    (hdead : s.worker w ≠ .dead) (hc : t.caller = s.caller) (ho : t.out = s.out) (ht : t.worker = s.set w now)
    (hself : t.beganSince w + left now ≤ s.beganSince w + left (s.worker w))
    (hother : ∀ v ≠ w, t.beganSince v = s.beganSince v) : t.Over addrs := by
  constructor
  · intro hr
    rw [Settled, ho]
    exact .inl ((h.settled (hc ▸ hr)).full hw hdone hdead)
  · intro late hr v
    have hmore := h.more late (hc ▸ hr) v
    rw [ht, set, Function.update_apply]
    grind

theorem Over.step [DecidableEq α] (h : s.Over addrs) (hh : s.Heard addrs) (hs : s.Shared addrs)
    (hst : Step addrs s t) : t.Over addrs := by
  cases hst with
  | spawn ok hc => constructor <;> simp
  | receive hc hlen hch | send hw hc => constructor <;> simp [hc]
  | leave late hc hlate hend =>
    constructor
    · intro hr
      have hset := hh.settled hs hc (hend (by simpa using hr))
      simpa [Settled] using hset
    · intro l hr v
      cases s.worker v <;> simp [beganSince, isReturned, left]
  | take hw hr hip | past hw hr hip =>
    refine h.work hw (by simp [hr]) (by simp [hr]) rfl rfl rfl ?_ fun _ _ => rfl
    simp [hr, left, beganSince]
  | lookup hw | give name hw | panic hw | unheard hw hc =>
    refine h.work (hh.idle _ (by simp [hw])) (by simp [hw]) (by simp [hw]) rfl rfl rfl ?_ fun v hv => ?_
    · simp [hw, left, beganSince, isReturned, begins]
    · simp [beganSince, isReturned, begins, hv.symm]

/-- A lookup begun that has neither returned nor panicked. -/
def Running (s : Pool α ν) (w : Nat) (ip : α) : Prop :=
  .began w ip ∈ s.log ∧ (∀ name, .gave w ip name ∉ s.log) ∧ .died w ip ∉ s.log

theorem Heard.looking_of_running (h : s.Heard addrs) {ip : α} (hr : s.Running w ip) : s.worker w = .looking ip :=
  (h.began w ip hr.1).resolve_right fun hend => hend.elim (fun ⟨name, hg⟩ => hr.2.1 name hg) hr.2.2

theorem Heard.start (workers : Nat) : (start addrs workers : Pool α ν).Heard addrs := by
  unfold Pool.start
  split <;> constructor <;> simp_all

theorem invariants [DecidableEq α] {workers : Nat} (hd : addrs.Nodup)
    (hrun : Relation.ReflTransGen (Step addrs) (start addrs workers) s) :
    s.Shared addrs ∧ s.Heard addrs ∧ s.Over addrs := by
  induction hrun with
  | refl =>
    refine ⟨?_, .start workers, ?_⟩ <;> unfold start <;> split <;> constructor <;>
      simp_all [Settled, beganSince, isReturned, begun, left, filterMap_cons]
  | tail _ hst ih => exact ⟨ih.1.step hd hst, ih.2.1.step hst, ih.2.2.step ih.2.1 ih.1 hst⟩

/-- In every run over distinct addresses no lookup begins twice, what is recorded is what
the address's own lookup gave, and a worker has one lookup at a time and begins at most one
once the call has returned. A caller that was not late has every answer, and where a worker
started and never panicked, every address but those whose lookup did. -/
theorem resolveWith_run [DecidableEq α] {workers : Nat} (hd : addrs.Nodup)
    (hrun : Relation.ReflTransGen (Step addrs) (start addrs workers) s) :
    (s.log.filterMap begun).Nodup ∧ (∀ p ∈ s.out, ∃ w, .gave w p.1 p.2 ∈ s.log) ∧
      (∀ w ip, s.Running w ip → w < s.started ∧ ∀ x, s.Running w x → x = ip) ∧
      (s.caller = .returned false →
        (∀ w ip name, .gave w ip name ∈ s.log → ip ∈ s.out.map Prod.fst) ∧
        ((∃ w < s.started, ∀ ip, .died w ip ∉ s.log) →
          ∀ ip ∈ addrs, ip ∈ s.out.map Prod.fst ∨ ∃ w, .died w ip ∈ s.log)) ∧
      ∀ late, s.caller = .returned late → ∀ w, s.beganSince w ≤ 1 := by
  obtain ⟨hs, hh, ho⟩ := invariants hd hrun
  refine ⟨hs.nodup, fun p hp => hh.own p (.inr hp), ?_, ?_, ?_⟩
  · intro w ip hr
    have hl := hh.looking_of_running hr
    refine ⟨hh.idle w (by simp [hl]), fun x hx => ?_⟩
    simpa [hl, eq_comm] using hh.looking_of_running hx
  · intro hc
    rcases ho.settled hc with hfull | ⟨-, hgave, hlive⟩
    · refine ⟨fun w ip name hg => hfull ip ?_, fun _ ip hip => .inl (hfull ip hip)⟩
      exact mem_of_mem_take (hs.range w ip (hh.gave w ip name hg))
    · exact ⟨hgave, hlive⟩
  · exact fun late hc w => Nat.le_of_add_right_le (ho.more late hc w)

theorem resolveWith_run_single : ∃ s : Pool Nat Bool, Relation.ReflTransGen (Step [7]) (start [7] 1) s ∧
    s.caller = .returned false ∧ (s.log.filterMap begun).Nodup ∧
    ∀ ip ∈ [7], ip ∈ s.out.map Prod.fst ∨ ∃ w, .died w ip ∈ s.log := by
  have hspawn : Relation.ReflTransGen (Step [7]) (start [7] 1 : Pool Nat Bool) _ := .single (.spawn true rfl)
  have hlook := (hspawn.tail (.take (w := 0) (by decide) rfl rfl)).tail (.lookup (w := 0) rfl)
  have hsend := (hlook.tail (.give (w := 0) true rfl)).tail (.send (w := 0) rfl rfl)
  have hrecv := hsend.tail (.receive rfl (by decide) rfl)
  have hrun := hrecv.tail (.leave false rfl (by decide) (fun _ => .inl (by decide)))
  obtain ⟨hnodup, -, -, hall, -⟩ := resolveWith_run (by decide) hrun
  exact ⟨_, hrun, rfl, hnodup, (hall rfl).2 ⟨0, by decide, by simp [start]⟩⟩

end Pool

end Lsof.Windows
