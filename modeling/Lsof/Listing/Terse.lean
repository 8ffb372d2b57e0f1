import Lsof.Listing.Skipping

/-! # The fast path of `-t`

`-t` prints the PIDs of the listing, ascending and each once. Where
`terseSkipsFiles` says that no file decides which, a backend reads none. An
entry is then printed by what the process table says of it; the one thing a
row could still add is a process kept for the pipe it shares with another.
-/

namespace Lsof.Core

open Lsof.Basis List

def renderTerse (procs : List Process) : List Nat :=
  ((procs.map Process.pid).insertionSort (· ≤ ·)).destutter (· ≠ ·)

theorem renderTerse_eq_dedup (procs : List Process) :
    renderTerse procs = ((procs.map Process.pid).insertionSort (· ≤ ·)).dedup :=
  (pairwise_insertionSort (· ≤ ·) _).destutter_eq_dedup

theorem mem_renderTerse {procs : List Process} {n : Nat} : n ∈ renderTerse procs ↔ ∃ p ∈ procs, p.pid = n := by
  simp [renderTerse_eq_dedup]

theorem renderTerse_eq_iff {out out' : List Process} :
    renderTerse out = renderTerse out' ↔ ∀ n, (∃ p ∈ out, p.pid = n) ↔ ∃ p ∈ out', p.pid = n := by
  constructor
  · intro h n
    rw [← mem_renderTerse, ← mem_renderTerse, h]
  · intro h
    have hsorted : ∀ procs, (renderTerse procs).Pairwise (· ≤ ·) := by
      intro procs
      rw [renderTerse_eq_dedup]
      exact (pairwise_insertionSort (· ≤ ·) _).sublist (dedup_sublist _)
    have hnodup : ∀ procs, (renderTerse procs).Nodup := by
      intro procs
      rw [renderTerse_eq_dedup]
      exact nodup_dedup _
    have hperm : (renderTerse out).Perm (renderTerse out') := by
      rw [perm_ext_iff_of_nodup (hnodup out) (hnodup out')]
      intro n
      rw [mem_renderTerse, mem_renderTerse]
      exact h n
    exact List.Perm.eq_of_pairwise' (hsorted out) (hsorted out') hperm

namespace Selection

variable {sel : Selection}

/-- What the process table alone prints: an entry that is not excluded, may have
a line, matches the process selectors, and is no mere peer. -/
def PrintedBare (sel : Selection) (p : Process) : Prop :=
  sel.excludesProcess p = false ∧ p.unlisted = false ∧
    sel.procSelected (sel.procKinds p) = true ∧
    ¬ (p.endpointPeer = true ∧ (sel.procKinds p).isEmpty = true)

/-- An entry that matches nothing itself and is there as the other end of a
pipe, with a row that brings it into the listing. -/
def PeerRow (sel : Selection) (p : Process) : Prop :=
  sel.excludesProcess p = false ∧ p.endpointPeer = true ∧ (sel.procKinds p).isEmpty = true ∧
    ∃ f ∈ p.files, sel.specified.isEmpty = true ∨ f.fileType = .pipe

structure TerseRun (sel : Selection) : Prop where
  every : sel.readsEveryProcess = false
  kinds : ∀ k, sel.given k = true → k ∈ SelKinds.proc
  states : sel.stateFilter = none
  tasks : sel.tasks ≠ .always

theorem terseRun_of_terseSkipsFiles (h : sel.terseSkipsFiles = true) : sel.TerseRun := by
  simp only [terseSkipsFiles, Bool.and_eq_true, Bool.not_eq_true', bne_iff_ne, Option.isNone_iff_eq_none] at h
  obtain ⟨⟨⟨⟨_, hcore⟩, hfile⟩, hstate⟩, htasks⟩ := h
  refine ⟨?_, ?_, hstate, htasks⟩
  · rw [readsEveryProcess, Bool.and_comm]
    exact hcore
  · intro k hk
    have hnone := KindSet.intersects_eq_false_iff.mp hfile k (sel.mem_specified.mpr hk)
    rcases SelKinds.kind_cases k with hp | hf | rfl
    · exact hp
    · exact absurd hf hnone
    · simp [given, htasks] at hk

theorem TerseRun.fileTest_false (h : sel.TerseRun) (f : OpenFile) (k : SelKind) : sel.fileTest f k = false := by
  by_contra hne
  rw [Bool.not_eq_false] at hne
  rw [sel.fileTest_proc f (h.kinds k (sel.given_of_fileTest hne))] at hne
  cases hne

theorem TerseRun.entryKinds_eq (h : sel.TerseRun) (p : Process) (withTasks : List Nat) :
    sel.entryKinds p withTasks = sel.procKinds p := by
  apply KindSet.bits_inj
  intro k
  rw [mem_entryKinds, mem_procKinds]
  simp [h.tasks]

theorem TerseRun.procSelected_of_keeps (h : sel.TerseRun) {withTasks : List Nat} {p : Process}
    {f : OpenFile} (hx : sel.excludesProcess p = false)
    (hpeer : sel.peerOnly withTasks p = false) (hkeep : sel.keepsRow withTasks p f = true) :
    sel.procSelected (sel.procKinds p) = true := by
  cases hspec : sel.specified.isEmpty with
  | true =>
    have hnone := KindSet.isEmpty_iff.mp hspec
    simp only [mem_specified] at hnone
    cases hand : sel.andMode with
    | true =>
      rw [procSelected_and _ hand]
      intro k _ hg
      exact absurd hg (hnone k)
    | false =>
      rw [procSelected_or _ hand]
      rintro ⟨k, _, hg⟩
      exact absurd hg (hnone k)
  | false =>
    obtain ⟨⟨k, hk⟩, hall⟩ := (sel.keepsRow_iff hspec hpeer _).mp hkeep
    simp only [inheritedKinds_of_not_excluded _ hx, h.entryKinds_eq, h.fileTest_false,
      Bool.false_eq_true, or_false] at hk hall
    cases hand : sel.andMode with
    | true =>
      rw [procSelected_and _ hand]
      intro k _ hg
      exact hall hand k hg
    | false =>
      rw [procSelected_or _ hand]
      exact fun _ => ⟨k, hk⟩

theorem TerseRun.listed_iff (h : sel.TerseRun) (withTasks : List Nat) {p : Process}
    (hunlisted : p.unlisted = true → p.files = []) :
    (sel.applyEntry withTasks p).isSome = true ↔ sel.PrintedBare p ∨ sel.PeerRow p := by
  have hread := sel.readsEntry_of_not_every h.every p
  cases hx : sel.excludesProcess p with
  | true => simp [applyEntry, hread, hx, PrintedBare, PeerRow]
  | false =>
    have hinh : sel.inheritedKinds withTasks p = sel.procKinds p := by
      rw [inheritedKinds_of_not_excluded _ hx, h.entryKinds_eq]
    have hstate : ∀ f, sel.stateMatches f = true := by
      intro f
      simp [stateMatches, h.states]
    have hlisted : (sel.applyEntry withTasks p).isSome = true ↔
        (∃ f ∈ p.files, sel.keepsRow withTasks p (sel.nameRow f) = true) ∨
          sel.bareLine withTasks p = true := by
      have hrows : sel.keptRows withTasks p ≠ [] ↔
          ∃ f ∈ p.files, sel.keepsRow withTasks p (sel.nameRow f) = true := by
        constructor
        · intro hne
          obtain ⟨g, hg⟩ := exists_mem_of_ne_nil _ hne
          obtain ⟨f, hf, _, hk, _⟩ := sel.mem_keptRows.mp hg
          exact ⟨f, hf, hk⟩
        · rintro ⟨f, hf, hk⟩
          exact ne_nil_of_mem (sel.mem_keptRows.mpr ⟨f, hf, hstate f, hk, rfl⟩)
      rw [Option.isSome_iff_exists]
      simp only [applyEntry_eq_some, hread, hx, Bool.not_false, true_and, exists_and_left, exists_eq, and_true, hrows]
    have hnofile : sel.specified.intersects SelKinds.file = false := by
      rw [KindSet.intersects_eq_false_iff]
      intro k hk
      exact SelKinds.proc_not_file (h.kinds k (sel.mem_specified.mp hk))
    have hnotask : sel.specified.contains (.single .task) = false := by
      rw [← Bool.not_eq_true, KindSet.contains_iff]
      intro hc
      have hg := sel.mem_specified.mp (hc .task (KindSet.mem_single.mpr rfl))
      simp [given, h.tasks] at hg
    rw [hlisted]
    cases hpeer : sel.peerOnly withTasks p with
    | true =>
      have hp : p.endpointPeer = true ∧ (sel.procKinds p).isEmpty = true := by
        simpa [peerOnly, hx, hinh] using hpeer
      have hkeep : ∀ f, sel.keepsRow withTasks p (sel.nameRow f) = true ↔
          sel.specified.isEmpty = true ∨ f.fileType = .pipe := by
        intro f
        have htype : (sel.nameRow f).fileType = f.fileType := by
          rw [eq_named_of_unnamed (sel.nameRow_unnamed f)]
        have haccept : sel.specified.isEmpty = false →
            sel.acceptsKinds sel.specified = true := by
          intro he
          rw [acceptsKinds_iff]
          exact ⟨KindSet.isEmpty_eq_false_iff.mp he, fun _ k hk => sel.mem_specified.mpr hk⟩
        cases he : sel.specified.isEmpty with
        | true => simp [keepsRow, he]
        | false => simp [keepsRow, he, hpeer, haccept he, htype]
      simp only [hkeep, bareLine, hpeer, Bool.or_true, Bool.true_or, Bool.not_true,
        Bool.false_eq_true, or_false, PrintedBare, PeerRow, hx, hp.1, hp.2, and_self,
        not_true_eq_false, and_false, false_or, true_and]
    | false =>
      have hp : ¬ (p.endpointPeer = true ∧ (sel.procKinds p).isEmpty = true) := by
        simpa [peerOnly, hx, hinh] using hpeer
      have hbare : sel.bareLine withTasks p = true ↔ sel.PrintedBare p := by
        simp [bareLine, hinh, hpeer, hx, hnofile, hnotask, PrintedBare, hp]
      have hno : ¬ sel.PeerRow p := fun hrow => hp ⟨hrow.2.1, hrow.2.2.1⟩
      simp only [hbare, hno, or_false, or_iff_right_iff_imp]
      rintro ⟨f, hf, hkeep⟩
      refine ⟨hx, ?_, h.procSelected_of_keeps hx hpeer hkeep, hp⟩
      by_contra hne
      rw [Bool.not_eq_false] at hne
      rw [hunlisted hne] at hf
      cases hf

/-- The fast path prints the same PIDs exactly when every process that only a
pipe brings in is printed by the process table anyway. -/
theorem renderTerse_skip_iff (procs : List Process) (hterse : sel.terseSkipsFiles = true)
    (hunlisted : ∀ p ∈ procs, p.unlisted = true → p.files = []) :
    renderTerse (sel.apply procs) = renderTerse (sel.apply (procs.map Process.header)) ↔
      ∀ p ∈ procs, sel.PeerRow p → ∃ q ∈ procs, q.pid = p.pid ∧ sel.PrintedBare q := by
  have h := terseRun_of_terseSkipsFiles hterse
  have hpids : ∀ gathered : List Process,
      (∀ p ∈ gathered, p.unlisted = true → p.files = []) → ∀ n,
        (∃ q ∈ sel.apply gathered, q.pid = n) ↔
          ∃ p ∈ gathered, p.pid = n ∧ (sel.PrintedBare p ∨ sel.PeerRow p) := by
    intro gathered hu n
    rw [apply, sel.applyWith_of_not_every h.every]
    constructor
    · rintro ⟨q, hq, rfl⟩
      obtain ⟨p, hp, happ⟩ := sel.mem_applyRows.mp hq
      have hl := (h.listed_iff _ (hu p hp)).mp (by rw [happ]; rfl)
      obtain ⟨_, _, rfl⟩ := sel.applyEntry_eq_some.mp happ
      exact ⟨p, hp, rfl, hl⟩
    · rintro ⟨p, hp, rfl, hl⟩
      obtain ⟨q, happ⟩ := Option.isSome_iff_exists.mp
        ((h.listed_iff (pidsWithTasks gathered) (hu p hp)).mpr hl)
      refine ⟨q, sel.mem_applyRows.mpr ⟨p, hp, happ⟩, ?_⟩
      obtain ⟨_, _, rfl⟩ := sel.applyEntry_eq_some.mp happ
      rfl
  have hbare : ∀ n, (∃ p ∈ procs.map Process.header, p.pid = n ∧ (sel.PrintedBare p ∨ sel.PeerRow p)) ↔
      ∃ p ∈ procs, p.pid = n ∧ sel.PrintedBare p := by
    intro n
    constructor
    · rintro ⟨_, hmem, rfl, hl⟩
      obtain ⟨p, hp, rfl⟩ := mem_map.mp hmem
      refine ⟨p, hp, rfl, ?_⟩
      rcases hl with hl | ⟨_, _, _, f, hf, _⟩
      · exact hl
      · cases hf
    · rintro ⟨p, hp, rfl, hl⟩
      exact ⟨p.header, mem_map_of_mem hp, rfl, Or.inl hl⟩
  rw [renderTerse_eq_iff]
  have hstripped : ∀ p ∈ procs.map Process.header, p.unlisted = true → p.files = [] := by
    intro _ hp _
    obtain ⟨p, _, rfl⟩ := mem_map.mp hp
    rfl
  simp only [hpids procs hunlisted, hpids _ hstripped, hbare]
  constructor
  · intro hsame p hp hrow
    exact (hsame p.pid).mp ⟨p, hp, rfl, Or.inr hrow⟩
  · intro hcov n
    constructor
    · rintro ⟨p, hp, rfl, hl | hrow⟩
      · exact ⟨p, hp, rfl, hl⟩
      · exact hcov p hp hrow
    · rintro ⟨p, hp, rfl, hl⟩
      exact ⟨p, hp, rfl, Or.inl hl⟩

/-- `lsof -t +E -p 1` on a backend that names the ends itself. -/
def terseEnds : Selection := { terse := true, pids := [1], endpoints := some .files }

def pipePeers : List Process :=
  [{ pid := 1, files := [{ fd := .handle 3, fileType := .pipe }] },
    { pid := 2, endpointPeer := true, files := [{ fd := .handle 4, fileType := .pipe }] }]

/-- The rows print both processes, the fast path only the first. -/
theorem terseEnds_loses_peer :
    terseEnds.terseSkipsFiles = true ∧
      (∀ p ∈ pipePeers, p.unlisted = true → p.files = []) ∧
      (∀ p ∈ pipePeers, p.tid.isSome = true → terseEnds.listsTasks = true) ∧
      renderTerse (terseEnds.apply pipePeers) ≠ renderTerse (terseEnds.apply (pipePeers.map Process.header)) := by
  decide

theorem renderTerse_skip_iff_pipePeers :
    terseEnds.terseSkipsFiles = true ∧
      (renderTerse (terseEnds.apply pipePeers) = renderTerse (terseEnds.apply (pipePeers.map Process.header)) ↔
        ∀ p ∈ pipePeers, terseEnds.PeerRow p → ∃ q ∈ pipePeers, q.pid = p.pid ∧ terseEnds.PrintedBare q) :=
  ⟨by decide, renderTerse_skip_iff pipePeers (by decide) (by decide)⟩

end Selection

end Lsof.Core
