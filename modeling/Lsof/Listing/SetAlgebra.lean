import Lsof.Core.Endpoints

/-! # OR is union, AND is intersection

A run with several selector kinds is compared with the runs that give one kind
each, all exclusions and `-s` kept. Rows are told apart by where they were
gathered, so a row whose NAME one run changes is still the same row.
-/

namespace Lsof.Core.Selection

open Lsof.Basis List

variable (sel : Selection)

/-- The selection with only kind `k` of its selectors. -/
def onlyKind (k : SelKind) : Selection :=
  { sel with
    andMode := false
    pids := if k = .pid then sel.pids else []
    users := if k = .uid then sel.users else []
    uids := if k = .uid then sel.uids else []
    commands := if k = .cmd then sel.commands else []
    pgids := if k = .pgid then sel.pgids else []
    ppidFilter := if k = .pgid then sel.ppidFilter else []
    fdFilter := if k = .fd then sel.fdFilter else none
    inet := match k with
      | .net => { sel.inet with specs := [] }
      | .na => { sel.inet with all := false }
      | _ => {}
    unixOnly := if k = .unx then sel.unixOnly else false
    paths := if k = .nm then sel.paths else []
    dirTrees := if k = .nm then sel.dirTrees else []
    dirsOneLevel := if k = .nm then sel.dirsOneLevel else []
    pathIds := if k = .nm then sel.pathIds else []
    pathNames := if k = .nm then sel.pathNames else []
    pathItems := if k = .nm then sel.pathItems else []
    pathFsDevices := if k = .nm then sel.pathFsDevices else []
    maxLinks := if k = .nlink then sel.maxLinks else none }

def listedAt (procs : List Process) : Set (Nat × Nat) :=
  { at_ | ∃ p f, procs[at_.1]? = some p ∧ p.files[at_.2]? = some f ∧
      sel.listsRow (pidsWithTasks procs) p f = true }

section OneKind

variable {sel : Selection} {k : SelKind}

theorem excludesProcess_onlyKind (p : Process) :
    (sel.onlyKind k).excludesProcess p = sel.excludesProcess p := rfl

theorem given_onlyKind (hk : sel.given k = true) (htask : sel.tasks ≠ .always)
    (hnfs : sel.nfsOnly = false) (j : SelKind) : (sel.onlyKind k).given j = true ↔ j = k := by
  have hktask : k ≠ .task := by rintro rfl; simp [given, htask] at hk
  have hknfs : k ≠ .nfs := by rintro rfl; simp [given, hnfs] at hk
  constructor
  · intro hj
    by_contra hne
    cases j with
    | task => exact htask (by simpa [given, onlyKind] using hj)
    | nfs => simp [given, onlyKind, hnfs] at hj
    | net =>
      cases k <;> first | exact hne rfl | skip
      all_goals simp_all [given, onlyKind, InetFilter.bare]
    | na => cases k <;> simp_all [given, onlyKind]
    | _ =>
      simp [given, onlyKind, hasPathFilter, Ne.symm hne] at hj
  · rintro rfl
    cases j with
    | net =>
      simp only [given, InetFilter.bare, Bool.or_eq_true, Bool.and_eq_true] at hk
      simp only [given, onlyKind, InetFilter.bare, Bool.or_eq_true, Bool.and_eq_true]
      exact hk.imp id (fun h => ⟨h.1, rfl⟩)
    | task => exact absurd rfl hktask
    | nfs => exact absurd rfl hknfs
    | _ => simpa [given, onlyKind, hasPathFilter] using hk

theorem procTest_onlyKind {p : Process} (htid : p.tid = none) (j : SelKind) :
    (sel.onlyKind k).procTest p j = true ↔ j = k ∧ sel.procTest p k = true := by
  by_cases hjk : j = k
  · subst hjk
    cases j <;>
      simp [procTest, onlyKind, usersMatch, commandMatches, htid]
  · cases j <;>
      simp [procTest, onlyKind, usersMatch, htid, hjk, Ne.symm hjk]

theorem fileTest_onlyKind {f : OpenFile} (hk : sel.given k = true) (htask : sel.tasks ≠ .always)
    (hnfs : sel.nfsOnly = false) (j : SelKind) :
    (sel.onlyKind k).fileTest f j = true ↔ j = k ∧ sel.fileTest f k = true := by
  by_cases hjk : j = k
  · subst hjk
    cases j with
    | net =>
      have hbare := (given_onlyKind hk htask hnfs .net).mpr rfl
      simp only [given] at hbare hk
      simp only [fileTest, InetFilter.allMatches, hbare, hk]
      simp [onlyKind]
    | _ => simp [fileTest, onlyKind, hasPathFilter, pathMatches, isNfsFile, nfsMountOf, isReglr]
  · have hno : (sel.onlyKind k).given j = false := by
      rw [← Bool.not_eq_true, given_onlyKind hk htask hnfs]
      exact hjk
    simp only [hjk, false_and, iff_false]
    intro h
    rw [(sel.onlyKind k).given_of_fileTest h] at hno
    cases hno

end OneKind

/-- A run without `-K`, `-N` and endpoints, over entries that are no tasks. -/
structure Plain (procs : List Process) : Prop where
  noTasks : sel.tasks ≠ .always
  noNfs : sel.nfsOnly = false
  noEndpoints : sel.endpoints = none
  entries : ∀ p ∈ procs, p.tid = none ∧ p.endpointPeer = false ∧ ∀ f ∈ p.files, f.fd ≠ .task

variable {sel}

theorem fileTest_nameRow_of_not_nfs (h : sel.nfsOnly = false) (f : OpenFile) (k : SelKind) :
    sel.fileTest (sel.nameRow f) k = sel.fileTest f k := by
  by_cases hk : k = .nfs
  · subst hk
    simp [fileTest, h]
  · exact sel.fileTest_nameRow f hk

variable {procs : List Process}

theorem Plain.onlyKind (h : sel.Plain procs) (k : SelKind) : (sel.onlyKind k).Plain procs :=
  ⟨h.noTasks, h.noNfs, h.noEndpoints, h.entries⟩

variable {p : Process}

theorem Plain.listsRow_iff (h : sel.Plain procs)
    (hp : p ∈ procs) (f : OpenFile) (hgiven : ∃ k, sel.given k = true) (withTasks : List Nat) :
    sel.listsRow withTasks p f = true ↔
      (sel.excludesProcess p = false ∧ sel.stateMatches f = true) ∧
        (∃ k, sel.procTest p k = true ∨ sel.fileTest f k = true) ∧
        (sel.andMode = true → ∀ k, sel.given k = true → sel.procTest p k = true ∨ sel.fileTest f k = true) := by
  obtain ⟨htid, hpeer, _⟩ := h.entries p hp
  have hevery : sel.readsEveryProcess = false := by simp [readsEveryProcess, h.noEndpoints]
  have hspec : sel.specified.isEmpty = false := by
    obtain ⟨k, hk⟩ := hgiven
    exact KindSet.isEmpty_eq_false_iff.mpr ⟨k, sel.mem_specified.mpr hk⟩
  unfold listsRow
  rw [readsEntry_of_not_every _ hevery]
  cases hx : sel.excludesProcess p with
  | true => simp
  | false =>
    have hkinds : ∀ k, k ∈ sel.inheritedKinds withTasks p ↔ sel.procTest p k = true := by
      intro k
      rw [inheritedKinds_of_not_excluded _ hx, mem_entryKinds]
      simp [h.noTasks]
    have hkeeps := sel.keepsRow_iff hspec (sel.peerOnly_of_not_peer hpeer withTasks)
      (sel.nameRow f)
    simp only [hkinds, fileTest_nameRow_of_not_nfs h.noNfs] at hkeeps
    rw [Bool.and_eq_true, hkeeps]
    simp

theorem Plain.listsRow_onlyKind (h : sel.Plain procs)
    (hp : p ∈ procs) (f : OpenFile) {k : SelKind} (hk : sel.given k = true) (withTasks : List Nat) :
    (sel.onlyKind k).listsRow withTasks p f = true ↔
      (sel.excludesProcess p = false ∧ sel.stateMatches f = true) ∧
        (sel.procTest p k = true ∨ sel.fileTest f k = true) := by
  have hself := (given_onlyKind hk h.noTasks h.noNfs k).mpr rfl
  have htid := (h.entries p hp).1
  have hand : (sel.onlyKind k).andMode = false := rfl
  rw [(h.onlyKind k).listsRow_iff hp f ⟨k, hself⟩ withTasks, excludesProcess_onlyKind]
  simp only [procTest_onlyKind htid, fileTest_onlyKind hk h.noTasks h.noNfs, hand,
    Bool.false_eq_true, false_implies, and_true]
  constructor
  · rintro ⟨hx, j, ⟨rfl, hproc⟩ | ⟨rfl, hfile⟩⟩
    · exact ⟨hx, Or.inl hproc⟩
    · exact ⟨hx, Or.inr hfile⟩
  · rintro ⟨hx, hproc | hfile⟩
    · exact ⟨hx, k, Or.inl ⟨rfl, hproc⟩⟩
    · exact ⟨hx, k, Or.inr ⟨rfl, hfile⟩⟩

theorem Plain.given_of_test (h : sel.Plain procs) (hp : p ∈ procs) {f : OpenFile} {k : SelKind}
    (hk : sel.procTest p k = true ∨ sel.fileTest f k = true) : sel.given k = true := by
  rcases hk with hk | hk
  · rcases sel.given_of_procTest hk with rfl | hk
    · simp [procTest, (h.entries p hp).1] at hk
    · exact hk
  · exact sel.given_of_fileTest hk

/-- OR is union and AND is intersection: the listing is the rows at `listedAt`,
in their order, and `listedAt` is the union over the kinds given of what each
kind alone lists, or under `-a` the intersection. -/
theorem apply_union_inter (procs : List Process) (h : sel.Plain procs) (hgiven : sel.specified.isEmpty = false) :
    (∀ s : Selection, s = sel ∨ (∃ k, sel.given k = true ∧ s = sel.onlyKind k) →
      (listedRows (s.apply procs)).map (fun r => (r.1, r.2.unnamed)) =
        ((gatheredRows procs).filter (fun r => s.listsRow (pidsWithTasks procs) r.1 r.2)).map
            (fun r => (r.1.header, r.2.unnamed))) ∧
      (sel.andMode = false → sel.listedAt procs = ⋃ k ∈ { k | sel.given k = true }, (sel.onlyKind k).listedAt procs) ∧
      (sel.andMode = true →
        sel.listedAt procs = ⋂ k ∈ { k | sel.given k = true }, (sel.onlyKind k).listedAt procs) := by
  obtain ⟨k₀, hk₀⟩ : ∃ k, sel.given k = true := by
    obtain ⟨k, hk⟩ := KindSet.isEmpty_eq_false_iff.mp hgiven
    exact ⟨k, sel.mem_specified.mp hk⟩
  refine ⟨?_, ?_, ?_⟩
  · intro s hs
    have hend : s.endpoints = none := by
      rcases hs with rfl | ⟨k, _, rfl⟩
      · exact h.noEndpoints
      · exact h.noEndpoints
    rw [s.apply_of_no_endpoints hend, s.listedRows_applyRows, map_map]
    apply map_congr_left
    intro r _
    simp [nameRow_unnamed]
  · intro hand
    ext at_
    simp only [listedAt, Set.mem_iUnion, Set.mem_ofPred_eq]
    constructor
    · rintro ⟨p, f, hp, hf, hl⟩
      have hmem := mem_of_getElem? hp
      obtain ⟨hx, ⟨k, hk⟩, _⟩ := (h.listsRow_iff hmem f ⟨k₀, hk₀⟩ _).mp hl
      have hkg := h.given_of_test hmem hk
      exact ⟨k, hkg, p, f, hp, hf, (h.listsRow_onlyKind hmem f hkg _).mpr ⟨hx, hk⟩⟩
    · rintro ⟨k, hk, p, f, hp, hf, hl⟩
      have hmem := mem_of_getElem? hp
      obtain ⟨hx, htest⟩ := (h.listsRow_onlyKind hmem f hk _).mp hl
      refine ⟨p, f, hp, hf, (h.listsRow_iff hmem f ⟨k₀, hk₀⟩ _).mpr ⟨hx, ⟨k, htest⟩, ?_⟩⟩
      simp [hand]
  · intro hand
    ext at_
    simp only [listedAt, Set.mem_iInter, Set.mem_ofPred_eq]
    constructor
    · rintro ⟨p, f, hp, hf, hl⟩ k hk
      have hmem := mem_of_getElem? hp
      obtain ⟨hx, _, hall⟩ := (h.listsRow_iff hmem f ⟨k₀, hk₀⟩ _).mp hl
      exact ⟨p, f, hp, hf, (h.listsRow_onlyKind hmem f hk _).mpr ⟨hx, hall hand k hk⟩⟩
    · intro hall
      obtain ⟨p, f, hp, hf, hl⟩ := hall k₀ hk₀
      have hmem := mem_of_getElem? hp
      obtain ⟨hx, htest⟩ := (h.listsRow_onlyKind hmem f hk₀ _).mp hl
      refine ⟨p, f, hp, hf, (h.listsRow_iff hmem f ⟨k₀, hk₀⟩ _).mpr ⟨hx, ⟨k₀, htest⟩, ?_⟩⟩
      intro _ k hk
      -- Every kind alone lists this very row: same position, same row.
      obtain ⟨p', f', hp', hf', hl'⟩ := hall k hk
      rw [hp] at hp'
      cases hp'
      rw [hf] at hf'
      cases hf'
      exact ((h.listsRow_onlyKind hmem f hk _).mp hl').2

/-- `lsof -p 1 -d 3` over two processes that each hold descriptor 3. -/
def pidOrFd : Selection :=
  { pids := [1], fdFilter := some { «include» := [.num 3] } }

def twoProcesses : List Process :=
  [{ pid := 1, files := [{ fd := .cwd, fileType := .dir }, { fd := .handle 3, fileType := .regular }] },
    { pid := 2, files := [{ fd := .cwd, fileType := .dir }, { fd := .handle 3, fileType := .regular }] }]

theorem pidOrFd_plain : pidOrFd.Plain twoProcesses :=
  ⟨by decide, rfl, rfl, by decide⟩

theorem apply_union_inter_pidOrFd :
    pidOrFd.specified.isEmpty = false ∧ (1, 1) ∈ pidOrFd.listedAt twoProcesses ∧
      pidOrFd.listedAt twoProcesses =
        ⋃ k ∈ { k | pidOrFd.given k = true }, (pidOrFd.onlyKind k).listedAt twoProcesses := by
  refine ⟨by decide, ⟨_, _, rfl, rfl, by decide⟩, ?_⟩
  exact (apply_union_inter twoProcesses pidOrFd_plain (by decide)).2.1 rfl

end Lsof.Core.Selection
