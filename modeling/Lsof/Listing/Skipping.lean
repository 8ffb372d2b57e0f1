import Lsof.Core.Endpoints

/-! # What a backend may leave unread

A backend asks three questions before it reads a process's files: whether the
process can contribute at all, whether only its sockets can, and whether `-t`
needs any file. Each answer is compared with what applying the selection to
everything would have listed.
-/

namespace Lsof.Core.Selection

open Lsof.Basis List

variable {sel : Selection}

/-- Two entries say the same of the process they belong to. -/
structure SameProcess (p q : Process) : Prop where
  uid : p.uid = q.uid
  user : p.user = q.user
  command : p.command = q.command
  commandBytes : p.commandBytes = q.commandBytes
  pgid : p.pgid = q.pgid
  ppid : p.ppid = q.ppid

/-- A gathered list in which no entry is there as a peer, and the entries of one
PID agree. -/
structure Agreeing (procs : List Process) : Prop where
  noPeers : ∀ p ∈ procs, p.endpointPeer = false
  agree : ∀ p ∈ procs, ∀ q ∈ procs, p.pid = q.pid → SameProcess p q

theorem commandMatches_congr {p q : Process} (h : SameProcess p q) (needle : Bytes) :
    sel.commandMatches needle p = sel.commandMatches needle q := by
  simp only [commandMatches, h.command, h.commandBytes]

theorem excludesProcess_congr {p q : Process} (hpid : p.pid = q.pid) (h : SameProcess p q) :
    sel.excludesProcess p = sel.excludesProcess q := by
  simp only [excludesProcess, commandMatches_congr h, h.user, h.uid, h.pgid, hpid]

variable {k : SelKind}

theorem procTest_congr {p q : Process} (hpid : p.pid = q.pid) (h : SameProcess p q)
    (hk : k ≠ .task) : sel.procTest p k = sel.procTest q k := by
  cases k with
  | task => exact absurd rfl hk
  | _ => simp only [procTest, usersMatch, commandMatches_congr h, h.user, h.uid, h.pgid, h.ppid, hpid]

variable {p : Process}

theorem selectsProcess_of_and (hand : sel.andMode = true) :
    sel.selectsProcess p = true ↔
      sel.excludesProcess p = false ∧ ∀ k ∈ SelKinds.proc, sel.given k = true → sel.procTest p k = true := by
  have hselected := sel.procSelected_and hand (sel.procKinds p)
  simp only [mem_procKinds] at hselected
  unfold selectsProcess
  cases hx : sel.excludesProcess p with
  | true => simp
  | false =>
    cases he : sel.specified.isEmpty with
    | true =>
      have hnone := KindSet.isEmpty_iff.mp he
      simp only [mem_specified] at hnone
      simp [hnone]
    | false => simp [hand, hselected]

theorem rejected_cases (hx : sel.excludesProcess p = false) (hrej : sel.selectsProcess p = false) :
    sel.procSelected (sel.procKinds p) = false ∧
      (sel.andMode = false → ∀ k ∈ SelKinds.file, sel.given k = false) := by
  constructor
  · unfold selectsProcess at hrej
    simp only [hx, Bool.false_eq_true, if_false] at hrej
    split at hrej
    · cases hrej
    · split at hrej
      · cases hrej
      · split at hrej
        · cases hrej
        · exact hrej
  · intro hand k hk
    by_contra hg
    rw [Bool.not_eq_false] at hg
    have hfile : sel.specified.intersects SelKinds.file = true :=
      KindSet.intersects_iff.mpr ⟨k, sel.mem_specified.mpr hg, hk⟩
    have hspec : sel.specified.isEmpty = false :=
      KindSet.isEmpty_eq_false_iff.mpr ⟨k, sel.mem_specified.mpr hg⟩
    simp [selectsProcess, hx, hspec, hand, hfile] at hrej

theorem given_proc_of_not_selected {kinds : SelKinds} (h : sel.procSelected kinds = false) :
    ∃ k ∈ SelKinds.proc, sel.given k = true := by
  by_contra hnone
  push Not at hnone
  have htrue : sel.procSelected kinds = true := by
    cases hand : sel.andMode with
    | true =>
      rw [procSelected_and _ hand]
      intro k hk hg
      exact absurd hg (hnone k hk)
    | false =>
      rw [procSelected_or _ hand]
      rintro ⟨k, hk, hg⟩
      exact absurd hg (hnone k hk)
  rw [htrue] at h
  cases h

variable {withTasks : List Nat}

/-- What is printed of a rejected process: thread rows under `-K` without `-a`. -/
theorem rejected_entry {p q : Process} (hend : sel.endpoints = none)
    (hpeer : p.endpointPeer = false) (hrej : sel.selectsProcess p = false)
    (happ : sel.applyEntry withTasks p = some q) :
    sel.tasks = .always ∧ sel.andMode = false ∧ (∃ k ∈ SelKinds.proc, sel.given k = true) ∧
      (∀ k ∈ SelKinds.file, sel.given k = false) ∧ q.files ≠ [] ∧ ∀ f ∈ q.files, f.fd = .task := by
  obtain ⟨hread, hline, rfl⟩ := sel.applyEntry_eq_some.mp happ
  have hevery : sel.readsEveryProcess = false := by simp [readsEveryProcess, hend]
  rw [readsEntry_of_not_every _ hevery, Bool.not_eq_true'] at hread
  obtain ⟨hsel, hfiles⟩ := rejected_cases hread hrej
  obtain ⟨k₀, hk₀, hg₀⟩ := given_proc_of_not_selected hsel
  have hspec : sel.specified.isEmpty = false :=
    KindSet.isEmpty_eq_false_iff.mpr ⟨k₀, sel.mem_specified.mpr hg₀⟩
  have hkeeps := sel.keepsRow_iff hspec (sel.peerOnly_of_not_peer hpeer withTasks)
  simp only [inheritedKinds_of_not_excluded _ hread] at hkeeps
  have hbareSel : sel.bareLine withTasks p = true →
      sel.procSelected (sel.entryKinds p withTasks) = true := by
    intro hbare
    simp only [bareLine, inheritedKinds_of_not_excluded _ hread, Bool.not_eq_true',
      Bool.or_eq_false_iff, Bool.not_eq_false'] at hbare
    exact hbare.1.1.1.2
  cases hand : sel.andMode with
  | true =>
    -- Some process kind was given that neither the entry nor a row can match.
    rw [← Bool.not_eq_true, procSelected_and _ hand] at hsel
    push Not at hsel
    obtain ⟨k, hkp, hkg, hkno⟩ := hsel
    have htask : k ≠ .task := by
      rintro rfl
      simp [SelKinds.mem_proc] at hkp
    have hinherit : k ∉ sel.entryKinds p withTasks := by
      rw [mem_procKinds] at hkno
      rw [mem_entryKinds]
      simp [hkno, htask]
    exfalso
    rcases hline with hrows | hbare
    · obtain ⟨g, hg⟩ := exists_mem_of_ne_nil _ hrows
      obtain ⟨f, _, _, hkeep, _⟩ := sel.mem_keptRows.mp hg
      rcases ((hkeeps _).mp hkeep).2 hand k hkg with hin | hfile
      · exact hinherit hin
      · rw [sel.fileTest_proc _ hkp] at hfile
        cases hfile
    · have hall := (sel.procSelected_and hand _).mp (hbareSel hbare)
      exact hinherit (hall k hkp hkg)
  | false =>
    rw [← Bool.not_eq_true, procSelected_or _ hand] at hsel
    push Not at hsel
    obtain ⟨_, hnone⟩ := hsel
    have hentry : ∀ k, k ∉ sel.entryKinds p withTasks := by
      intro k hk
      rw [mem_entryKinds] at hk
      rcases hk with hk | ⟨_, hk, _⟩
      · exact hnone k (sel.mem_procKinds.mpr hk)
      · rw [hand] at hk
        cases hk
    have hrows : sel.keptRows withTasks p ≠ [] := by
      rcases hline with hrows | hbare
      · exact hrows
      · obtain ⟨k, hk⟩ := (sel.procSelected_or hand _).mp (hbareSel hbare) ⟨k₀, hk₀, hg₀⟩
        exact absurd hk (hentry k)
    have hthread : ∀ g ∈ sel.keptRows withTasks p, sel.tasks = .always ∧ g.fd = .task := by
      intro g hg
      obtain ⟨f, _, _, hkeep, rfl⟩ := sel.mem_keptRows.mp hg
      obtain ⟨k, hin | hfile⟩ := ((hkeeps _).mp hkeep).1
      · exact absurd hin (hentry k)
      · have hkg := sel.given_of_fileTest hfile
        rcases SelKinds.kind_cases k with hkp | hkf | rfl
        · rw [sel.fileTest_proc _ hkp] at hfile
          cases hfile
        · rw [hfiles hand k hkf] at hkg
          cases hkg
        · simpa [fileTest] using hfile
    obtain ⟨g, hg⟩ := exists_mem_of_ne_nil _ hrows
    exact ⟨(hthread g hg).1, rfl, ⟨k₀, hk₀, hg₀⟩, hfiles hand, hrows, fun f hf => (hthread f hf).2⟩

theorem applyEntry_congr {withTasks withTasks' : List Nat}
    (h : sel.inheritedKinds withTasks p = sel.inheritedKinds withTasks' p) :
    sel.applyEntry withTasks p = sel.applyEntry withTasks' p := by
  have hpeer : sel.peerOnly withTasks p = sel.peerOnly withTasks' p := by
    simp only [peerOnly, h]
  have hkeeps : ∀ f, sel.keepsRow withTasks p f = sel.keepsRow withTasks' p f := by
    intro f
    unfold keepsRow
    rw [hpeer, h]
  have hrows : sel.keptRows withTasks p = sel.keptRows withTasks' p := by
    unfold keptRows
    congr 1
    funext f
    unfold retainRow
    rw [hkeeps]
  have hbare : sel.bareLine withTasks p = sel.bareLine withTasks' p := by
    unfold bareLine
    rw [hpeer, h]
  unfold applyEntry
  rw [hrows, hbare]

/-- Leaving rejected processes out hides no task from the others: under `-a`
the entries of one PID are rejected together. -/
theorem entryKinds_filter {procs : List Process} (h : Agreeing procs)
    (hp : p ∈ procs) (hsel : sel.selectsProcess p = true) :
    sel.entryKinds p (pidsWithTasks procs) = sel.entryKinds p (pidsWithTasks (procs.filter sel.selectsProcess)) := by
  apply KindSet.bits_inj
  intro k
  rw [mem_entryKinds, mem_entryKinds]
  apply or_congr_right
  constructor
  · rintro ⟨hk, hand, htasks, htid, hmem⟩
    refine ⟨hk, hand, htasks, htid, ?_⟩
    obtain ⟨t, ht, htask, hpid⟩ := mem_pidsWithTasks.mp hmem
    have hsame := h.agree t ht p hp hpid
    have htsel : sel.selectsProcess t = true := by
      rw [selectsProcess_of_and hand] at hsel ⊢
      refine ⟨by rw [excludesProcess_congr hpid hsame]; exact hsel.1, ?_⟩
      intro k hk hg
      have hkt : k ≠ .task := by
        rintro rfl
        simp [SelKinds.mem_proc] at hk
      rw [procTest_congr hpid hsame hkt]
      exact hsel.2 k hk hg
    exact mem_pidsWithTasks.mpr ⟨t, mem_filter.mpr ⟨ht, htsel⟩, htask, hpid⟩
  · rintro ⟨hk, hand, htasks, htid, hmem⟩
    obtain ⟨t, ht, htask, hpid⟩ := mem_pidsWithTasks.mp hmem
    exact ⟨hk, hand, htasks, htid, mem_pidsWithTasks.mpr ⟨t, (mem_filter.mp ht).1, htask, hpid⟩⟩

private theorem filter_filterMap_agree {α β : Type} (f g : α → Option β) (s : α → Bool)
    (t : β → Bool) (l : List α) (hst : ∀ a ∈ l, ∀ b, f a = some b → t b = s a)
    (hfg : ∀ a ∈ l, s a = true → f a = g a) : (l.filterMap f).filter t = (l.filter s).filterMap g := by
  induction l with
  | nil => rfl
  | cons a l ih =>
    have hrest := ih (fun b hb => hst b (by simp [hb])) (fun b hb => hfg b (by simp [hb]))
    cases hs : s a with
    | true =>
      rw [filter_cons_of_pos hs, filterMap_cons, filterMap_cons, ← hfg a (by simp) hs]
      cases hfa : f a with
      | none => exact hrest
      | some b =>
        have htb := hst a (by simp) b hfa
        rw [hs] at htb
        rw [filter_cons_of_pos htb, hrest]
    | false =>
      rw [filter_cons_of_neg (by simp [hs]), filterMap_cons]
      cases hfa : f a with
      | none => exact hrest
      | some b =>
        have htb := hst a (by simp) b hfa
        rw [hs] at htb
        rw [filter_cons_of_neg (by simp [htb]), hrest]

/-- `lsof -K -p 1` where process 2 has a thread row. -/
def pidAndThreads : Selection := { pids := [1], tasks := .always }

def threadOfAnother : List Process :=
  [{ pid := 1, files := [{ fd := .cwd, fileType := .dir }] },
    { pid := 2, files := [{ fd := .task, fileType := .thread }] }]

theorem threadOfAnother_agreeing : Agreeing threadOfAnother := by
  refine ⟨by decide, ?_⟩
  intro p hp q hq hpid
  simp only [threadOfAnother, mem_cons, not_mem_nil, or_false] at hp hq
  rcases hp with rfl | rfl <;> rcases hq with rfl | rfl
  · exact ⟨rfl, rfl, rfl, rfl, rfl, rfl⟩
  · cases hpid
  · cases hpid
  · exact ⟨rfl, rfl, rfl, rfl, rfl, rfl⟩

/-- A task entry of a run that names some selector: only `-K` lists one. -/
theorem tasks_of_listsTasks (hlists : sel.listsTasks = true)
    (hgiven : sel.specified.isEmpty = false) : sel.given .task = true := by
  unfold listsTasks at hlists
  cases ht : sel.tasks with
  | always => simp [given, ht]
  | never => simp [ht] at hlists
  | whenUnselected => simp [ht, hgiven] at hlists

theorem given_of_entryKinds (htasks : p.tid.isSome = true → sel.listsTasks = true)
    (hgiven : sel.specified.isEmpty = false) (hk : k ∈ sel.entryKinds p withTasks) :
    sel.given k = true ∧ k ∉ SelKinds.file := by
  rw [mem_entryKinds] at hk
  rcases hk with hk | ⟨rfl, _, htask, _⟩
  · have hnot : k ∉ SelKinds.file := by
      intro hf
      rw [sel.procTest_file p hf] at hk
      cases hk
    rcases sel.given_of_procTest hk with rfl | hg
    · exact ⟨tasks_of_listsTasks (htasks (by simpa [procTest] using hk)) hgiven, hnot⟩
    · exact ⟨hg, hnot⟩
  · exact ⟨by simp [given, htask], by simp [SelKinds.mem_file]⟩

theorem network_of_file (hno : sel.specified.intersects (SelKinds.file.without SelKinds.network) = false)
    (hk : k ∈ SelKinds.file) (hg : sel.given k = true) : k ∈ SelKinds.network := by
  by_contra hnet
  have hnone := KindSet.intersects_eq_false_iff.mp hno k (sel.mem_specified.mpr hg)
  exact hnone (KindSet.mem_without.mpr ⟨hk, hnet⟩)

theorem socket_of_kept {f : OpenFile}
    (hend : sel.endpoints = none) (hpeer : p.endpointPeer = false) (hfd : f.fd ≠ .task)
    (htasks : p.tid.isSome = true → sel.listsTasks = true)
    (honly : sel.socketsOnlyFor p = true) (hx : sel.excludesProcess p = false)
    (hkeep : sel.keepsRow withTasks p f = true) : f.isInternet = true ∨ f.fileType = .unix := by
  have hevery : sel.readsEveryProcess = false := by simp [readsEveryProcess, hend]
  have hnet : sel.specified.intersects SelKinds.network = true := by
    unfold socketsOnlyFor at honly
    split at honly
    · rename_i h
      simp only [socketRowsOnly, Bool.and_eq_true] at h
      exact h.1.1
    · simp only [Bool.and_eq_true] at honly
      exact honly.1.1.1.1.1
  obtain ⟨n, hn, hnnet⟩ := KindSet.intersects_iff.mp hnet
  have hspec : sel.specified.isEmpty = false := KindSet.isEmpty_eq_false_iff.mpr ⟨n, hn⟩
  have hnfile : n ∈ SelKinds.file := SelKinds.file_of_network hnnet
  obtain ⟨⟨k, hk⟩, hall⟩ := (sel.keepsRow_iff hspec (sel.peerOnly_of_not_peer hpeer withTasks) f).mp hkeep
  rw [inheritedKinds_of_not_excluded _ hx] at hk hall
  cases hand : sel.andMode with
  | true =>
    -- The network kind itself has to be met, and no process meets it.
    rcases hall hand n (sel.mem_specified.mp hn) with hin | hfile
    · exact absurd hnfile (given_of_entryKinds htasks hspec hin).2
    · exact sel.socket_of_networkTest hnnet hfile
  | false =>
    have hfile : sel.fileTest f k = true ∧ k ∈ SelKinds.network := by
      unfold socketsOnlyFor at honly
      split at honly
      · rename_i h
        simp only [socketRowsOnly, hand, Bool.false_or, Bool.and_eq_true] at h
        have hnone := KindSet.isEmpty_iff.mp h.1.2
        simp only [KindSet.mem_without, mem_specified, not_and, not_not] at hnone
        rcases hk with hin | hfile
        · obtain ⟨hg, hnot⟩ := given_of_entryKinds htasks hspec hin
          exact absurd (SelKinds.file_of_network (hnone k hg)) hnot
        · exact ⟨hfile, hnone k (sel.given_of_fileTest hfile)⟩
      · simp only [hevery, Bool.false_or, Bool.and_eq_true, Bool.not_eq_true'] at honly
        obtain ⟨⟨⟨⟨_, hfiles⟩, _⟩, _⟩, hproc⟩ := honly
        rcases hk with hin | hfile
        · -- The process matched nothing, so the entry inherits nothing.
          have hnone := KindSet.intersects_eq_false_iff.mp hproc
          rw [mem_entryKinds] at hin
          rcases hin with hin | ⟨_, htrue, _⟩
          · have hno := hnone k (sel.mem_procKinds.mpr hin)
            rcases SelKinds.kind_cases k with hkp | hkf | rfl
            · exact absurd (KindSet.mem_union.mpr (Or.inl hkp)) hno
            · rw [sel.procTest_file p hkf] at hin
              cases hin
            · exact absurd (KindSet.mem_union.mpr (Or.inr (KindSet.mem_single.mpr rfl))) hno
          · rw [hand] at htrue
            cases htrue
        · refine ⟨hfile, ?_⟩
          rcases SelKinds.kind_cases k with hkp | hkf | rfl
          · rw [sel.fileTest_proc f hkp] at hfile
            cases hfile
          · exact network_of_file hfiles hkf (sel.given_of_fileTest hfile)
          · simp [fileTest, hfd] at hfile
    exact sel.socket_of_networkTest hfile.2 hfile.1

/-- Reading only sockets loses nothing: of a process for which `socketsOnlyFor`
holds, nothing but Internet and AF_UNIX sockets is listed, whatever it holds. -/
theorem apply_socketsOnlyFor (procs : List Process) (hend : sel.endpoints = none)
    (hpeers : ∀ p ∈ procs, p.endpointPeer = false) (hthreads : ∀ p ∈ procs, ∀ f ∈ p.files, f.fd ≠ .task)
    (htasks : ∀ p ∈ procs, p.tid.isSome = true → sel.listsTasks = true) :
    ∀ p ∈ procs, sel.socketsOnlyFor p = true →
      ∀ q ∈ sel.apply procs, q.header = p.header → ∀ f ∈ q.files, f.isInternet = true ∨ f.fileType = .unix := by
  intro p _ honly q hq hhead g hg
  rw [sel.apply_of_no_endpoints hend] at hq
  obtain ⟨p', hp', happ⟩ := sel.mem_applyRows.mp hq
  obtain ⟨hread, _, rfl⟩ := sel.applyEntry_eq_some.mp happ
  have hevery : sel.readsEveryProcess = false := by simp [readsEveryProcess, hend]
  rw [readsEntry_of_not_every _ hevery, Bool.not_eq_true'] at hread
  -- The question reads nothing of an entry but what its line says.
  have honly' : sel.socketsOnlyFor p' = true := by
    have hsame : sel.socketsOnlyFor p'.header = sel.socketsOnlyFor p.header :=
      congrArg sel.socketsOnlyFor hhead
    exact hsame.trans honly
  obtain ⟨f, hf, _, hkeep, rfl⟩ := sel.mem_keptRows.mp hg
  have hfd : (sel.nameRow f).fd ≠ .task := by
    rw [eq_named_of_unnamed (sel.nameRow_unnamed f)]
    exact hthreads p' hp' f hf
  exact socket_of_kept hend (hpeers p' hp') hfd (htasks p' hp') honly' hread hkeep

/-- `lsof -p 1 -i` where process 2, not named, holds a directory and a socket. -/
def pidOrInet : Selection := { pids := [1], inet := { enabled := true, all := true } }

def socketHolder : List Process :=
  [{ pid := 2, files :=
      [{ fd := .cwd, fileType := .dir },
        { fd := .handle 3, fileType := .ipv4, socket := some { protocol := .tcp } }] }]

theorem apply_socketsOnlyFor_pidOrInet :
    (∀ p ∈ socketHolder, pidOrInet.socketsOnlyFor p = true) ∧
      pidOrInet.apply socketHolder ≠ [] ∧
      ∀ p ∈ socketHolder, ∀ q ∈ pidOrInet.apply socketHolder, q.header = p.header →
        ∀ f ∈ q.files, f.isInternet = true ∨ f.fileType = .unix := by
  have honly : ∀ p ∈ socketHolder, pidOrInet.socketsOnlyFor p = true := by decide
  refine ⟨honly, by decide, fun p hp => ?_⟩
  exact apply_socketsOnlyFor socketHolder rfl (by decide) (by decide) (by decide) p hp (honly p hp)

end Lsof.Core.Selection
