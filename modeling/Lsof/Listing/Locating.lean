import Lsof.Core.Endpoints
import Lsof.Core.Locate

/-! # What is printed counts as located

`apply` and `locate` are two walks over the same entries, written apart. An
entry that gets into the listing has met, under `-a`, every process-level kind
`locate` asks for before it compares a command or looks at a row, so no search
item a listed line matches is reported as not located.
-/

namespace Lsof.Core.Selection

open Lsof.Basis List

variable {sel : Selection}

/-- What a backend promises without `-E` and `+E`: it marks no entry as the
other end of a pipe, and a thread row is no socket. -/
structure Gathered (gathered : List Process) : Prop where
  noPeers : ∀ p ∈ gathered, p.endpointPeer = false
  threads : ∀ p ∈ gathered, ∀ f ∈ p.files, f.fd = .task → f.isInternet = false ∧ f.fileType ≠ .unix

/-- A `-p`, `-g`, `-u` or `-c` value that a listed process matches. -/
inductive ProcessMatches (sel : Selection) (q : Process) : SearchItem → Prop
  | pid {i : Nat} (h : sel.pids[i]? = some q.pid) : ProcessMatches sel q (.pid i)
  | pgid {i g : Nat} (h : sel.pgids[i]? = some g) (hq : q.pgid = some g) :
      ProcessMatches sel q (.pgid i)
  | uid {i : Nat} {s : UidSel} (h : sel.uids[i]? = some s) (hq : q.uid = some s.uid) :
      ProcessMatches sel q (.uid i)
  | user {i : Nat} {u : Text} (h : sel.users[i]? = some u) (hq : userMatches u q.user = true) :
      ProcessMatches sel q (.user i)
  | command {i : Nat} {c : Bytes} (h : sel.commands[i]? = some c)
      (hq : sel.commandMatches c q = true) : ProcessMatches sel q (.command i)

inductive RowMatches (sel : Selection) (withTasks : List Nat) (q : Process) (g : OpenFile) :
    SearchItem → Prop
  | process {item : SearchItem} (h : ProcessMatches sel q item) : RowMatches sel withTasks q g item
  | inet {i : Nat} {spec : InetSpec} (h : sel.inet.specs[i]? = some spec)
      (hg : spec.matches g = true) : RowMatches sel withTasks q g (.inet i)
  | inetAll (hg : sel.inet.allMatches g = true) : RowMatches sel withTasks q g .inetAll
  | task (h : sel.tasks = .always) (hg : .task ∈ sel.entryKinds q withTasks ∨ g.fd = .task) :
      RowMatches sel withTasks q g .tasks
  | state {i : Nat} {filter : StateFilter} {state : TcpState} (h : sel.stateFilter = some filter)
      (hi : filter.include[i]? = some state)
      (hg : g.socket.bind SocketInfo.filterState = some state) :
      RowMatches sel withTasks q g (.state i)

variable {p : Process} {gathered : List Process} {f : OpenFile}

theorem task_of_thread (hp : p ∈ gathered) (hf : f ∈ p.files) (hfd : f.fd = .task) (hand : sel.andMode = true)
    (htasks : sel.tasks = .always) : .task ∈ sel.entryKinds p (pidsWithTasks gathered) := by
  rw [mem_entryKinds]
  cases htid : p.tid with
  | some t => exact Or.inl (by simp [procTest, htid])
  | none =>
    have hmem : p.pid ∈ pidsWithTasks gathered :=
      mem_pidsWithTasks.mpr ⟨p, hp, Or.inr ⟨f, hf, hfd⟩, rfl⟩
    exact Or.inr ⟨rfl, hand, htasks, rfl, hmem⟩

theorem met_of_kept (hpeer : ∀ p ∈ gathered, p.endpointPeer = false)
    (hp : p ∈ gathered) (hx : sel.excludesProcess p = false) (hf : f ∈ p.files)
    (hkeep : sel.keepsRow (pidsWithTasks gathered) p (sel.nameRow f) = true)
    (hand : sel.andMode = true) {k : SelKind} (hk : k ∈ SelKinds.proc ∨ k = .task)
    (hg : sel.given k = true) : k ∈ sel.entryKinds p (pidsWithTasks gathered) := by
  have hspec : sel.specified.isEmpty = false :=
    KindSet.isEmpty_eq_false_iff.mpr ⟨k, sel.mem_specified.mpr hg⟩
  have hall := ((sel.keepsRow_iff hspec
    (sel.peerOnly_of_not_peer (hpeer p hp) (pidsWithTasks gathered)) _).mp hkeep).2 hand k hg
  rw [inheritedKinds_of_not_excluded _ hx] at hall
  rcases hall with hin | hfile
  · exact hin
  · rcases hk with hk | rfl
    · rw [sel.fileTest_proc _ hk] at hfile
      cases hfile
    · rw [sel.fileTest_nameRow f (by decide)] at hfile
      simp only [fileTest, Bool.and_eq_true, beq_iff_eq] at hfile
      exact task_of_thread hp hf hfile.2 hand hfile.1

variable {withTasks : List Nat}

theorem met_of_bare (hx : sel.excludesProcess p = false)
    (hbare : sel.bareLine withTasks p = true) (hand : sel.andMode = true) {k : SelKind}
    (hk : k ∈ SelKinds.proc ∨ k = .task) (hg : sel.given k = true) : k ∈ sel.entryKinds p withTasks := by
  simp only [bareLine, inheritedKinds_of_not_excluded _ hx, hand, Bool.not_eq_true',
    Bool.or_eq_false_iff, Bool.not_eq_false', Bool.true_or, Bool.and_true] at hbare
  obtain ⟨⟨⟨⟨_, hsel⟩, _⟩, _⟩, hmiss⟩ := hbare
  rcases hk with hk | rfl
  · exact (sel.procSelected_and hand _).mp hsel k hk hg
  · have hspec : sel.specified.contains (.single .task) = true := by
      rw [KindSet.contains_iff]
      intro k' hk'
      rw [KindSet.mem_single.mp hk']
      exact sel.mem_specified.mpr hg
    rw [hspec, Bool.true_and, Bool.not_eq_false'] at hmiss
    exact KindSet.contains_iff.mp hmiss _ (KindSet.mem_single.mpr rfl)

theorem examines_of_met (hx : sel.excludesProcess p = false)
    (hmet : sel.andMode = true → ∀ k, k ∈ SelKinds.proc ∨ k = .task → sel.given k = true →
      k ∈ sel.entryKinds p withTasks) : sel.passes withTasks p = true ∧ sel.examines withTasks p = true := by
  have hpass : sel.passes withTasks p = true := by
    unfold passes
    rw [hx, inheritedKinds_of_not_excluded _ hx]
    cases hand : sel.andMode with
    | false => rfl
    | true =>
      simp only [Bool.not_false, Bool.not_true, Bool.true_and, Bool.false_or, KindSet.contains_iff]
      intro k hk
      rw [andKinds, KindSet.mem_intersection, mem_specified] at hk
      refine hmet hand k ?_ hk.1
      rw [SelKinds.mem_proc]
      have hkind := hk.2
      simp only [KindSet.mem_union, KindSet.mem_single] at hkind
      tauto
  refine ⟨hpass, ?_⟩
  unfold examines
  rw [hpass, inheritedKinds_of_not_excluded _ hx]
  cases hand : sel.andMode with
  | false => simp
  | true =>
    have hsel := (sel.procSelected_and hand _).mpr fun k hk hg => hmet hand k (Or.inl hk) hg
    simp [hsel]

theorem entryItem_of_processMatches {files : List OpenFile}
    (hx : sel.excludesProcess p = false) (hpass : sel.passes withTasks p = true)
    {item : SearchItem} (h : ProcessMatches sel { p with files := files } item) :
    sel.entryItem withTasks p item = true := by
  have hmark : sel.processItem p item = true ∨ sel.commandItem p item = true := by
    cases h with
    | pid h => exact Or.inl (by simp [processItem, h])
    | pgid h hq => exact Or.inl (by simpa [processItem, h] using hq)
    | uid h hq => exact Or.inl (by simpa [processItem, h] using hq)
    | user h hq => exact Or.inl (by simpa [processItem, h] using hq)
    | command h hq => exact Or.inr (by simp only [commandItem, h, Option.any_some]; exact hq)
  rcases hmark with hmark | hmark
  · simp [entryItem, hx, hmark]
  · simp [entryItem, hpass, hmark]

theorem not_socketRowsOnly_of_thread (hpeer : p.endpointPeer = false) (hx : sel.excludesProcess p = false)
    (hnet : f.isInternet = false ∧ f.fileType ≠ .unix) (htasks : sel.tasks = .always)
    (hkeep : sel.keepsRow withTasks p (sel.nameRow f) = true) : sel.socketRowsOnly = false := by
  by_contra honly
  rw [Bool.not_eq_false] at honly
  simp only [socketRowsOnly, Bool.and_eq_true, Bool.or_eq_true] at honly
  obtain ⟨⟨hsome, hmode⟩, _⟩ := honly
  -- The task kind is given beside the network kind, so this is an `-a` run.
  have htask : sel.given .task = true := by simp [given, htasks]
  have hand : sel.andMode = true := by
    rcases hmode with hand | hempty
    · exact hand
    · have hno := KindSet.isEmpty_iff.mp hempty .task
      rw [KindSet.mem_without, mem_specified] at hno
      exact absurd ⟨htask, by simp [SelKinds.mem_network]⟩ hno
  obtain ⟨n, hn, hnetwork⟩ := KindSet.intersects_iff.mp hsome
  rw [mem_specified] at hn
  have hspec : sel.specified.isEmpty = false :=
    KindSet.isEmpty_eq_false_iff.mpr ⟨n, sel.mem_specified.mpr hn⟩
  have hall := ((sel.keepsRow_iff hspec (sel.peerOnly_of_not_peer hpeer withTasks) _).mp hkeep).2 hand n hn
  have hkind : n = .net ∨ n = .na ∨ n = .unx := by
    rw [SelKinds.mem_network] at hnetwork
    exact hnetwork
  rw [inheritedKinds_of_not_excluded _ hx, mem_entryKinds] at hall
  rcases hall with (hproc | ⟨rfl, _⟩) | hfile
  · rcases hkind with rfl | rfl | rfl <;> simp [procTest] at hproc
  · simp at hkind
  · have hne : n ≠ .nfs := by
      rintro rfl
      simp at hkind
    rw [sel.fileTest_nameRow f hne] at hfile
    rcases sel.socket_of_networkTest hnetwork hfile with h | h
    · rw [hnet.1] at h
      cases h
    · exact hnet.2 h

theorem entryItem_of_rowMatches (hg : Gathered gathered) (hp : p ∈ gathered) (hx : sel.excludesProcess p = false)
    (hpass : sel.passes (pidsWithTasks gathered) p = true)
    (hexam : sel.examines (pidsWithTasks gathered) p = true) (hf : f ∈ p.files) (hstate : sel.stateMatches f = true)
    (hkeep : sel.keepsRow (pidsWithTasks gathered) p (sel.nameRow f) = true)
    {files : List OpenFile} {item : SearchItem}
    (h : RowMatches sel (pidsWithTasks gathered) { p with files := files } (sel.nameRow f) item) :
    sel.entryItem (pidsWithTasks gathered) p item = true := by
  have hnamed := eq_named_of_unnamed (sel.nameRow_unnamed f)
  have hrow : ∀ {item}, sel.rowItem (sel.inheritedKinds (pidsWithTasks gathered) p)
        sel.socketRowsOnly f item = true →
      sel.entryItem (pidsWithTasks gathered) p item = true := by
    intro item hitem
    have hany : sel.fileItem (sel.inheritedKinds (pidsWithTasks gathered) p) sel.socketRowsOnly p
        item = true := by
      simp only [fileItem, Bool.or_eq_true, any_eq_true, mem_filter]
      exact Or.inr ⟨f, ⟨hf, hstate⟩, hitem⟩
    simp [entryItem, hexam, hany]
  cases h with
  | process h => exact entryItem_of_processMatches hx hpass h
  | inet h hmatch =>
    apply hrow
    rw [hnamed] at hmatch
    simp only [rowItem, h, Option.any_some]
    exact hmatch
  | inetAll hmatch =>
    apply hrow
    rw [hnamed] at hmatch
    exact hmatch
  | task htasks hmatch =>
    apply hrow
    have hfd : (sel.nameRow f).fd = f.fd := by rw [hnamed]
    have hopen : (sel.socketRowsOnly && f.fd == .task) = false := by
      by_cases hthread : f.fd = .task
      · rw [not_socketRowsOnly_of_thread (hg.noPeers p hp) hx (hg.threads p hp f hf hthread) htasks hkeep]
        rfl
      · simp [hthread]
    have hkind : .task ∈ (sel.entryKinds p (pidsWithTasks gathered)).union (sel.fileKinds f) := by
      rw [KindSet.mem_union, mem_fileKinds]
      rcases hmatch with hmatch | hmatch
      · exact Or.inl hmatch
      · exact Or.inr (by simp [fileTest, htasks, ← hfd, hmatch])
    have hcontains : ((sel.entryKinds p (pidsWithTasks gathered)).union
        (sel.fileKinds f)).contains (.single .task) = true := by
      rw [KindSet.contains_iff]
      intro k hk
      rw [KindSet.mem_single.mp hk]
      exact hkind
    simp [rowItem, htasks, hopen, inheritedKinds_of_not_excluded _ hx, hcontains]
  | @state i filter state hfilter hi hmatch =>
    rw [hnamed] at hmatch
    have hany : sel.fileItem (sel.inheritedKinds (pidsWithTasks gathered) p) sel.socketRowsOnly p
        (.state i) = true := by
      simp only [fileItem, Bool.or_eq_true, any_eq_true]
      refine Or.inl ⟨f, hf, ?_⟩
      have hbind : f.socket.bind SocketInfo.filterState = some state := hmatch
      simp only [stateItem, hbind, Option.any_some, includedStates, hfilter, Option.map_some,
        Option.getD_some, hi, beq_self_eq_true]
    simp [entryItem, hexam, hany]

/-- What is printed counts as located: every search item a listed row matches
is marked, and so is every process item a line without rows matches. -/
theorem locate_of_listed (gathered : List Process) (hend : sel.endpoints = none)
    (hg : Gathered gathered) {q : Process} (hq : q ∈ sel.apply gathered) :
    (∀ g ∈ q.files, ∀ item, RowMatches sel (pidsWithTasks gathered) q g item →
        (sel.locate gathered).marks item = true) ∧
      (q.files = [] → ∀ item, ProcessMatches sel q item → (sel.locate gathered).marks item = true) := by
  rw [sel.apply_of_no_endpoints hend] at hq
  obtain ⟨p, hp, happ⟩ := sel.mem_applyRows.mp hq
  obtain ⟨hread, hline, rfl⟩ := sel.applyEntry_eq_some.mp happ
  have hevery : sel.readsEveryProcess = false := by simp [readsEveryProcess, hend]
  have hx : sel.excludesProcess p = false := by
    rw [readsEntry_of_not_every _ hevery, Bool.not_eq_true'] at hread
    exact hread
  have hmet : sel.andMode = true → ∀ k, k ∈ SelKinds.proc ∨ k = .task → sel.given k = true →
      k ∈ sel.entryKinds p (pidsWithTasks gathered) := by
    intro hand k hk hgiven
    rcases hline with hrows | hbare
    · obtain ⟨g, hgmem⟩ := exists_mem_of_ne_nil _ hrows
      obtain ⟨f, hf, _, hkeep, _⟩ := sel.mem_keptRows.mp hgmem
      exact met_of_kept hg.noPeers hp hx hf hkeep hand hk hgiven
    · exact met_of_bare hx hbare hand hk hgiven
  obtain ⟨hpass, hexam⟩ := examines_of_met hx hmet
  simp only [marks_locate, any_eq_true]
  constructor
  · intro g hgmem item hmatch
    obtain ⟨f, hf, hstate, hkeep, rfl⟩ := sel.mem_keptRows.mp hgmem
    exact ⟨p, hp, entryItem_of_rowMatches hg hp hx hpass hexam hf hstate hkeep hmatch⟩
  · intro _ item hmatch
    exact ⟨p, hp, entryItem_of_processMatches hx hpass hmatch⟩

/-- `lsof -a -p 1 -K -s TCP:LISTEN -i`. -/
def listeningTasks : Selection where
  andMode := true
  pids := [1]
  tasks := .always
  inet := { enabled := true, all := true }
  stateFilter := some { «include» := [.listen] }

/-- A process with a thread of its own entry, both holding a listening socket. -/
def listeners : List Process :=
  let listener : SocketInfo := { protocol := .tcp, state := some (.tcp .listen) }
  let files : List OpenFile := [{ fd := .handle 3, fileType := .ipv4, socket := some listener }]
  [{ pid := 1, files := files }, { pid := 1, tid := some 7, files := files }]

theorem locate_of_listed_listeners :
    listeningTasks.apply listeners = listeners ∧
      ∀ q ∈ listeners, ∀ g ∈ q.files, ∀ item,
        RowMatches listeningTasks (pidsWithTasks listeners) q g item →
          (listeningTasks.locate listeners).marks item = true := by
  have hall : listeningTasks.apply listeners = listeners := by decide
  refine ⟨hall, fun q hq => ?_⟩
  rw [← hall] at hq
  exact (locate_of_listed listeners rfl ⟨by decide, by decide⟩ hq).1

end Lsof.Core.Selection
