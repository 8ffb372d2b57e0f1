import Lsof.Core.Name
import Lsof.Core.PathIndex
import Lsof.Core.SelKinds

/-! # The selection of a run

What the options asked for, the kinds a process and a file match, and the
questions a backend asks before it reads anything. The accumulating functions
are as the source writes them; `procTest`, `fileTest` and `given` say kind by
kind what they compute.
-/

namespace Lsof.Core

open Lsof.Basis List

inductive EndpointMode where
  | info
  | files
  deriving DecidableEq, Repr

inductive TaskMode where
  | whenUnselected
  | always
  | never
  deriving DecidableEq, Repr

inductive CommandMatch where
  | prefix_
  | forgiving
  deriving DecidableEq, Repr

inductive CommandWidth where
  | standard
  | unlimited
  | chars (n : Nat)
  deriving DecidableEq, Repr

structure UidSel where
  uid : Nat
  login : Option Bytes := none
  deriving DecidableEq, Repr

structure Selection where
  host : Host := .linux
  pids : List Nat := []
  pidExcludes : List Nat := []
  pgids : List Nat := []
  pgidExcludes : List Nat := []
  users : List Text := []
  uids : List UidSel := []
  uidExcludes : List Nat := []
  commands : List Bytes := []
  commandMatch : CommandMatch := .prefix_
  userExcludes : List Text := []
  commandExcludes : List Bytes := []
  inet : InetFilter := {}
  andMode : Bool := false
  terse : Bool := false
  paths : List Bytes := []
  dirTrees : List Text := []
  dirsOneLevel : List Text := []
  pathIds : List FileId := []
  pathNames : List Bytes := []
  pathItems : List PathItem := []
  fdFilter : Option FdFilter := none
  stateFilter : Option StateFilter := none
  ppidFilter : List Nat := []
  omitUnreadable : Bool := false
  avoidBlocking : Bool := false
  pathsIdentified : Bool := false
  pathFsDevices : List (BitVec 64) := []
  commandWidth : CommandWidth := .standard
  nfsOnly : Bool := false
  nfsDevices : List (BitVec 64) := []
  hasNfs : Nat := 0
  nfsMounts : List MountEntry := []
  mqueueDevice : Option (BitVec 64) := none
  tasks : TaskMode := .whenUnselected
  unixOnly : Bool := false
  endpoints : Option EndpointMode := none
  endpointsInCore : Bool := false
  maxLinks : Option Nat := none
  deriving DecidableEq, Repr

namespace Selection

variable (sel : Selection)

def hasPathFilter : Bool :=
  !sel.paths.isEmpty || !sel.dirTrees.isEmpty || !sel.dirsOneLevel.isEmpty ||
    !sel.pathFsDevices.isEmpty

/-- The set of selector kinds this run specified: the C's `Selflags`. -/
def specified : SelKinds :=
  (((((((((((KindSet.none
    |>.insertIf (!sel.pids.isEmpty) (.single .pid))
    |>.insertIf (!sel.users.isEmpty || !sel.uids.isEmpty) (.single .uid))
    |>.insertIf (!sel.commands.isEmpty) (.single .cmd))
    |>.insertIf (!sel.pgids.isEmpty || !sel.ppidFilter.isEmpty) (.single .pgid))
    |>.insertIf sel.fdFilter.isSome (.single .fd))
    |>.insertIf sel.inet.bare (.single .net))
    |>.insertIf (!sel.inet.specs.isEmpty) (.single .na))
    |>.insertIf sel.unixOnly (.single .unx))
    |>.insertIf sel.nfsOnly (.single .nfs))
    |>.insertIf (sel.tasks == .always) (.single .task))
    |>.insertIf sel.hasPathFilter (.single .nm))
    |>.insertIf sel.maxLinks.isSome (.single .nlink)

def listsTasks : Bool :=
  match sel.tasks with
  | .always => true
  | .never => false
  | .whenUnselected => sel.specified.isEmpty && !sel.hasPathFilter

/-- Whether every process is read: under `-E` and `+E` where the backend leaves
them to the core. -/
def readsEveryProcess : Bool := sel.endpoints.isSome && sel.endpointsInCore

def commandMatches (needle : Bytes) (p : Process) : Bool :=
  match sel.commandMatch with
  | .prefix_ => needle.isPrefixOf p.commandBytes
  | .forgiving =>
    let c := p.command.toAsciiLowercase
    let n := (Wtf8.decodeLossy needle).toAsciiLowercase
    c.startsWith n || c.containsText n

def usersMatch (p : Process) : Bool :=
  sel.users.any (fun u => userMatches u p.user) ||
    p.uid.any (fun u => sel.uids.any (fun s => s.uid == u))

/-- Whether a `^` negation on `-u`, `-c`, `-g` or `-p` excludes the process. -/
def excludesProcess (p : Process) : Bool :=
  (!sel.readsEveryProcess && sel.commandExcludes.any (fun c => sel.commandMatches c p)) ||
    sel.userExcludes.any (fun u => userMatches u p.user) ||
    p.uid.any (fun u => sel.uidExcludes.contains u) ||
    sel.pidExcludes.contains p.pid ||
    p.pgid.any (fun g => sel.pgidExcludes.contains g)

/-- Which process selectors a process matches: the C's `lp->sf`. -/
def procKinds (p : Process) : SelKinds :=
  (((((KindSet.none
    |>.insertIf p.tid.isSome (.single .task))
    |>.insertIf (!sel.pids.isEmpty && sel.pids.contains p.pid) (.single .pid))
    |>.insertIf (sel.usersMatch p) (.single .uid))
    |>.insertIf (sel.commands.any (fun c => sel.commandMatches c p)) (.single .cmd))
    |>.insertIf (p.pgid.any (fun g => sel.pgids.contains g)) (.single .pgid))
    |>.insertIf (!sel.ppidFilter.isEmpty && p.ppid.any (fun pp => sel.ppidFilter.contains pp))
        (.single .pgid)

/-- The kinds of an entry of the output, with what `-K -a` adds: the process's
own entry counts as a task when the process has tasks. -/
def entryKinds (p : Process) (withTasks : List Nat) : SelKinds :=
  (sel.procKinds p).insertIf
    (sel.andMode && sel.tasks == .always && p.tid.isNone && withTasks.contains p.pid)
    (.single .task)

def procSelected (kinds : SelKinds) : Bool :=
  let spec := sel.specified.intersection SelKinds.proc
  if spec.isEmpty then true
  else if sel.andMode then kinds.contains spec
  else !kinds.isEmpty

/-- Whether a backend must enumerate the process at all. -/
def selectsProcess (p : Process) : Bool :=
  if sel.excludesProcess p then false
  else if sel.specified.isEmpty then true
  else if !sel.andMode && sel.specified.intersects SelKinds.file then true
  else
    let locatesStates := sel.stateFilter.any (fun f => !f.include.isEmpty)
    let walkedKinds := sel.specified.intersection (SelKinds.proc.union (.single .task))
    let walkWarns := sel.hasNfs != 0 && sel.avoidBlocking && !sel.omitUnreadable
    if (locatesStates || walkWarns) && !sel.andMode && decide (1 < walkedKinds.count) then true
    else sel.procSelected (sel.procKinds p)

/-- The NFS mount a file is on: the newest recorded one on its device whose
directory is a plain prefix of the path's bytes. -/
def nfsMountOf (dev : BitVec 64) (path : Bytes) : Option MountEntry :=
  if sel.hasNfs != 2 then none
  else sel.nfsMounts.find? (fun m => m.device == some dev && m.dir.isPrefixOf path)

/-- Whether a row is of a type the C calls `N_REGLR`. -/
def isReglr (f : OpenFile) : Bool :=
  !f.isSocket && !(f.fileType == .chr || f.fileType == .block || f.fileType == .fifo) &&
    f.fileType != .other "a_inode".toList

def isNfsFile (f : OpenFile) : Bool :=
  match f.fsDevice.filter (fun _ => !f.isExempt) with
  | none => false
  | some dev =>
    if sel.nfsMounts.isEmpty then sel.nfsDevices.contains dev
    else isReglr f && (sel.nfsMountOf dev (f.baseName.getD []).bytes).isSome

/-- Whether a path argument names the row: by its file system, its identity or
its bound path; by its name where the backend identifies no file. -/
def pathMatches (f : OpenFile) : Bool :=
  if f.isExempt then false
  else if !sel.pathFsDevices.isEmpty && f.searchedFsDevice.any (fun d => sel.pathFsDevices.contains d)
    then true
  else if sel.pathsIdentified then
    if f.fileId.any (fun id => sel.pathIds.contains id) then true
    else f.boundPath.any (fun b =>
      b.id.any (fun id => sel.pathIds.contains id) ||
        b.path.any (fun p => sel.pathNames.contains p.bytes))
  else
    let name := f.name.toAsciiLowercase
    (sel.paths.filterMap matchedName).any (fun p =>
        let p := p.toAsciiLowercase
        name == p || name.startsWith p) ||
      sel.dirTrees.any (fun d => underDir name d.toAsciiLowercase) ||
      sel.dirsOneLevel.any (fun d => directlyInDir name d.toAsciiLowercase)

/-- Which file selectors a row matches: the bits the C ORs into `lf->sf`. -/
def fileKinds (f : OpenFile) : SelKinds :=
  (((((((KindSet.none
    |>.insertIf (sel.fdFilter.any (fun fd => fd.matches f.fd)) (.single .fd))
    |>.insertIf (sel.unixOnly && f.fileType == .unix) (.single .unx))
    |>.insertIf (sel.nfsOnly && sel.isNfsFile f) (.single .nfs))
    |>.insertIf (sel.inet.allMatches f) (.single .net))
    |>.insertIf (sel.inet.specs.any (fun s => s.matches f)) (.single .na))
    |>.insertIf (sel.hasPathFilter && sel.pathMatches f) (.single .nm))
    |>.insertIf (sel.maxLinks.any (fun max => f.links.any (fun n => n < max))) (.single .nlink))
    |>.insertIf (sel.tasks == .always && f.fd == .task) (.single .task)

/-- Whether a row survives `-s`, which can only veto. -/
def stateMatches (f : OpenFile) : Bool :=
  match sel.stateFilter with
  | none => true
  | some filter => filter.admits sel.host f

/-- Whether the only rows this run can print are sockets. -/
def socketRowsOnly : Bool :=
  let spec := sel.specified
  spec.intersects SelKinds.network &&
    (sel.andMode || (spec.without SelKinds.network).isEmpty) &&
    (sel.endpoints.isNone || sel.endpointsInCore)

/-- Whether nothing but its sockets can reach the output, for one process. -/
def socketsOnlyFor (p : Process) : Bool :=
  if sel.socketRowsOnly then true
  else
    let spec := sel.specified
    let byProcess := SelKinds.proc.union (.single .task)
    let files := SelKinds.file.without SelKinds.network
    let conditional := spec.intersects SelKinds.network && !sel.andMode &&
      !spec.intersects files && spec.intersects byProcess &&
      (sel.endpoints.isNone || sel.endpointsInCore)
    conditional && (sel.readsEveryProcess || !(sel.procKinds p).intersects byProcess)

/-- Whether `-t` is answered from the process table alone. -/
def terseSkipsFiles : Bool :=
  sel.terse && !(sel.readsEveryProcess && sel.endpoints == some .files) &&
    !(sel.endpointsInCore && sel.endpoints.isSome) &&
    !sel.specified.intersects SelKinds.file &&
    sel.stateFilter.isNone && sel.tasks != .always

def given : SelKind → Bool
  | .pid => !sel.pids.isEmpty
  | .uid => !sel.users.isEmpty || !sel.uids.isEmpty
  | .cmd => !sel.commands.isEmpty
  | .pgid => !sel.pgids.isEmpty || !sel.ppidFilter.isEmpty
  | .fd => sel.fdFilter.isSome
  | .net => sel.inet.bare
  | .unx => sel.unixOnly
  | .nm => sel.hasPathFilter
  | .nlink => sel.maxLinks.isSome
  | .task => sel.tasks == .always
  | .nfs => sel.nfsOnly
  | .na => !sel.inet.specs.isEmpty

def procTest (p : Process) : SelKind → Bool
  | .pid => !sel.pids.isEmpty && sel.pids.contains p.pid
  | .uid => sel.usersMatch p
  | .cmd => sel.commands.any (fun c => sel.commandMatches c p)
  | .pgid => p.pgid.any (fun g => sel.pgids.contains g) ||
      (!sel.ppidFilter.isEmpty && p.ppid.any (fun pp => sel.ppidFilter.contains pp))
  | .task => p.tid.isSome
  | _ => false

def fileTest (f : OpenFile) : SelKind → Bool
  | .fd => sel.fdFilter.any (fun fd => fd.matches f.fd)
  | .unx => sel.unixOnly && f.fileType == .unix
  | .nfs => sel.nfsOnly && sel.isNfsFile f
  | .net => sel.inet.allMatches f
  | .na => sel.inet.specs.any (fun s => s.matches f)
  | .nm => sel.hasPathFilter && sel.pathMatches f
  | .nlink => sel.maxLinks.any (fun max => f.links.any (fun n => n < max))
  | .task => sel.tasks == .always && f.fd == .task
  | _ => false

variable {k : SelKind}

theorem mem_specified : k ∈ sel.specified ↔ sel.given k = true := by
  cases k <;> simp [specified, given]

variable {p : Process}

theorem mem_procKinds : k ∈ sel.procKinds p ↔ sel.procTest p k = true := by
  cases k <;> simp [procKinds, procTest]

variable {f : OpenFile}

theorem mem_fileKinds : k ∈ sel.fileKinds f ↔ sel.fileTest f k = true := by
  cases k <;> simp [fileKinds, fileTest]

theorem mem_entryKinds {withTasks : List Nat} :
    k ∈ sel.entryKinds p withTasks ↔
      sel.procTest p k = true ∨
        (k = .task ∧ sel.andMode = true ∧ sel.tasks = .always ∧ p.tid = none ∧ p.pid ∈ withTasks) := by
  simp only [entryKinds, KindSet.mem_insertIf, mem_procKinds, KindSet.mem_single, Bool.and_eq_true,
    beq_iff_eq, Option.isNone_iff_eq_none, contains_iff_mem]
  tauto

theorem given_of_procTest (h : sel.procTest p k = true) : k = .task ∨ sel.given k = true := by
  cases k with
  | task => exact Or.inl rfl
  | pid => exact Or.inr (by simp_all [procTest, given])
  | uid =>
    right
    simp only [procTest, usersMatch, Bool.or_eq_true, any_eq_true, Option.any_eq_true] at h
    rcases h with ⟨u, hu, _⟩ | ⟨_, _, s, hs, _⟩
    · simp [given, ne_nil_of_mem hu]
    · simp [given, ne_nil_of_mem hs]
  | cmd =>
    right
    simp only [procTest, any_eq_true] at h
    obtain ⟨c, hc, _⟩ := h
    simp [given, ne_nil_of_mem hc]
  | pgid =>
    right
    simp only [procTest, Bool.or_eq_true, Option.any_eq_true, Bool.and_eq_true, contains_iff_mem] at h
    rcases h with ⟨g, _, hg⟩ | ⟨hne, _⟩
    · simp [given, ne_nil_of_mem hg]
    · simp_all [given]
  | _ => simp [procTest] at h

theorem given_of_fileTest (h : sel.fileTest f k = true) : sel.given k = true := by
  cases k with
  | fd =>
    simp only [fileTest, Option.any_eq_true] at h
    obtain ⟨fd, hfd, _⟩ := h
    simp [given, hfd]
  | net =>
    simp only [fileTest, InetFilter.allMatches, Bool.and_eq_true] at h
    exact h.1.1
  | na =>
    simp only [fileTest, any_eq_true] at h
    obtain ⟨s, hs, _⟩ := h
    simp [given, ne_nil_of_mem hs]
  | nlink =>
    simp only [fileTest, Option.any_eq_true] at h
    obtain ⟨max, hmax, _⟩ := h
    simp [given, hmax]
  | _ => simp_all [fileTest, given]

theorem fileTest_proc (f : OpenFile) (hk : k ∈ SelKinds.proc) : sel.fileTest f k = false := by
  rw [SelKinds.mem_proc] at hk
  rcases hk with rfl | rfl | rfl | rfl <;> rfl

theorem procTest_file (p : Process) (hk : k ∈ SelKinds.file) : sel.procTest p k = false := by
  rw [SelKinds.mem_file] at hk
  rcases hk with rfl | rfl | rfl | rfl | rfl | rfl | rfl <;> rfl

theorem procSpec_isEmpty_iff :
    (sel.specified.intersection SelKinds.proc).isEmpty = true ↔ ∀ k ∈ SelKinds.proc, sel.given k = false := by
  simp only [KindSet.isEmpty_iff, KindSet.mem_intersection, mem_specified, not_and]
  constructor
  · intro h k hk
    by_contra hg
    exact h k (by simpa using hg) hk
  · intro h k hg hk
    rw [h k hk] at hg
    cases hg

theorem procSelected_and (hand : sel.andMode = true) (kinds : SelKinds) :
    sel.procSelected kinds = true ↔ ∀ k ∈ SelKinds.proc, sel.given k = true → k ∈ kinds := by
  unfold procSelected
  dsimp only
  rw [hand]
  cases he : (sel.specified.intersection SelKinds.proc).isEmpty with
  | true =>
    have hnone := sel.procSpec_isEmpty_iff.mp he
    simp only [if_true, true_iff]
    intro k hk hg
    rw [hnone k hk] at hg
    cases hg
  | false =>
    simp only [Bool.false_eq_true, if_false, if_true, KindSet.contains_iff,
      KindSet.mem_intersection, mem_specified, and_imp]
    exact ⟨fun h k hk hg => h k hg hk, fun h k hg hk => h k hk hg⟩

theorem procSelected_or (hand : sel.andMode = false) (kinds : SelKinds) :
    sel.procSelected kinds = true ↔ ((∃ k ∈ SelKinds.proc, sel.given k = true) → ∃ k, k ∈ kinds) := by
  unfold procSelected
  dsimp only
  rw [hand]
  cases he : (sel.specified.intersection SelKinds.proc).isEmpty with
  | true =>
    have hnone := sel.procSpec_isEmpty_iff.mp he
    simp only [if_true, true_iff]
    rintro ⟨k, hk, hg⟩
    rw [hnone k hk] at hg
    cases hg
  | false =>
    have hsome : ∃ k ∈ SelKinds.proc, sel.given k = true := by
      obtain ⟨k, hk⟩ := KindSet.isEmpty_eq_false_iff.mp he
      rw [KindSet.mem_intersection, mem_specified] at hk
      exact ⟨k, hk.2, hk.1⟩
    simp only [Bool.false_eq_true, if_false, Bool.not_eq_true', KindSet.isEmpty_eq_false_iff]
    exact ⟨fun h _ => h, fun h => h hsome⟩

theorem socket_of_networkTest (hk : k ∈ SelKinds.network)
    (h : sel.fileTest f k = true) : f.isInternet = true ∨ f.fileType = .unix := by
  rw [SelKinds.mem_network] at hk
  rcases hk with rfl | rfl | rfl
  · exact Or.inl (InetFilter.isInternet_of_allMatches h)
  · simp only [fileTest, any_eq_true] at h
    obtain ⟨s, _, hs⟩ := h
    exact Or.inl (InetSpec.isInternet_of_matches hs)
  · right
    simp_all [fileTest]

end Selection

end Lsof.Core
