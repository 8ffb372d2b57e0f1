import Lsof.Basis.Marking
import Lsof.Core.Apply

/-! # What a run located

`locate` walks the gathered processes beside the listing and marks each search
item something was found for: the marks decide the exit status and the lines
that say an item was not located. The whole walk is one pass that only adds
marks, so `marks_locate` gives its result entry by entry.
-/

namespace Lsof.Core

open Lsof.Basis

/-- The marks of a run, each list parallel to the items it is about. -/
structure Located where
  pids : List Bool
  pgids : List Bool
  uids : List Bool
  users : List Bool
  commands : List Bool
  inet : List Bool
  inetAll : Bool := false
  nfs : Bool := false
  states : List Bool
  tasks : Bool := false
  paths : List Bool
  deriving DecidableEq, Repr

namespace Selection

variable (sel : Selection)

def includedStates : List TcpState := (sel.stateFilter.map StateFilter.include).getD []

/-- The process-level items an entry locates: the marks of `is_proc_excl`. -/
def markProcessItems (p : Process) (found : Located) : Located :=
  { found with
    pids := markAll (fun pid => p.pid == pid) sel.pids found.pids
    pgids := markAll (fun g => p.pgid == some g) sel.pgids found.pgids
    uids := markAll (fun s => p.uid == some s.uid) sel.uids found.uids
    users := markAll (fun u => userMatches u p.user) sel.users found.users }

def markCommands (p : Process) (found : Located) : Located :=
  { found with commands := markAll (fun c => sel.commandMatches c p) sel.commands found.commands }

/-- A state is located by a socket in it, whatever else happens to the row. -/
def markStates (f : OpenFile) (found : Located) : Located :=
  match f.socket.bind SocketInfo.filterState with
  | none => found
  | some state =>
    { found with states := markAll (fun want => state == want) sel.includedStates found.states }

/-- The items a row `-s` admits locates; `kinds` is what its entry matched. -/
def markRow (kinds : SelKinds) (ix : PathIndex) (socketsOnly : Bool) (f : OpenFile)
    (found : Located) : Located :=
  { found with
    inet := markAll (fun spec => spec.matches f) sel.inet.specs found.inet
    inetAll := found.inetAll || sel.inet.allMatches f
    nfs := found.nfs || (sel.nfsOnly && sel.isNfsFile f)
    tasks := found.tasks || (sel.tasks == .always && !(socketsOnly && f.fd == .task) &&
      (kinds.union (sel.fileKinds f)).contains (.single .task))
    paths := ix.mark f (sel.pathMatches f) found.paths }

def markFileItems (kinds : SelKinds) (ix : PathIndex) (socketsOnly : Bool) (p : Process)
    (found : Located) : Located :=
  (p.files.filter sel.stateMatches).foldl (fun found f => sel.markRow kinds ix socketsOnly f found)
    (p.files.foldl (fun found f => sel.markStates f found) found)

/-- What `is_proc_excl` requires under `-a` before a command is even compared. -/
def andKinds : SelKinds :=
  sel.specified.intersection
    ((((KindSet.single .pid).union (.single .uid)).union (.single .pgid)).union (.single .task))

def passes (withTasks : List Nat) (p : Process) : Bool :=
  !sel.excludesProcess p &&
    (!sel.andMode || (sel.inheritedKinds withTasks p).contains sel.andKinds)

def examines (withTasks : List Nat) (p : Process) : Bool :=
  !(!sel.readsEveryProcess && (!sel.passes withTasks p ||
    (sel.andMode && !sel.procSelected (sel.inheritedKinds withTasks p))))

def locateEntry (withTasks : List Nat) (ix : PathIndex) (p : Process) (found : Located) : Located :=
  if sel.excludesProcess p && !sel.readsEveryProcess then found
  else
    let found := if !sel.excludesProcess p then sel.markProcessItems p found else found
    let found := if sel.passes withTasks p then sel.markCommands p found else found
    if sel.examines withTasks p then
      sel.markFileItems (sel.inheritedKinds withTasks p) ix sel.socketRowsOnly p found
    else found

def unlocated : Located where
  pids := List.replicate sel.pids.length false
  pgids := List.replicate sel.pgids.length false
  uids := List.replicate sel.uids.length false
  users := List.replicate sel.users.length false
  commands := List.replicate sel.commands.length false
  inet := List.replicate sel.inet.specs.length false
  states := List.replicate sel.includedStates.length false
  paths := List.replicate sel.pathItems.length false

def locate (gathered : List Process) : Located :=
  gathered.foldl
    (fun found p => sel.locateEntry (pidsWithTasks gathered)
      (PathIndex.new sel.pathItems sel.pathsIdentified) p found)
    sel.unlocated

end Selection

/-- A search item other than a path argument, a list's by its place in it. -/
inductive SearchItem where
  | pid (i : Nat)
  | pgid (i : Nat)
  | uid (i : Nat)
  | user (i : Nat)
  | command (i : Nat)
  | inet (i : Nat)
  | inetAll
  | nfs
  | state (i : Nat)
  | tasks
  deriving DecidableEq, Repr

def Located.marks (found : Located) : SearchItem → Bool
  | .pid i => hitAt found.pids i
  | .pgid i => hitAt found.pgids i
  | .uid i => hitAt found.uids i
  | .user i => hitAt found.users i
  | .command i => hitAt found.commands i
  | .inet i => hitAt found.inet i
  | .inetAll => found.inetAll
  | .nfs => found.nfs
  | .state i => hitAt found.states i
  | .tasks => found.tasks

namespace Selection

variable (sel : Selection)

/-- Every list of marks is as long as the list of items it is about. -/
structure Shaped (found : Located) : Prop where
  pids : found.pids.length = sel.pids.length
  pgids : found.pgids.length = sel.pgids.length
  uids : found.uids.length = sel.uids.length
  users : found.users.length = sel.users.length
  commands : found.commands.length = sel.commands.length
  inet : found.inet.length = sel.inet.specs.length
  states : found.states.length = sel.includedStates.length

theorem shaped_unlocated : sel.Shaped sel.unlocated := by
  constructor <;> exact List.length_replicate

theorem marks_unlocated (item : SearchItem) : sel.unlocated.marks item = false := by
  cases item with
  | inetAll => rfl
  | nfs => rfl
  | tasks => rfl
  | _ => exact hitAt_replicate _ _

def processItem (p : Process) : SearchItem → Bool
  | .pid i => sel.pids[i]?.any (fun pid => p.pid == pid)
  | .pgid i => sel.pgids[i]?.any (fun g => p.pgid == some g)
  | .uid i => sel.uids[i]?.any (fun s => p.uid == some s.uid)
  | .user i => sel.users[i]?.any (fun u => userMatches u p.user)
  | _ => false

def commandItem (p : Process) : SearchItem → Bool
  | .command i => sel.commands[i]?.any (fun c => sel.commandMatches c p)
  | _ => false

def stateItem (f : OpenFile) : SearchItem → Bool
  | .state i => (f.socket.bind SocketInfo.filterState).any
      (fun state => sel.includedStates[i]?.any (fun want => state == want))
  | _ => false

def rowItem (kinds : SelKinds) (socketsOnly : Bool) (f : OpenFile) : SearchItem → Bool
  | .inet i => sel.inet.specs[i]?.any (fun spec => spec.matches f)
  | .inetAll => sel.inet.allMatches f
  | .nfs => sel.nfsOnly && sel.isNfsFile f
  | .tasks => sel.tasks == .always && !(socketsOnly && f.fd == .task) &&
      (kinds.union (sel.fileKinds f)).contains (.single .task)
  | _ => false

theorem markProcessItems_marks (p : Process) :
    Marks sel.Shaped Located.marks (sel.markProcessItems p) (sel.processItem p) := by
  intro found h
  refine ⟨{ h with
    pids := length_markAll _ h.pids
    pgids := length_markAll _ h.pgids
    uids := length_markAll _ h.uids
    users := length_markAll _ h.users }, ?_⟩
  intro item
  cases item with
  | pid i => exact hitAt_markAll _ h.pids i
  | pgid i => exact hitAt_markAll _ h.pgids i
  | uid i => exact hitAt_markAll _ h.uids i
  | user i => exact hitAt_markAll _ h.users i
  | _ => simp [Located.marks, markProcessItems, processItem]

theorem markCommands_marks (p : Process) :
    Marks sel.Shaped Located.marks (sel.markCommands p) (sel.commandItem p) := by
  intro found h
  refine ⟨{ h with commands := length_markAll _ h.commands }, ?_⟩
  intro item
  cases item with
  | command i => exact hitAt_markAll _ h.commands i
  | _ => simp [Located.marks, markCommands, commandItem]

theorem markStates_marks (f : OpenFile) : Marks sel.Shaped Located.marks (sel.markStates f) (sel.stateItem f) := by
  intro found h
  unfold markStates
  cases hs : f.socket.bind SocketInfo.filterState with
  | none =>
    refine ⟨h, fun item => ?_⟩
    cases item <;> simp [stateItem, hs]
  | some state =>
    refine ⟨{ h with states := length_markAll _ h.states }, fun item => ?_⟩
    cases item with
    | state i => simpa [Located.marks, stateItem, hs] using hitAt_markAll _ h.states i
    | _ => simp [Located.marks, stateItem]

theorem markRow_marks (kinds : SelKinds) (ix : PathIndex) (socketsOnly : Bool) (f : OpenFile) :
    Marks sel.Shaped Located.marks (sel.markRow kinds ix socketsOnly f) (sel.rowItem kinds socketsOnly f) := by
  intro found h
  refine ⟨{ h with inet := length_markAll _ h.inet }, ?_⟩
  intro item
  cases item with
  | inet i => exact hitAt_markAll _ h.inet i
  | _ => simp [Located.marks, markRow, rowItem]

/-- What the rows of an entry mark: `-s` keeps a row from marking all but its state. -/
def fileItem (kinds : SelKinds) (socketsOnly : Bool) (p : Process) (item : SearchItem) : Bool :=
  p.files.any (fun f => sel.stateItem f item) ||
    (p.files.filter sel.stateMatches).any (fun f => sel.rowItem kinds socketsOnly f item)

theorem markFileItems_marks (kinds : SelKinds) (ix : PathIndex) (socketsOnly : Bool) (p : Process) :
    Marks sel.Shaped Located.marks (sel.markFileItems kinds ix socketsOnly p) (sel.fileItem kinds socketsOnly p) :=
  (Marks.foldl sel.markStates_marks p.files).comp
    (Marks.foldl (sel.markRow_marks kinds ix socketsOnly) _)

def entryItem (withTasks : List Nat) (p : Process) (item : SearchItem) : Bool :=
  (!sel.excludesProcess p && sel.processItem p item) ||
    (sel.passes withTasks p && sel.commandItem p item) ||
    (sel.examines withTasks p &&
      sel.fileItem (sel.inheritedKinds withTasks p) sel.socketRowsOnly p item)

theorem locateEntry_marks (withTasks : List Nat) (ix : PathIndex) (p : Process) :
    Marks sel.Shaped Located.marks (sel.locateEntry withTasks ix p) (sel.entryItem withTasks p) := by
  cases hskip : sel.excludesProcess p && !sel.readsEveryProcess with
  | true =>
    -- An excluded entry passes no test and its rows are not examined.
    simp only [Bool.and_eq_true, Bool.not_eq_true'] at hskip
    have hnone : sel.entryItem withTasks p = fun _ => false := by
      funext item
      simp [entryItem, passes, examines, hskip]
    have hsame : sel.locateEntry withTasks ix p = fun found => found := by
      funext found
      simp [locateEntry, hskip]
    rw [hnone, hsame]
    exact Marks.id
  | false =>
    have hsteps := ((sel.markProcessItems_marks p).ite (!sel.excludesProcess p)).comp
      ((sel.markCommands_marks p).ite (sel.passes withTasks p)) |>.comp
      ((sel.markFileItems_marks (sel.inheritedKinds withTasks p) ix sel.socketRowsOnly p).ite
        (sel.examines withTasks p))
    have hsame : sel.locateEntry withTasks ix p = fun found =>
        (fun found => if sel.examines withTasks p then
            sel.markFileItems (sel.inheritedKinds withTasks p) ix sel.socketRowsOnly p found
          else found)
        ((fun found => if sel.passes withTasks p then sel.markCommands p found else found)
          (if !sel.excludesProcess p then sel.markProcessItems p found else found)) := by
      funext found
      unfold locateEntry
      rw [hskip]
      rfl
    rw [hsame]
    exact hsteps

theorem marks_locate (gathered : List Process) (item : SearchItem) :
    (sel.locate gathered).marks item = gathered.any (fun p => sel.entryItem (pidsWithTasks gathered) p item) := by
  have hrun := Marks.foldl (sel.locateEntry_marks (pidsWithTasks gathered)
    (PathIndex.new sel.pathItems sel.pathsIdentified)) gathered
  have hmarks := (hrun sel.unlocated sel.shaped_unlocated).2 item
  rw [marks_unlocated, Bool.false_or] at hmarks
  exact hmarks

end Selection

end Lsof.Core
