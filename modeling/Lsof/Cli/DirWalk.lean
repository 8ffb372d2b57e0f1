import Lsof.Linux.SafeFs

/-! # The walk of `+d` and `+D`

Every entry of a directory, and under `+D` of those below it, is described by one
`lstat`, and a link that is followed by one `stat` more. File systems may be
cyclic, of any depth, and change while they are walked: what ends the walk is its
budget of entries and of bytes of names.
-/

namespace Lsof.Cli

open Lsof.Basis Lsof.Core Lsof.Linux List

def WALK_ENTRIES : Nat := 200000

def WALK_NAME_BYTES : Nat := 16 <<< 20

structure WalkBudget where
  entries : Nat := WALK_ENTRIES
  bytes : Nat := WALK_NAME_BYTES
  deriving DecidableEq, Repr

/-- One entry with a name of `len` bytes, unless that exceeds either limit. -/
def WalkBudget.take (budget : WalkBudget) (len : Nat) : Option WalkBudget :=
  if budget.entries = 0 ∨ budget.bytes < len then none
  else some { entries := budget.entries - 1, bytes := budget.bytes - len }

structure DirArg where
  recursive : Bool := false
  crossFilesystems : Bool := false
  crossSymlinks : Bool := false
  warn : Bool := true
  stat : FileStat
  deriving DecidableEq, Repr

structure WalkedEntry where
  path : Bytes
  stat : Option FileStat
  deriving DecidableEq, Repr

structure Visit where
  path : Bytes
  lstat : Except FsError FileStat
  stat : Option (Except FsError FileStat) := none

/-- The walk reads neither `visits` nor `listed`: they keep what was asked. -/
structure WalkState (σ : Type) where
  run : FsRun σ
  budget : WalkBudget := {}
  /-- The directories still to be listed, the next one first. -/
  stack : List Bytes
  walked : List WalkedEntry := []
  visits : List Visit := []
  listed : List (Bytes × Except FsError (List Bytes)) := []

section Walk

variable {σ : Type}
-- how the platform puts a name to a directory, and whether the run identifies files
variable (join : Bytes → Bytes → Bytes) (dir : DirArg) (identified : Bool) (fs : SafeFs σ)

/-- A warning that a call failed, unless the file is gone. -/
def cannot (call after : Text) (path : Bytes) (e : FsError) (run : FsRun σ) : FsRun σ :=
  if dir.warn && e != .notFound then
    SafeFs.tell ("lsof: WARNING: can't ".toList ++ call ++ '(' :: fs.shown path ++ ')' :: after ++ ": ".toList ++
      e.errnoText) run
  else run

def stopped (base : Bytes) (budget : WalkBudget) (run : FsRun σ) : FsRun σ :=
  if dir.warn then
    SafeFs.tell ("lsof: WARNING: stopped walking ".toList ++ fs.shown base ++ " after ".toList ++
      Text.ofNat (WALK_ENTRIES - budget.entries) ++ " entries".toList) run
  else run

/-- Whether an entry is on another device than the directory, which only files that
are identified are asked. -/
def leavesDevice (md : FileStat) : Bool := !dir.crossFilesystems && identified && dir.stat.dev != md.dev

def returned (path : Bytes) (stat : Option FileStat) (st : WalkState σ) : WalkState σ :=
  { st with
    stack := if dir.recursive && stat.any FileStat.isDir then path :: st.stack else st.stack
    walked := st.walked ++ [{ path, stat }] }

def walkEntry (path : Bytes) (st : WalkState σ) : WalkState σ :=
  let answer := fs.lstat path st.run
  let visit : Visit := { path, lstat := answer.1 }
  let seen := { st with run := answer.2, visits := st.visits ++ [visit] }
  match answer.1 with
  | .error e =>
    if identified then { seen with run := cannot dir fs "lstat".toList [] path e answer.2 }
    else returned dir path none seen
  | .ok md =>
    if leavesDevice dir identified md then seen
    else if md.isSymlink then
      if !dir.crossSymlinks then seen
      else
        let follow := fs.stat path answer.2
        let followed :=
          { st with run := follow.2, visits := st.visits ++ [{ visit with stat := some follow.1 }] }
        match follow.1 with
        | .ok target => returned dir path (some target) followed
        | .error e => { followed with run := cannot dir fs "stat".toList " symbolc link".toList path e follow.2 }
    else returned dir path (some md) seen

def walkNames (base dn : Bytes) : List Bytes → WalkState σ → WalkState σ × Bool
  | [], st => (st, false)
  | name :: names, st =>
    match st.budget.take (join dn name).length with
    | none => ({ st with run := stopped dir fs base st.budget st.run }, true)
    | some budget => walkNames base dn names (walkEntry dir identified fs (join dn name) { st with budget })

def walkListing (base dn : Bytes) (st : WalkState σ) : WalkState σ × Bool :=
  let answer := fs.readDir dn st.run
  let listed := { st with run := answer.2, listed := st.listed ++ [(dn, answer.1)] }
  match answer.1 with
  | .error e => ({ listed with run := cannot dir fs "opendir".toList [] dn e answer.2 }, false)
  | .ok names => walkNames join dir identified fs base dn names listed

def walkLoop (base : Bytes) : Nat → WalkState σ → Option (WalkState σ)
  | 0, _ => none
  | turns + 1, st =>
    match st.stack with
    | [] => some st
    | dn :: stack =>
      let out := walkListing join dir identified fs base dn { st with stack }
      if out.2 then some out.1 else walkLoop base turns out.1

def walkDir (turns : Nat) (base : Bytes) (run : FsRun σ) : Option (WalkState σ) :=
  walkLoop join dir identified fs base turns { run, stack := [base] }

end Walk

section Answers

variable (dir : DirArg) (identified : Bool)

def Visit.entry (v : Visit) : Option WalkedEntry :=
  match v.lstat with
  | .error _ => if identified then none else some { path := v.path, stat := none }
  | .ok md =>
    if leavesDevice dir identified md then none
    else if md.isSymlink then
      match v.stat with
      | some (.ok target) => some { path := v.path, stat := some target }
      | _ => none
    else some { path := v.path, stat := some md }

def Visit.descent (v : Visit) : Option Bytes :=
  ((v.entry dir identified).filter fun w => dir.recursive && w.stat.any FileStat.isDir).map WalkedEntry.path

def Visit.FollowsLinks (v : Visit) : Prop :=
  v.stat.isSome = true → dir.crossSymlinks = true ∧ ∃ md, v.lstat = .ok md ∧ md.isSymlink = true

def Visit.calls (v : Visit) : List FsRequest := .lstat v.path :: (if v.stat.isSome then [.stat v.path] else [])

variable {dir identified}

variable {v : Visit} {w : WalkedEntry}

theorem Visit.path_of_entry (h : v.entry dir identified = some w) : w.path = v.path := by
  unfold Visit.entry at h
  split at h
  · split at h
    · cases h
    · rw [← Option.some.inj h]
  · split at h
    · cases h
    · split at h
      · split at h
        · rw [← Option.some.inj h]
        · cases h
      · rw [← Option.some.inj h]

theorem Visit.device_of_entry (h : v.entry dir identified = some w)
    (hidentified : identified = true) (hcross : dir.crossFilesystems = false) :
    ∃ md, v.lstat = .ok md ∧ md.dev = dir.stat.dev := by
  unfold Visit.entry at h
  cases hl : v.lstat with
  | error e =>
    rw [hl, hidentified] at h
    cases h
  | ok md =>
    rw [hl] at h
    by_cases hleaves : leavesDevice dir identified md = true
    · simp only [hleaves, if_true] at h
      cases h
    · refine ⟨md, rfl, ?_⟩
      simp only [leavesDevice, hcross, hidentified, Bool.not_false, Bool.true_and, bne_iff_ne, ne_eq,
        Decidable.not_not] at hleaves
      exact hleaves.symm

theorem Visit.lstat_of_entry (h : v.entry dir identified = some w) (hstat : v.stat = none)
    {md : FileStat} (hl : v.lstat = .ok md) : md.isSymlink = false ∧ w.stat = some md := by
  unfold Visit.entry at h
  rw [hl, hstat] at h
  by_cases hleaves : leavesDevice dir identified md = true
  · simp only [hleaves, if_true] at h
    cases h
  · by_cases hlink : md.isSymlink = true
    · simp only [hleaves, hlink, if_true] at h
      cases h
    · simp only [hleaves, hlink] at h
      rw [← Option.some.inj h]
      exact ⟨eq_false_of_ne_true hlink, rfl⟩

theorem Visit.entry_of_descent {dn : Bytes} (h : v.descent dir identified = some dn) :
    dir.recursive = true ∧ v.path = dn ∧ ∃ w, v.entry dir identified = some w ∧ w.stat.any FileStat.isDir = true := by
  unfold Visit.descent at h
  rcases Option.map_eq_some_iff.mp h with ⟨w, hw, hpath⟩
  rcases Option.filter_eq_some_iff.mp hw with ⟨hentry, hdir⟩
  rcases Bool.and_eq_true_iff.mp hdir with ⟨hrecursive, hisdir⟩
  exact ⟨hrecursive, (Visit.path_of_entry hentry).symm.trans hpath, w, hentry, hisdir⟩

theorem Visit.stat_eq_none (h : v.FollowsLinks dir) (hcross : dir.crossSymlinks = false) : v.stat = none := by
  cases hstat : v.stat with
  | none => rfl
  | some answer =>
    have hfollows := h (hstat ▸ rfl)
    rw [hcross] at hfollows
    exact absurd hfollows.1 Bool.false_ne_true

end Answers

section Step

variable {σ : Type} (dir : DirArg) (identified : Bool) (fs : SafeFs σ)

@[simp] theorem asked_cannot (call after : Text) (path : Bytes) (e : FsError) (run : FsRun σ) :
    (cannot dir fs call after path e run).asked = run.asked := by
  unfold cannot
  split <;> rfl

@[simp] theorem asked_stopped (base : Bytes) (budget : WalkBudget) (run : FsRun σ) :
    (stopped dir fs base budget run).asked = run.asked := by
  unfold stopped
  split <;> rfl

structure Enters (v : Visit) (st st' : WalkState σ) : Prop where
  budget : st'.budget = st.budget
  visits : st'.visits = st.visits ++ [v]
  listed : st'.listed = st.listed
  walked : st'.walked = st.walked ++ (v.entry dir identified).toList
  stack : st'.stack = (v.descent dir identified).toList ++ st.stack
  asked : st'.run.asked = st.run.asked ++ v.calls

theorem Enters.returned {v : Visit} {st seen : WalkState σ} {path : Bytes} {stat : Option FileStat}
    (hentry : v.entry dir identified = some { path, stat }) (hbudget : seen.budget = st.budget)
    (hvisits : seen.visits = st.visits ++ [v]) (hlisted : seen.listed = st.listed) (hwalked : seen.walked = st.walked)
    (hstack : seen.stack = st.stack) (hasked : seen.run.asked = st.run.asked ++ v.calls) :
    Enters dir identified v st (returned dir path stat seen) := by
  constructor
  · exact hbudget
  · exact hvisits
  · exact hlisted
  · rw [hentry, ← hwalked]
    rfl
  · unfold Visit.descent Cli.returned
    rw [hentry, Option.filter_some]
    by_cases hdescend : (dir.recursive && stat.any FileStat.isDir) = true
    · simp only [hdescend, if_true, hstack]
      rfl
    · simp only [hdescend, hstack]
      rfl
  · exact hasked

theorem Enters.skipped {v : Visit} {st seen : WalkState σ} (hentry : v.entry dir identified = none)
    (hbudget : seen.budget = st.budget) (hvisits : seen.visits = st.visits ++ [v]) (hlisted : seen.listed = st.listed)
    (hwalked : seen.walked = st.walked) (hstack : seen.stack = st.stack)
    (hasked : seen.run.asked = st.run.asked ++ v.calls) : Enters dir identified v st seen := by
  constructor
  · exact hbudget
  · exact hvisits
  · exact hlisted
  · rw [hentry, hwalked]
    exact (append_nil _).symm
  · unfold Visit.descent
    rw [hentry, hstack]
    rfl
  · exact hasked

theorem walkEntry_enters (path : Bytes) (st : WalkState σ) :
    ∃ v : Visit, v.path = path ∧ v.FollowsLinks dir ∧ Enters dir identified v st (walkEntry dir identified fs path st) := by
  unfold walkEntry
  dsimp only
  have hlstat := fs.asked_lstat path st.run
  cases hl : (fs.lstat path st.run).1 with
  | error e =>
    dsimp only
    refine ⟨{ path, lstat := .error e }, rfl, nofun, ?_⟩
    cases identified with
    | true => exact Enters.skipped dir true rfl rfl rfl rfl rfl rfl ((asked_cannot dir fs _ _ path e _).trans hlstat)
    | false => exact Enters.returned dir false rfl rfl rfl rfl rfl rfl hlstat
  | ok md =>
    dsimp only
    by_cases hleaves : leavesDevice dir identified md = true
    · rw [if_pos hleaves]
      have hentry : ({ path, lstat := .ok md } : Visit).entry dir identified = none := if_pos hleaves
      exact ⟨{ path, lstat := .ok md }, rfl, nofun, Enters.skipped dir identified hentry rfl rfl rfl rfl rfl hlstat⟩
    · rw [if_neg hleaves]
      by_cases hlink : md.isSymlink = true
      · rw [if_pos hlink]
        have hentry : ∀ answer, ({ path, lstat := .ok md, stat := answer } : Visit).entry dir identified =
            match answer with
            | some (.ok target) => some { path, stat := some target }
            | _ => none := by
          intro answer
          exact (if_neg hleaves).trans (if_pos hlink)
        cases hcross : dir.crossSymlinks with
        | false =>
          exact ⟨{ path, lstat := .ok md }, rfl, nofun,
            Enters.skipped dir identified (hentry none) rfl rfl rfl rfl rfl hlstat⟩
        | true =>
          have hstat := fs.asked_stat path (fs.lstat path st.run).2
          rw [hlstat, append_assoc] at hstat
          have hfollows : ∀ answer, ({ path, lstat := .ok md, stat := some answer } : Visit).FollowsLinks dir :=
            fun _ _ => ⟨hcross, md, rfl, hlink⟩
          cases hs : (fs.stat path (fs.lstat path st.run).2).1 with
          | ok target =>
            exact ⟨{ path, lstat := .ok md, stat := some (.ok target) }, rfl, hfollows _,
              Enters.returned dir identified (hentry (some (.ok target))) rfl rfl rfl rfl rfl hstat⟩
          | error e =>
            exact ⟨{ path, lstat := .ok md, stat := some (.error e) }, rfl, hfollows _,
              Enters.skipped dir identified (hentry (some (.error e))) rfl rfl rfl rfl rfl
                ((asked_cannot dir fs _ _ path e _).trans hstat)⟩
      · rw [if_neg hlink]
        have hentry : ({ path, lstat := .ok md } : Visit).entry dir identified = some { path, stat := some md } :=
          (if_neg hleaves).trans (if_neg hlink)
        exact ⟨{ path, lstat := .ok md }, rfl, nofun, Enters.returned dir identified hentry rfl rfl rfl rfl rfl hlstat⟩

end Step

section Run

def lstatPath : FsRequest → Option Bytes
  | .lstat path => some path
  | _ => none

def statPath : FsRequest → Option Bytes
  | .stat path => some path
  | _ => none

def readDirPath : FsRequest → Option Bytes
  | .readDir path => some path
  | _ => none

/-- The requests of a walk: each listing, one `lstat` for each entry taken, and one
`stat` for each that was followed. -/
structure Asks (log : List FsRequest) (listed : List (Bytes × Except FsError (List Bytes))) (visits : List Visit) :
    Prop where
  listings : log.filterMap readDirPath = listed.map Prod.fst
  lstats : log.filterMap lstatPath = visits.map Visit.path
  stats : log.filterMap statPath = (visits.filter fun v => v.stat.isSome).map Visit.path

theorem Asks.visit {log : List FsRequest} {listed : List (Bytes × Except FsError (List Bytes))} {visits : List Visit}
    (h : Asks log listed visits) (v : Visit) : Asks (log ++ v.calls) listed (visits ++ [v]) := by
  unfold Visit.calls
  constructor
  · rw [filterMap_append, h.listings]
    cases v.stat with
    | none => exact append_nil _
    | some answer => exact append_nil _
  · rw [filterMap_append, h.lstats, map_append]
    cases v.stat with
    | none => rfl
    | some answer => rfl
  · rw [filterMap_append, h.stats, filter_append, map_append]
    cases hv : v.stat with
    | none =>
      rw [filter_singleton, hv]
      rfl
    | some answer =>
      rw [filter_singleton, hv]
      rfl

theorem Asks.listing {log : List FsRequest} {listed : List (Bytes × Except FsError (List Bytes))} {visits : List Visit}
    (h : Asks log listed visits) (dn : Bytes) (answer : Except FsError (List Bytes)) :
    Asks (log ++ [.readDir dn]) (listed ++ [(dn, answer)]) visits := by
  constructor
  · rw [filterMap_append, h.listings, map_append]
    rfl
  · rw [filterMap_append, h.lstats]
    exact append_nil _
  · rw [filterMap_append, h.stats]
    exact append_nil _

variable {σ : Type} {join : Bytes → Bytes → Bytes} {dir : DirArg} {identified : Bool} (fs : SafeFs σ)

variable (join) in
def Listed (listed : List (Bytes × Except FsError (List Bytes))) (path : Bytes) : Prop :=
  ∃ dn names name, (dn, .ok names) ∈ listed ∧ name ∈ names ∧ path = join dn name

variable (join dir identified) in
structure WalkInv (start : FsRun σ) (base : Bytes) (st : WalkState σ) : Prop where
  entries : st.visits.length + st.budget.entries = WALK_ENTRIES
  bytes : (st.visits.map fun v => v.path.length).sum + st.budget.bytes = WALK_NAME_BYTES
  walked : st.walked = st.visits.filterMap (Visit.entry dir identified)
  follows : ∀ v ∈ st.visits, v.FollowsLinks dir
  asked : ∃ log, st.run.asked = start.asked ++ log ∧ Asks log st.listed st.visits
  taken : ∀ v ∈ st.visits, Listed join st.listed v.path
  opened : ∀ dn, dn ∈ st.listed.map Prod.fst ∨ dn ∈ st.stack → dn = base ∨ ∃ v ∈ st.visits, v.descent dir identified = some dn

variable {start : FsRun σ} {base : Bytes} {st : WalkState σ}

theorem walkInv_start (start : FsRun σ) (base : Bytes) :
    WalkInv join dir identified start base { run := start, stack := [base] } := by
  constructor
  · exact Nat.zero_add _
  · exact Nat.zero_add _
  · rfl
  · exact fun v hv => absurd hv not_mem_nil
  · exact ⟨[], (append_nil _).symm, rfl, rfl, rfl⟩
  · exact fun v hv => absurd hv not_mem_nil
  · intro dn hdn
    rcases hdn with hnone | hbase
    · exact absurd hnone not_mem_nil
    · exact Or.inl (mem_singleton.mp hbase)

theorem WalkInv.said (h : WalkInv join dir identified start base st) {run : FsRun σ} (hrun : run.asked = st.run.asked) :
    WalkInv join dir identified start base { st with run } := by
  constructor
  · exact h.entries
  · exact h.bytes
  · exact h.walked
  · exact h.follows
  · rcases h.asked with ⟨log, hlog, hasks⟩
    exact ⟨log, hrun.trans hlog, hasks⟩
  · exact h.taken
  · exact h.opened

theorem WalkBudget.take_eq_some {budget budget' : WalkBudget} {len : Nat} (h : budget.take len = some budget') :
    budget'.entries + 1 = budget.entries ∧ budget'.bytes + len = budget.bytes := by
  unfold WalkBudget.take at h
  split at h
  · cases h
  · rw [← Option.some.inj h]
    dsimp only
    omega

theorem WalkInv.entry (h : WalkInv join dir identified start base st) {path : Bytes} {budget : WalkBudget}
    (htake : st.budget.take path.length = some budget) (hlisted : Listed join st.listed path) :
    WalkInv join dir identified start base (walkEntry dir identified fs path { st with budget }) := by
  rcases walkEntry_enters dir identified fs path { st with budget } with ⟨v, hpath, hfollows, henters⟩
  have htaken := WalkBudget.take_eq_some htake
  have hentries := h.entries
  have hbytes := h.bytes
  constructor
  · rw [henters.visits, henters.budget, length_append, length_singleton]
    dsimp only
    omega
  · rw [henters.visits, henters.budget, map_append, sum_append, map_singleton, sum_singleton, hpath]
    dsimp only
    omega
  · rw [henters.walked, henters.visits, filterMap_append, h.walked]
    cases hv : v.entry dir identified with
    | none => simp [hv]
    | some w => simp [hv]
  · rw [henters.visits]
    intro u hu
    rcases mem_append.mp hu with hold | hnew
    · exact h.follows u hold
    · rw [mem_singleton.mp hnew]
      exact hfollows
  · rcases h.asked with ⟨log, hlog, hasks⟩
    refine ⟨log ++ v.calls, ?_, ?_⟩
    · rw [henters.asked, hlog, append_assoc]
    · rw [henters.listed, henters.visits]
      exact hasks.visit v
  · rw [henters.visits, henters.listed]
    intro u hu
    rcases mem_append.mp hu with hold | hnew
    · exact h.taken u hold
    · rw [mem_singleton.mp hnew, hpath]
      exact hlisted
  · rw [henters.visits, henters.listed, henters.stack]
    intro dn hdn
    have hold : dn ∈ st.listed.map Prod.fst ∨ dn ∈ st.stack →
        dn = base ∨ ∃ u ∈ st.visits ++ [v], u.descent dir identified = some dn := by
      intro hin
      rcases h.opened dn hin with hbase | hvisit
      · exact Or.inl hbase
      · rcases hvisit with ⟨u, hu, hdescent⟩
        exact Or.inr ⟨u, mem_append_left [v] hu, hdescent⟩
    rcases hdn with hread | hstacked
    · exact hold (Or.inl hread)
    · rcases mem_append.mp hstacked with hnew | hstack
      · exact Or.inr ⟨v, mem_append_right st.visits mem_cons_self, Option.mem_toList.mp hnew⟩
      · exact hold (Or.inr hstack)

theorem WalkInv.names {dn : Bytes} {all : List Bytes} (names : List Bytes) (h : WalkInv join dir identified start base st)
    (hlisted : (dn, .ok all) ∈ st.listed) (hnames : names ⊆ all) :
    WalkInv join dir identified start base (walkNames join dir identified fs base dn names st).1 := by
  induction names generalizing st with
  | nil => exact h
  | cons name names ih =>
    rcases cons_subset.mp hnames with ⟨hname, hrest⟩
    unfold walkNames
    cases htake : st.budget.take (join dn name).length with
    | none => exact h.said (asked_stopped dir fs base st.budget st.run)
    | some budget =>
      have hentry := h.entry fs htake ⟨dn, all, name, hlisted, hname, rfl⟩
      rcases walkEntry_enters dir identified fs (join dn name) { st with budget } with ⟨v, _, _, henters⟩
      apply ih hentry
      · rw [henters.listed]
        exact hlisted
      · exact hrest

theorem WalkInv.listing {dn : Bytes} {stack : List Bytes} (h : WalkInv join dir identified start base st)
    (hstack : st.stack = dn :: stack) :
    WalkInv join dir identified start base (walkListing join dir identified fs base dn { st with stack }).1 := by
  have hlisted : ∀ answer, answer = (fs.readDir dn st.run).1 → WalkInv join dir identified start base
      { st with stack, run := (fs.readDir dn st.run).2, listed := st.listed ++ [(dn, answer)] } := by
    intro answer _
    constructor
    · exact h.entries
    · exact h.bytes
    · exact h.walked
    · exact h.follows
    · rcases h.asked with ⟨log, hlog, hasks⟩
      refine ⟨log ++ [.readDir dn], ?_, hasks.listing dn answer⟩
      rw [fs.asked_readDir, hlog, append_assoc]
    · intro v hv
      rcases h.taken v hv with ⟨from_, names, name, hmem, hname, hpath⟩
      exact ⟨from_, names, name, mem_append_left _ hmem, hname, hpath⟩
    · intro d hd
      apply h.opened d
      rw [hstack]
      rcases hd with hread | hleft
      · rw [map_append] at hread
        rcases mem_append.mp hread with hold | hnew
        · exact Or.inl hold
        · exact Or.inr (mem_cons.mpr (Or.inl (mem_singleton.mp hnew)))
      · exact Or.inr (mem_cons_of_mem dn hleft)
  unfold walkListing
  dsimp only
  cases hr : (fs.readDir dn st.run).1 with
  | error e => exact (hlisted (.error e) hr.symm).said (asked_cannot dir fs _ _ dn e _)
  | ok names =>
    exact (hlisted (.ok names) hr.symm).names fs names (mem_append_right st.listed mem_cons_self)
      (List.Subset.refl names)

def WalkState.room (st : WalkState σ) : Nat := st.budget.entries + st.stack.length

variable (join dir identified)

theorem room_walkEntry (path : Bytes) (st : WalkState σ) :
    (walkEntry dir identified fs path st).room ≤ st.room + 1 := by
  rcases walkEntry_enters dir identified fs path st with ⟨v, _, _, henters⟩
  unfold WalkState.room
  rw [henters.budget, henters.stack, length_append]
  have hone : (v.descent dir identified).toList.length ≤ 1 := by
    cases v.descent dir identified with
    | none => exact Nat.zero_le 1
    | some dn => exact Nat.le_refl 1
  omega

theorem room_walkNames (base dn : Bytes) (names : List Bytes) (st : WalkState σ) :
    (walkNames join dir identified fs base dn names st).1.room ≤ st.room := by
  induction names generalizing st with
  | nil => exact Nat.le_refl _
  | cons name names ih =>
    unfold walkNames
    cases htake : st.budget.take (join dn name).length with
    | none => exact Nat.le_refl _
    | some budget =>
      have htaken := WalkBudget.take_eq_some htake
      have hentry := room_walkEntry dir identified fs (join dn name) { st with budget }
      have hrest := ih (walkEntry dir identified fs (join dn name) { st with budget })
      unfold WalkState.room at hentry hrest ⊢
      dsimp only at hentry hrest ⊢
      omega

theorem room_walkListing (base dn : Bytes) (st : WalkState σ) :
    (walkListing join dir identified fs base dn st).1.room ≤ st.room := by
  unfold walkListing
  dsimp only
  cases (fs.readDir dn st.run).1 with
  | error e => exact Nat.le_refl _
  | ok names => exact room_walkNames join dir identified fs base dn names _

variable {join dir identified}

theorem walkLoop_ends (turns : Nat) (h : WalkInv join dir identified start base st) (hroom : st.room < turns) :
    ∃ out, walkLoop join dir identified fs base turns st = some out ∧ WalkInv join dir identified start base out := by
  induction turns generalizing st with
  | zero => exact absurd hroom (Nat.not_lt_zero _)
  | succ turns ih =>
    unfold walkLoop
    cases hstack : st.stack with
    | nil => exact ⟨st, rfl, h⟩
    | cons dn stack =>
      have hlisting := h.listing fs hstack
      dsimp only
      by_cases hstop : (walkListing join dir identified fs base dn { st with stack }).2 = true
      · rw [if_pos hstop]
        exact ⟨_, rfl, hlisting⟩
      · rw [if_neg hstop]
        apply ih hlisting
        have hless := room_walkListing join dir identified fs base dn { st with stack }
        unfold WalkState.room at hless hroom ⊢
        rw [hstack, length_cons] at hroom
        dsimp only at hless
        omega

theorem walkLoop_mono {fs : SafeFs σ} {turns more : Nat} (hle : turns ≤ more) {out : WalkState σ}
    (h : walkLoop join dir identified fs base turns st = some out) :
    walkLoop join dir identified fs base more st = some out := by
  induction turns generalizing more st with
  | zero => exact absurd h nofun
  | succ turns ih =>
    cases more with
    | zero => exact absurd hle (Nat.not_succ_le_zero _)
    | succ more =>
      unfold walkLoop at h ⊢
      cases hstack : st.stack with
      | nil =>
        rw [hstack] at h
        exact h
      | cons dn stack =>
        rw [hstack] at h
        dsimp only at h ⊢
        by_cases hstop : (walkListing join dir identified fs base dn { st with stack }).2 = true
        · rw [if_pos hstop] at h ⊢
          exact h
        · rw [if_neg hstop] at h ⊢
          exact ih (Nat.le_of_succ_le_succ hle) h

end Run

section Main

variable {σ : Type} (join : Bytes → Bytes → Bytes) (dir : DirArg) (identified : Bool) (fs : SafeFs σ)

/-- On every file system, whatever it answers and however it changes, the walk ends
within its budget. What it returns are entries that it took: each had one `lstat`, and
at most one `stat`; where files are identified it was on the directory's device unless
`-x f` was given; without `-x l` it was no link, and none was followed; and without
`+D` it is an entry of the directory itself. -/
theorem walkDir_bounded (base : Bytes) (run : FsRun σ) :
    ∃ out, (∀ turns, WALK_ENTRIES + 2 ≤ turns → walkDir join dir identified fs turns base run = some out) ∧
      out.visits.length ≤ WALK_ENTRIES ∧ (out.visits.map fun v => v.path.length).sum ≤ WALK_NAME_BYTES ∧
      (∃ log, out.run.asked = run.asked ++ log ∧ log.filterMap lstatPath = out.visits.map Visit.path ∧
        log.filterMap statPath = (out.visits.filter fun v => v.stat.isSome).map Visit.path ∧
        log.filterMap readDirPath = out.listed.map Prod.fst) ∧
      out.walked = out.visits.filterMap (Visit.entry dir identified) ∧
      (identified = true → dir.crossFilesystems = false → ∀ v ∈ out.visits, ∀ w, v.entry dir identified = some w →
        w.path = v.path ∧ ∃ md, v.lstat = .ok md ∧ md.dev = dir.stat.dev) ∧
      (dir.crossSymlinks = false →
        (∀ v ∈ out.visits, v.stat = none ∧ ∀ w md, v.entry dir identified = some w → v.lstat = .ok md →
          md.isSymlink = false ∧ w.stat = some md) ∧
        ∀ dn ∈ out.listed.map Prod.fst, dn = base ∨
          ∃ v ∈ out.visits, v.path = dn ∧ ∃ md, v.lstat = .ok md ∧ md.isDir = true ∧ md.isSymlink = false) ∧
      (dir.recursive = false →
        ∀ w ∈ out.walked, ∃ names name, (base, .ok names) ∈ out.listed ∧ name ∈ names ∧ w.path = join base name) := by
  have hroom : ({ run, stack := [base] } : WalkState σ).room < WALK_ENTRIES + 2 := Nat.lt_succ_self _
  have hstart : WalkInv join dir identified run base { run, stack := [base] } := walkInv_start run base
  rcases walkLoop_ends fs (WALK_ENTRIES + 2) hstart hroom with ⟨out, hout, h⟩
  refine ⟨out, fun turns hturns => walkLoop_mono hturns hout, ?_, ?_, ?_, h.walked, ?_, ?_, ?_⟩
  · have hentries := h.entries
    omega
  · have hbytes := h.bytes
    omega
  · rcases h.asked with ⟨log, hlog, hasks⟩
    exact ⟨log, hlog, hasks.lstats, hasks.stats, hasks.listings⟩
  · intro hidentified hcross v _ w hw
    exact ⟨Visit.path_of_entry hw, Visit.device_of_entry hw hidentified hcross⟩
  · intro hcross
    have hnone : ∀ v ∈ out.visits, v.stat = none := fun v hv => Visit.stat_eq_none (h.follows v hv) hcross
    constructor
    · intro v hv
      exact ⟨hnone v hv, fun w md hw hmd => Visit.lstat_of_entry hw (hnone v hv) hmd⟩
    · intro dn hdn
      rcases h.opened dn (Or.inl hdn) with hbase | hvisit
      · exact Or.inl hbase
      · rcases hvisit with ⟨v, hv, hdescent⟩
        rcases Visit.entry_of_descent hdescent with ⟨_, hpath, w, hw, hdir⟩
        refine Or.inr ⟨v, hv, hpath, ?_⟩
        cases hl : v.lstat with
        | error e =>
          -- an entry that no call describes is no directory
          unfold Visit.entry at hw
          rw [hl] at hw
          cases identified with
          | true => cases hw
          | false =>
            rw [← Option.some.inj hw] at hdir
            cases hdir
        | ok md =>
          rcases Visit.lstat_of_entry hw (hnone v hv) hl with ⟨hlink, hstat⟩
          rw [hstat] at hdir
          exact ⟨md, rfl, hdir, hlink⟩
  · intro hrecursive w hw
    rw [h.walked] at hw
    rcases mem_filterMap.mp hw with ⟨v, hv, hentry⟩
    rcases h.taken v hv with ⟨dn, names, name, hlisted, hname, hpath⟩
    have hbase : dn = base := by
      rcases h.opened dn (Or.inl (mem_map_of_mem hlisted)) with hbase | hvisit
      · exact hbase
      · rcases hvisit with ⟨u, _, hdescent⟩
        rw [(Visit.entry_of_descent hdescent).1] at hrecursive
        cases hrecursive
    rw [hbase] at hlisted hpath
    exact ⟨names, name, hlisted, hname, (Visit.path_of_entry hentry).trans hpath⟩

end Main

end Lsof.Cli
