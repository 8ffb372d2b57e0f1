import Lsof.Original.ProcOptions
import Lsof.Original.SelectRule

/-! # Selecting processes as the C does

With the same options in the tables of both programs, a descriptor of a process
that is no task is listed by both or by neither: the C's rule of `lists_iff` and
the core's `keepsRow_iff`, flag by flag and kind by kind.
-/

namespace Lsof.Original

open Lsof.Basis Lsof.Core List

def flagOf : SelKind → Option Sel
  | .pid => some .pid
  | .uid => some .uid
  | .cmd => some .cmd
  | .pgid => some .pgid
  | .fd => some .fd
  | _ => none

theorem exists_flagOf {ctx : Context} {s : Sel} (h : s ∈ ctx.selected) : ∃ k, flagOf k = some s := by
  rw [Context.mem_selected] at h
  rcases h with h | h | h | h | h
  · exact ⟨.cmd, by rw [h.1]; rfl⟩
  · exact ⟨.fd, by rw [h.1]; rfl⟩
  · exact ⟨.pgid, by rw [h.1]; rfl⟩
  · exact ⟨.pid, by rw [h.1]; rfl⟩
  · exact ⟨.uid, by rw [h.1]; rfl⟩

namespace Tables

variable {included excluded : Nat → Prop} {table : List IdEntry}

theorem includes_iff (h : Tables included excluded table) (id : Nat) :
    Context.includes table id = true ↔ included id := by
  rw [h.included, Context.includes, any_eq_true]
  constructor
  · rintro ⟨e, he, hhit⟩
    simp only [Bool.and_eq_true, Bool.not_eq_true', beq_iff_eq] at hhit
    rwa [← hhit.1, ← hhit.2]
  · intro hmem
    exact ⟨_, hmem, by simp⟩

theorem excludes_iff (h : Tables included excluded table) (id : Nat) :
    Context.excludes table id = true ↔ excluded id := by
  rw [h.excluded, Context.excludes_eq, any_eq_true]
  constructor
  · rintro ⟨e, he, hhit⟩
    simp only [Bool.and_eq_true, beq_iff_eq] at hhit
    rwa [← hhit.1, ← hhit.2]
  · intro hmem
    exact ⟨_, hmem, by simp⟩

theorem including_iff (h : Tables included excluded table) :
    (Context.including table != 0) = true ↔ ∃ v, included v := by
  rw [Context.including_ne_zero, any_eq_true]
  constructor
  · rintro ⟨e, he, hinc⟩
    rw [Bool.not_eq_true'] at hinc
    exact ⟨e.i, (h.included e.i).mpr (by rwa [← hinc])⟩
  · rintro ⟨v, hv⟩
    exact ⟨_, (h.included v).mp hv, rfl⟩

end Tables

/-- A process both programs read in full: it has a group and an owner, it is no
peer of a pipe, and its rows are descriptors. -/
structure Described (p : Process) (pgid uid : Nat) : Prop where
  pgid : p.pgid = some pgid
  uid : p.uid = some uid
  peer : p.endpointPeer = false
  files : ∀ f ∈ p.files, (descriptor f.fd).isSome = true

theorem FdAgree.any_matches {ctx : Context} {filter : Option FdFilter} (h : FdAgree ctx filter) {fd : Core.FdType}
    {d : FdType × Nat} (hd : descriptor fd = some d) :
    filter.any (fun f => f.matches fd) = ctx.fdMatched d.1 d.2 := by
  unfold FdAgree at h
  rw [Context.fdMatched]
  cases hty : ctx.fdlTy with
  | none =>
    rw [hty] at h
    simp [h.2]
  | some excl =>
    rw [hty] at h
    rcases h with ⟨hne, specs, hspecs, hfilter, hany⟩
    have hhit := hany fd d hd
    have hfdl : ctx.fdl.isEmpty = false := by simpa using hne
    have hgiven : specs.isEmpty = false := by simpa using hspecs
    cases excl with
    | false => simp [hfilter, FdFilter.matches, hhit, hfdl, hgiven]
    | true =>
      simp only [hfilter, if_true, Option.any_some, FdFilter.matches, hhit]
      cases ctx.fdl.any (Context.fdHit d.1 d.2) <;> simp [hfdl]

namespace Agree

variable {ctx : Context} {sel : Selection}

theorem command_iff (h : Agree ctx sel) (x : Bool) (cmd : Bytes) :
    ctx.cmdl.any (fun e => (e.x == x) && e.str.isPrefixOf cmd) = true ↔
      ∃ c ∈ (if x then sel.commandExcludes else sel.commands), c.isPrefixOf cmd = true := by
  have hmem : ∀ c, c ∈ (if x then sel.commandExcludes else sel.commands) ↔
      { str := c, x := x } ∈ ctx.cmdl := by
    intro c
    cases x with
    | false => exact h.commands c
    | true => exact h.commandExcludes c
  rw [any_eq_true]
  constructor
  · rintro ⟨e, he, hhit⟩
    rw [Bool.and_eq_true, beq_iff_eq] at hhit
    exact ⟨e.str, (hmem e.str).mpr (by rwa [← hhit.1]), hhit.2⟩
  · rintro ⟨c, hc, hhit⟩
    exact ⟨_, (hmem c).mp hc, by simpa using hhit⟩

theorem cmdl_including (h : Agree ctx sel) : ctx.cmdl.any (fun e => !e.x) = true ↔ ∃ c, c ∈ sel.commands := by
  rw [any_eq_true]
  constructor
  · rintro ⟨e, he, hinc⟩
    rw [Bool.not_eq_true'] at hinc
    exact ⟨e.str, (h.commands e.str).mpr (by rwa [← hinc])⟩
  · rintro ⟨c, hc⟩
    exact ⟨_, (h.commands c).mp hc, rfl⟩

theorem given_iff (h : Agree ctx sel) (k : SelKind) :
    sel.given k = true ↔ ∃ s, flagOf k = some s ∧ s ∈ ctx.selected := by
  have ho := h.others
  cases k with
  | pid =>
    have hpid := h.pids.including_iff
    simp [flagOf, Context.mem_selected, hpid, Selection.given, eq_nil_iff_forall_not_mem]
  | pgid =>
    have hpgid := h.pgids.including_iff
    simp [flagOf, Context.mem_selected, hpgid, Selection.given, ho.ppidFilter, eq_nil_iff_forall_not_mem]
  | uid =>
    have huid := h.uids.including_iff
    simp [flagOf, Context.mem_selected, huid, Selection.given, ho.users, eq_nil_iff_forall_not_mem]
  | cmd =>
    simp only [flagOf, Option.some.injEq, exists_eq_left', Context.mem_selected, reduceCtorEq,
      false_and, true_and, or_false, h.cmdl_including]
    simp [Selection.given, eq_nil_iff_forall_not_mem]
  | fd =>
    have hfds := h.fds
    unfold FdAgree at hfds
    simp only [flagOf, Option.some.injEq, exists_eq_left', Context.mem_selected, reduceCtorEq,
      false_and, true_and, false_or, or_false, Selection.given]
    cases hty : ctx.fdlTy with
    | none =>
      rw [hty] at hfds
      simp [hfds.1, hfds.2]
    | some excl =>
      rw [hty] at hfds
      obtain ⟨hne, specs, _, hfilter, _⟩ := hfds
      simp [hne, hfilter]
  | net => simp [Selection.given, flagOf, ho.inet.1]
  | unx => simp [Selection.given, flagOf, ho.unixOnly]
  | nm => simp [Selection.given, flagOf, ho.paths]
  | nlink => simp [Selection.given, flagOf, ho.maxLinks]
  | task => simp [Selection.given, flagOf, ho.tasks]
  | nfs => simp [Selection.given, flagOf, ho.nfsOnly]
  | na => simp [Selection.given, flagOf, ho.inet.2]

variable {pgid uid : Nat} {p : Process} {d : FdType × Nat} {f : OpenFile}

theorem tests_iff (h : Agree ctx sel) (hp : Described p pgid uid) (hproc : p.tid = none)
    (hd : descriptor f.fd = some d) (k : SelKind) :
    sel.procTest p k = true ∨ sel.fileTest f k = true ↔
      ∃ s, flagOf k = some s ∧ s ∈ ctx.matched p.pid pgid uid p.commandBytes d.1 d.2 := by
  have ho := h.others
  cases k with
  | pid =>
    have hpid := h.pids.includes_iff p.pid
    simp [Selection.procTest, Selection.fileTest, flagOf, Context.matched, hpid]
    exact fun hmem => ne_nil_of_mem hmem
  | pgid =>
    have hpgid := h.pgids.includes_iff pgid
    simp [Selection.procTest, Selection.fileTest, flagOf, Context.matched, hpgid, hp.pgid, ho.ppidFilter]
  | uid =>
    have huid := h.uids.includes_iff uid
    simp [Selection.procTest, Selection.fileTest, flagOf, Context.matched, huid,
      Selection.usersMatch, hp.uid, ho.users]
  | cmd =>
    have hcmd := h.command_iff false p.commandBytes
    simp only [beq_false, Bool.false_eq_true, if_false] at hcmd
    simp only [Selection.procTest, Selection.fileTest, Selection.commandMatches,
      ho.commandMatch, any_eq_true, Bool.false_eq_true, or_false, ← hcmd]
    simp [flagOf, Context.matched]
  | fd =>
    have hfds := FdAgree.any_matches h.fds hd
    simp only [Selection.procTest, Selection.fileTest, Bool.false_eq_true, false_or, hfds]
    simp [flagOf, Context.matched]
  | net => simp [Selection.procTest, Selection.fileTest, InetFilter.allMatches, flagOf, ho.inet.1]
  | unx => simp [Selection.procTest, Selection.fileTest, flagOf, ho.unixOnly]
  | nm => simp [Selection.procTest, Selection.fileTest, flagOf, ho.paths]
  | nlink => simp [Selection.procTest, Selection.fileTest, flagOf, ho.maxLinks]
  | task => simp [Selection.procTest, Selection.fileTest, flagOf, ho.tasks, hproc]
  | nfs => simp [Selection.procTest, Selection.fileTest, flagOf, ho.nfsOnly]
  | na => simp [Selection.procTest, Selection.fileTest, flagOf, ho.inet.2]

theorem excludesProcess_eq (h : Agree ctx sel) (hp : Described p pgid uid) :
    sel.excludesProcess p = ctx.excluded p.pid pgid uid p.commandBytes := by
  have ho := h.others
  have hcmd := h.command_iff true p.commandBytes
  simp only [beq_true, if_true] at hcmd
  rw [Bool.eq_iff_iff]
  simp only [Selection.excludesProcess, Selection.readsEveryProcess, ho.endpoints,
    ho.userExcludes, Selection.commandMatches, ho.commandMatch, hp.uid, hp.pgid,
    Option.isSome_none, Bool.false_and, Bool.not_false, Bool.true_and, Bool.or_eq_true,
    any_eq_true, any_nil, Bool.false_eq_true, or_false, Option.any_some,
    contains_iff_mem]
  simp only [Context.excluded, Bool.or_eq_true, h.uids.excludes_iff, h.pids.excludes_iff,
    h.pgids.excludes_iff, ← hcmd]
  tauto

theorem specified_isEmpty_iff (h : Agree ctx sel) : sel.specified.isEmpty = true ↔ ctx.allProc = true := by
  rw [Context.allProc, KindSet.isEmpty_iff, KindSet.isEmpty_iff]
  simp only [Selection.mem_specified, h.given_iff, not_exists, not_and]
  constructor
  · intro hnone s hs
    obtain ⟨k, hk⟩ := exists_flagOf hs
    exact hnone k s hk hs
  · intro hnone k s _ hs
    exact hnone s hs

theorem keepsRow_iff_matched (h : Agree ctx sel) (hp : Described p pgid uid) (hproc : p.tid = none)
    (hd : descriptor f.fd = some d) (hx : sel.excludesProcess p = false)
    (hall : ctx.allProc = false) (withTasks : List Nat) :
    sel.keepsRow withTasks p f = true ↔
      (∃ s, s ∈ ctx.matched p.pid pgid uid p.commandBytes d.1 d.2) ∧
        (ctx.fand = true → ∀ s, s ∈ ctx.selected → s ∈ ctx.matched p.pid pgid uid p.commandBytes d.1 d.2) := by
  have hspec : sel.specified.isEmpty = false := by
    rw [← Bool.not_eq_true, h.specified_isEmpty_iff, hall]
    decide
  -- No kind but the process's and the row's own: `-K` was not given.
  have hkinds : ∀ k, (k ∈ sel.inheritedKinds withTasks p ∨ sel.fileTest f k = true) ↔
      ∃ s, flagOf k = some s ∧ s ∈ ctx.matched p.pid pgid uid p.commandBytes d.1 d.2 := by
    intro k
    rw [← h.tests_iff hp hproc hd k, sel.inheritedKinds_of_not_excluded hx, sel.mem_entryKinds]
    have htasks := h.others.tasks
    tauto
  rw [sel.keepsRow_iff hspec (sel.peerOnly_of_not_peer hp.peer withTasks) f, ← h.fand]
  simp only [hkinds, h.given_iff]
  constructor
  · rintro ⟨⟨k, s, hk, hs⟩, hevery⟩
    refine ⟨⟨s, hs⟩, fun hand s' hs' => ?_⟩
    obtain ⟨k', hk'⟩ := exists_flagOf hs'
    obtain ⟨s'', hs'', hmatched⟩ := hevery hand k' ⟨s', hk', hs'⟩
    rw [hk'] at hs''
    rwa [Option.some.inj hs'']
  · rintro ⟨⟨s, hs⟩, hevery⟩
    obtain ⟨k, hk⟩ := exists_flagOf (Context.selected_of_matched hs)
    refine ⟨⟨k, s, hk, hs⟩, fun hand k' hgiven => ?_⟩
    obtain ⟨s', hk', hs'⟩ := hgiven
    exact ⟨s', hk', hevery hand s' hs'⟩

theorem listsRow_iff_lists (h : Agree ctx sel) (hrun : ctx.refused = false) (hp : Described p pgid uid)
    (hproc : p.tid = none) (hd : descriptor f.fd = some d) (withTasks : List Nat) :
    sel.listsRow withTasks p f = ctx.lists p.pid pgid uid 0 p.commandBytes d.1 d.2 := by
  have hevery : sel.readsEveryProcess = false := by
    simp [Selection.readsEveryProcess, h.others.endpoints]
  have hname : sel.nameRow f = f := by
    simp [Selection.nameRow, Selection.naming, h.others.pathItems]
  have hstate : sel.stateMatches f = true := by
    simp [Selection.stateMatches, h.others.stateFilter]
  rw [Bool.eq_iff_iff, Context.lists_iff hrun, Selection.listsRow, hname, hstate,
    sel.readsEntry_of_not_every hevery, ← h.excludesProcess_eq hp]
  cases hx : sel.excludesProcess p with
  | true => simp
  | false =>
    cases hall : ctx.allProc with
    | true => simp [sel.keepsRow_of_unselected (h.specified_isEmpty_iff.mpr hall)]
    | false => simpa using h.keepsRow_iff_matched hp hproc hd hx hall withTasks

end Agree

/-- A run with no selector yet: what `-a`, `-K i` and the like leave open. -/
structure Unselected (base : Selection) : Prop extends NoOthers base where
  pids : base.pids = []
  pidExcludes : base.pidExcludes = []
  pgids : base.pgids = []
  pgidExcludes : base.pgidExcludes = []
  uids : base.uids = []
  uidExcludes : base.uidExcludes = []
  commands : base.commands = []
  commandExcludes : base.commandExcludes = []
  fdFilter : base.fdFilter = none

theorem Unselected.agree {base : Selection} (h : Unselected base) (ignTasks : Bool) :
    Agree { fand := base.andMode, ignTasks } base where
  pids := ⟨by simp [h.pids], by simp [h.pidExcludes]⟩
  pgids := ⟨by simp [h.pgids], by simp [h.pgidExcludes]⟩
  uids := ⟨by simp [h.uids], by simp [h.uidExcludes]⟩
  commands := by simp [h.commands]
  commandExcludes := by simp [h.commandExcludes]
  fds := ⟨rfl, h.fdFilter⟩
  fand := rfl
  others := h.toNoOthers

/-- Whether the C lists a gathered row of a process that is no task. -/
def Context.listsGathered (ctx : Context) (r : Process × OpenFile) : Bool :=
  match r.1.pgid, r.1.uid, descriptor r.2.fd with
  | some pgid, some uid, some d => ctx.lists r.1.pid pgid uid 0 r.1.commandBytes d.1 d.2
  | _, _, _ => false

theorem listedRows_procOptions {base sel : Selection} {ctx : Context} {ignTasks : Bool}
    {opts : List ProcOption} (hbase : Unselected base) (hc : enterOptions base.andMode ignTasks opts = some ctx)
    (hr : Cli.enterOptions base opts = some sel) {procs : List Process}
    (hprocs : ∀ p ∈ procs, p.tid = none → ∃ pgid uid, Described p pgid uid) :
    (listedRows (sel.apply procs)).filter (fun r => r.1.tid.isNone) =
      ((gatheredRows procs).filter
        (fun r => r.1.tid.isNone && ctx.listsGathered r)).map (fun r => (r.1.header, r.2)) := by
  obtain ⟨hctx, hrun⟩ := Option.filter_eq_some_iff.mp hc
  obtain ⟨hsel, _⟩ := Option.filter_eq_some_iff.mp hr
  have hagree := (hbase.agree ignTasks).foldlM hctx hsel
  have hrun : ctx.refused = false := by simpa using hrun
  have hname : ∀ f, sel.nameRow f = f := by
    intro f
    simp [Selection.nameRow, Selection.naming, hagree.others.pathItems]
  rw [sel.apply_of_no_endpoints hagree.others.endpoints, sel.listedRows_applyRows, filter_map, filter_filter]
  simp only [hname]
  congr 1
  apply filter_congr
  rintro ⟨p, f⟩ hmem
  have hp : p ∈ procs ∧ f ∈ p.files := by
    simp only [gatheredRows, mem_flatMap, mem_map, Prod.mk.injEq] at hmem
    obtain ⟨q, hq, g, hg, hqp, hgf⟩ := hmem
    exact ⟨hqp ▸ hq, by rwa [← hqp, ← hgf]⟩
  cases htid : p.tid with
  | some tid => simp [Process.header, htid]
  | none =>
    obtain ⟨pgid, uid, hdescribed⟩ := hprocs p hp.1 htid
    obtain ⟨d, hd⟩ := Option.isSome_iff_exists.mp (hdescribed.files f hp.2)
    have hrow := hagree.listsRow_iff_lists hrun hdescribed htid hd (pidsWithTasks procs)
    simp [Process.header, htid, hrow, Context.listsGathered, hdescribed.pgid, hdescribed.uid, hd]

/-- `-a -p 10,11 -c sh -d ^txt -u ^5`. -/
def shellOptions : List ProcOption :=
  [.pid 10 false, .pid 11 false, .command (Text.bytes "sh".toList) false,
    .fd (.name "txt".toList) true, .uid 5 true]

def shellContext : Context where
  spid := [{ i := 10, x := false }, { i := 11, x := false }]
  suid := [{ i := 5, x := true }]
  cmdl := [{ str := Text.bytes "sh".toList, x := false }]
  fdl := [{ fdType := .programText, lo := 1, hi := 0 }]
  fdlTy := some true
  fand := true

def shellSelection : Selection where
  andMode := true
  pids := [10, 11]
  commands := [Text.bytes "sh".toList]
  fdFilter := some { exclude := [.named .txt] }
  uidExcludes := [5]

/-- Two shells of different owners, one of them with a thread. -/
def shells : List Process :=
  [{ pid := 10, command := "sh".toList, pgid := some 10, uid := some 5,
      files := [{ fd := .cwd, fileType := .dir }] },
    { pid := 11, command := "sh".toList, pgid := some 10, uid := some 6,
      files := [{ fd := .cwd, fileType := .dir }, { fd := .txt, fileType := .regular },
        { fd := .handle 3, fileType := .regular }] },
    { pid := 11, command := "sh".toList, pgid := some 10, uid := some 6, tid := some 12,
      files := [{ fd := .cwd, fileType := .dir }] }]

theorem listedRows_procOptions_shells :
    enterOptions true false shellOptions = some shellContext ∧
      Cli.enterOptions { andMode := true } shellOptions = some shellSelection ∧
      (listedRows (shellSelection.apply shells)).filter (fun r => r.1.tid.isNone) =
        ((gatheredRows shells).filter (fun r => r.1.tid.isNone && shellContext.listsGathered r)).map
            (fun r => (r.1.header, r.2)) := by
  have hbase : Unselected { andMode := true } := by
    constructor <;> first | rfl | (constructor <;> first | rfl | decide)
  have hc : enterOptions ({ andMode := true } : Selection).andMode false shellOptions =
      some shellContext := by decide
  have hr : Cli.enterOptions { andMode := true } shellOptions = some shellSelection := by decide
  have hprocs : ∀ p ∈ shells, p.tid = none → ∃ pgid uid, Described p pgid uid := by
    intro p hp htid
    simp only [shells, mem_cons, not_mem_nil, or_false] at hp
    rcases hp with rfl | rfl | rfl
    · exact ⟨10, 5, rfl, rfl, rfl, by decide⟩
    · exact ⟨10, 6, rfl, rfl, rfl, by decide⟩
    · cases htid
  exact ⟨hc, hr, listedRows_procOptions hbase hc hr hprocs⟩

end Lsof.Original
