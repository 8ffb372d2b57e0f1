import Lsof.Cli.ProcOptions

/-! # The process options in both programs

The C and lsof-rs enter the values of `-p`, `-g`, `-u`, `-c` and `-d` into
tables of their own. After any sequence of options that both accept, the tables
hold the same inclusions and exclusions.
-/

namespace Lsof.Original

open Lsof.Basis Lsof.Core List

structure Tables (included excluded : Nat → Prop) (table : List IdEntry) : Prop where
  included : ∀ v, included v ↔ { i := v, x := false } ∈ table
  excluded : ∀ v, excluded v ↔ { i := v, x := true } ∈ table

variable {id : Nat}

theorem mem_selectId {table table' : List IdEntry} {exclude : Bool}
    (h : selectId table id exclude = some table') (e : IdEntry) :
    e ∈ table' ↔ e ∈ table ∨ e = { i := id, x := exclude } := by
  unfold selectId at h
  split at h
  · rename_i found hfound
    split at h
    · rename_i hx
      cases h
      have hmem := mem_of_find?_eq_some hfound
      have hid := find?_some hfound
      have hsame : found = { i := id, x := exclude } := by
        cases found
        simp_all
      rw [← hsame]
      exact ⟨Or.inl, fun he => he.elim (fun he => he) (fun he => he ▸ hmem)⟩
    · cases h
  · cases h
    simp

theorem Tables.selectId {included excluded : Nat → Prop} {table table' : List IdEntry}
    (h : Tables included excluded table) {exclude : Bool} (hs : selectId table id exclude = some table') :
    Tables (fun v => included v ∨ (exclude = false ∧ v = id))
      (fun v => excluded v ∨ (exclude = true ∧ v = id)) table' where
  included := by
    intro v
    rw [mem_selectId hs, h.included]
    simp [and_comm, eq_comm]
  excluded := by
    intro v
    rw [mem_selectId hs, h.excluded]
    simp [and_comm, eq_comm]

theorem Tables.congr {included excluded included' excluded' : Nat → Prop} {table : List IdEntry}
    (h : Tables included excluded table) (hi : ∀ v, included' v ↔ included v)
    (he : ∀ v, excluded' v ↔ excluded v) : Tables included' excluded' table where
  included v := (hi v).trans (h.included v)
  excluded v := (he v).trans (h.excluded v)

theorem mem_enterId {this other l : List Nat} (h : Cli.enterId this other id = some l)
    (v : Nat) : v ∈ l ↔ v ∈ this ∨ v = id := by
  unfold Cli.enterId at h
  split at h
  · cases h
  · split at h
    · rename_i hmem
      cases h
      have hid : id ∈ this := by simpa using hmem
      exact ⟨Or.inl, fun hv => hv.elim (fun hv => hv) (fun hv => hv ▸ hid)⟩
    · cases h
      simp

/-- A descriptor as the C numbers and names it. A thread row is none. -/
def descriptor : Core.FdType → Option (FdType × Nat)
  | .handle n => some (.numeric, n)
  | .cwd => some (.cwd, 0)
  | .root => some (.rootDir, 0)
  | .txt => some (.programText, 0)
  | .mem => some (.memory, 0)
  | .deleted => some (.deleted, 0)
  | .noFd => some (.noFd, 0)
  | .ctty => some (.ctty, 0)
  | .jail => some (.jailDir, 0)
  | .unknown => some (.unknown, 0)
  | .task => none

/-- The names of `-d`, as each program enters them. -/
def fdNames : List (Text × FdSpec × FdEntry) :=
  [("unk".toList, .named .unknown, { fdType := .unknown, lo := 1, hi := 0 }),
    ("cwd".toList, .named .cwd, { fdType := .cwd, lo := 1, hi := 0 }),
    ("err".toList, .named (.otherDialect "err".toList), { fdType := .error, lo := 1, hi := 0 }),
    ("NOFD".toList, .named .noFd, { fdType := .noFd, lo := 1, hi := 0 }),
    ("rtd".toList, .named .rtd, { fdType := .rootDir, lo := 1, hi := 0 }),
    ("pd".toList, .named (.otherDialect "pd".toList), { fdType := .parentDir, lo := 1, hi := 0 }),
    ("txt".toList, .named .txt, { fdType := .programText, lo := 1, hi := 0 }),
    ("ltx".toList, .named (.otherDialect "ltx".toList),
      { fdType := .libraryText, lo := 1, hi := 0 }),
    ("mem".toList, .named .mem, { fdType := .memory, lo := 1, hi := 0 }),
    ("DEL".toList, .named .del, { fdType := .deleted, lo := 1, hi := 0 }),
    ("fp".toList, .named (.otherDialect "fp".toList), { fdType := .filePort, lo := 1, hi := 0 }),
    ("twd".toList, .named (.otherDialect "twd".toList), { fdType := .taskCwd, lo := 1, hi := 0 }),
    ("ctty".toList, .named (.otherDialect "ctty".toList), { fdType := .ctty, lo := 1, hi := 0 }),
    ("jd.".toList, .named (.otherDialect "jd.".toList), { fdType := .jailDir, lo := 1, hi := 0 }),
    ("v86".toList, .named (.otherDialect "v86".toList),
      { fdType := .virtual8086, lo := 1, hi := 0 }),
    ("m86".toList, .named (.otherDialect "m86".toList), { fdType := .merge386, lo := 1, hi := 0 }),
    ("mmap".toList, .named (.otherDialect "mmap".toList),
      { fdType := .mmapDevice, lo := 1, hi := 0 }),
    ("fd".toList, .range 0 (2 ^ 31 - 1), { fdType := .numeric, lo := 0, hi := 2 ^ 31 - 1 })]

theorem fdNames_entered : ∀ row ∈ fdNames, Cli.fdNamed row.1 = some row.2.1 ∧ fdNamed row.1 = some row.2.2 := by
  decide

theorem mem_fdNames {nm : Text} {e : FdEntry} (h : fdNamed nm = some e) : nm ∈ fdNames.map Prod.fst := by
  by_contra hno
  simp only [fdNames, map_cons, map_nil, mem_cons, not_mem_nil, or_false, not_or] at hno
  simp only [fdNamed, hno, if_false, reduceCtorEq] at h

theorem fdNames_matches (fd : Core.FdType) : ∀ row ∈ fdNames, ∀ d, descriptor fd = some d →
    row.2.1.matches fd = Context.fdHit d.1 d.2 row.2.2 := by
  cases fd with
  | handle n =>
    simp only [descriptor, Option.some.injEq, forall_eq']
    simp [fdNames, FdSpec.matches, Context.fdHit]
  | task => simp [descriptor]
  | _ =>
    simp only [descriptor, Option.some.injEq, forall_eq']
    decide

variable {item : FdItem}

theorem fdSpecOf_matches {spec : FdSpec} {e : FdEntry}
    (hs : Cli.fdSpecOf item = some spec) (he : fdEntryOf item = some e) {fd : Core.FdType}
    {d : FdType × Nat} (hd : descriptor fd = some d) : spec.matches fd = Context.fdHit d.1 d.2 e := by
  cases item with
  | name nm =>
    obtain ⟨row, hrow, hname⟩ := mem_map.mp (mem_fdNames he)
    obtain ⟨hrs, horiginal⟩ := fdNames_entered row hrow
    have hspec : row.2.1 = spec := by
      rw [hname] at hrs
      exact Option.some.inj (hrs.symm.trans hs)
    have hentry : row.2.2 = e := by
      rw [hname] at horiginal
      exact Option.some.inj (horiginal.symm.trans he)
    rw [← hspec, ← hentry]
    exact fdNames_matches fd row hrow d hd
  | number n =>
    cases hs
    cases he
    cases fd <;> simp only [descriptor, Option.some.injEq, reduceCtorEq] at hd
    case handle h =>
      subst hd
      rw [Bool.eq_iff_iff]
      simp only [FdSpec.matches, Context.fdHit, beq_self_eq_true, bne_self_eq_false,
        Bool.false_or, Bool.true_and, Bool.and_eq_true, decide_eq_true_eq, beq_iff_eq]
      omega
    all_goals
      subst hd
      rfl
  | range lo hi =>
    cases hs
    cases he
    cases fd <;> simp only [descriptor, Option.some.injEq, reduceCtorEq] at hd
    case handle h =>
      subst hd
      simp [FdSpec.matches, Context.fdHit]
    all_goals
      subst hd
      rfl

/-- The `-d` list of the C holds what the core's filter holds. -/
def FdAgree (ctx : Context) (filter : Option FdFilter) : Prop :=
  match ctx.fdlTy with
  | none => ctx.fdl = [] ∧ filter = none
  | some excl => ctx.fdl ≠ [] ∧ ∃ specs, specs ≠ [] ∧
      filter = some (if excl then { exclude := specs } else { «include» := specs }) ∧
      ∀ fd d, descriptor fd = some d →
        specs.any (fun s => s.matches fd) = ctx.fdl.any (Context.fdHit d.1 d.2)

theorem fdHit_of_same {f ft : FdEntry} (h : (ft.fdType == f.fdType &&
      (ft.fdType != .numeric || (f.lo == ft.lo && f.hi == ft.hi))) = true)
    (fdType : FdType) (num : Nat) : Context.fdHit fdType num ft = Context.fdHit fdType num f := by
  simp only [Bool.and_eq_true, beq_iff_eq, Bool.or_eq_true, bne_iff_ne, ne_eq] at h
  obtain ⟨hty, hkind⟩ := h
  unfold Context.fdHit
  rw [hty] at hkind ⊢
  rcases hkind with hname | ⟨hlo, hhi⟩
  · have hnum : (f.fdType != .numeric) = true := by simpa using hname
    simp [hnum]
  · rw [hlo, hhi]

theorem any_matches_concat {specs : List FdSpec} {fdl : List FdEntry}
    {spec : FdSpec} {f : FdEntry} (hs : Cli.fdSpecOf item = some spec) (he : fdEntryOf item = some f)
    (h : ∀ fd d, descriptor fd = some d → specs.any (fun s => s.matches fd) = fdl.any (Context.fdHit d.1 d.2)) :
    ∀ fd d, descriptor fd = some d →
      (specs ++ [spec]).any (fun s => s.matches fd) = (f :: fdl).any (Context.fdHit d.1 d.2) := by
  intro fd d hd
  rw [any_append, h fd d hd, any_cons, Bool.or_comm]
  simp [fdSpecOf_matches hs he hd]

variable {ctx ctx' : Context} {excl : Bool}

theorem FdAgree.enterFd {filter : Option FdFilter} {f' : FdFilter} (h : FdAgree ctx filter)
    (hc : enterFdLst ctx item excl = some ctx') (hr : Cli.enterFd filter item excl = some f') :
    FdAgree ctx' (some f') := by
  unfold enterFdLst at hc
  rw [Option.ite_none_left_eq_some] at hc
  obtain ⟨hmix, hc⟩ := hc
  cases he : fdEntryOf item with
  | none => simp [he] at hc
  | some f =>
    cases hs : Cli.fdSpecOf item with
    | none => simp [Cli.enterFd, hs] at hr
    | some spec =>
      rw [he] at hc
      dsimp only at hc
      unfold FdAgree at h
      cases hty : ctx.fdlTy with
      | none =>
        -- The first item of the list.
        rw [hty] at h
        obtain ⟨hfdl, hnone⟩ := h
        rw [hfdl] at hc
        simp only [any_nil, Bool.false_eq_true, if_false, Option.some.injEq] at hc
        subst hc
        have hf' : f' = if excl then { exclude := [spec] } else { «include» := [spec] } := by
          cases excl <;> simp [Cli.enterFd, hnone, hs] at hr ⊢ <;> exact hr.symm
        unfold FdAgree
        refine ⟨by simp, [spec], by simp, by rw [hf'], ?_⟩
        intro fd d hd
        simp [fdSpecOf_matches hs he hd]
      | some ty =>
        rw [hty] at h hmix
        obtain ⟨hne, specs, hspecs, hfilter, hany⟩ := h
        have hsame : ty = excl := by
          cases ty <;> cases excl <;> simp_all
        subst hsame
        have hf' : f' = if ty then { exclude := specs ++ [spec] }
            else { «include» := specs ++ [spec] } := by
          cases ty <;> simp [Cli.enterFd, hfilter, hspecs, hs] at hr ⊢ <;> exact hr.symm
        have hmore := any_matches_concat hs he hany
        split at hc
        · rename_i hdup
          cases hc
          unfold FdAgree
          rw [hty]
          refine ⟨hne, specs ++ [spec], by simp, by rw [hf'], ?_⟩
          intro fd d hd
          obtain ⟨ft, hft, hsame⟩ := any_eq_true.mp hdup
          rw [hmore fd d hd, any_cons]
          cases hhit : Context.fdHit d.1 d.2 f with
          | false => rfl
          | true =>
            rw [← fdHit_of_same hsame] at hhit
            rw [Bool.true_or, any_eq_true.mpr ⟨ft, hft, hhit⟩]
        · cases hc
          unfold FdAgree
          exact ⟨by simp, specs ++ [spec], by simp, by rw [hf'], hmore⟩

/-- Nothing but the process options and `-d` selects anything. -/
structure NoOthers (sel : Selection) : Prop where
  users : sel.users = []
  userExcludes : sel.userExcludes = []
  commandMatch : sel.commandMatch = .prefix_
  ppidFilter : sel.ppidFilter = []
  inet : sel.inet.bare = false ∧ sel.inet.specs = []
  unixOnly : sel.unixOnly = false
  nfsOnly : sel.nfsOnly = false
  tasks : sel.tasks ≠ .always
  paths : sel.hasPathFilter = false
  pathItems : sel.pathItems = []
  maxLinks : sel.maxLinks = none
  stateFilter : sel.stateFilter = none
  endpoints : sel.endpoints = none

structure Agree (ctx : Context) (sel : Selection) : Prop where
  pids : Tables (· ∈ sel.pids) (· ∈ sel.pidExcludes) ctx.spid
  pgids : Tables (· ∈ sel.pgids) (· ∈ sel.pgidExcludes) ctx.spgid
  uids : Tables (fun v => ∃ s ∈ sel.uids, s.uid = v) (· ∈ sel.uidExcludes) ctx.suid
  commands : ∀ c, c ∈ sel.commands ↔ { str := c, x := false } ∈ ctx.cmdl
  commandExcludes : ∀ c, c ∈ sel.commandExcludes ↔ { str := c, x := true } ∈ ctx.cmdl
  fds : FdAgree ctx sel.fdFilter
  fand : ctx.fand = sel.andMode
  others : NoOthers sel

variable {sel sel' : Selection}

theorem Agree.pid (h : Agree ctx sel) (hc : enterOption ctx (.pid id excl) = some ctx')
    (hr : Cli.enterOption sel (.pid id excl) = some sel') : Agree ctx' sel' := by
  obtain ⟨table, ht, rfl⟩ := Option.map_eq_some_iff.mp hc
  have htable := h.pids.selectId ht
  cases excl with
  | false =>
    obtain ⟨l, hl, rfl⟩ := Option.map_eq_some_iff.mp hr
    refine { h with pids := htable.congr (fun v => ?_) (fun v => ?_), others := { h.others with } }
    · simp [mem_enterId hl]
    · simp
  | true =>
    obtain ⟨l, hl, rfl⟩ := Option.map_eq_some_iff.mp hr
    refine { h with pids := htable.congr (fun v => ?_) (fun v => ?_), others := { h.others with } }
    · simp
    · simp [mem_enterId hl]

theorem Agree.pgid (h : Agree ctx sel) (hc : enterOption ctx (.pgid id excl) = some ctx')
    (hr : Cli.enterOption sel (.pgid id excl) = some sel') : Agree ctx' sel' := by
  obtain ⟨table, ht, rfl⟩ := Option.map_eq_some_iff.mp hc
  have htable := h.pgids.selectId ht
  cases excl with
  | false =>
    obtain ⟨l, hl, rfl⟩ := Option.map_eq_some_iff.mp hr
    refine { h with pgids := htable.congr (fun v => ?_) (fun v => ?_), others := { h.others with } }
    · simp [mem_enterId hl]
    · simp
  | true =>
    obtain ⟨l, hl, rfl⟩ := Option.map_eq_some_iff.mp hr
    refine { h with pgids := htable.congr (fun v => ?_) (fun v => ?_), others := { h.others with } }
    · simp
    · simp [mem_enterId hl]

theorem enterUser_cases (h : Cli.enterUser sel id excl = some sel') :
    ∃ uids uidExcludes, sel' = { sel with uids, uidExcludes } ∧
      (∀ v, (∃ s ∈ uids, s.uid = v) ↔ (∃ s ∈ sel.uids, s.uid = v) ∨ (excl = false ∧ v = id)) ∧
      (∀ v, v ∈ uidExcludes ↔ v ∈ sel.uidExcludes ∨ (excl = true ∧ v = id)) := by
  unfold Cli.enterUser at h
  cases excl with
  | true =>
    simp only [if_true] at h
    split at h
    · cases h
    · split at h
      · rename_i hmem
        cases h
        refine ⟨sel.uids, sel.uidExcludes, rfl, by simp, fun v => ?_⟩
        have hid : id ∈ sel.uidExcludes := by simpa using hmem
        exact ⟨Or.inl, fun hv => hv.elim (fun hv => hv) (fun hv => hv.2 ▸ hid)⟩
      · cases h
        exact ⟨sel.uids, sel.uidExcludes ++ [id], rfl, by simp, by simp⟩
  | false =>
    simp only [Bool.false_eq_true, if_false] at h
    split at h
    · cases h
    · split at h
      · rename_i hmem
        cases h
        refine ⟨sel.uids, sel.uidExcludes, rfl, fun v => ?_, by simp⟩
        have hid : ∃ s ∈ sel.uids, s.uid = id := by simpa using hmem
        exact ⟨Or.inl, fun hv => hv.elim (fun hv => hv) (fun hv => hv.2 ▸ hid)⟩
      · cases h
        refine ⟨sel.uids ++ [{ uid := id }], sel.uidExcludes, rfl, fun v => ?_, by simp⟩
        simp only [mem_append, mem_singleton, or_and_right, exists_or, exists_eq_left, true_and]
        rw [eq_comm (a := id)]

theorem Agree.uid (h : Agree ctx sel) (hc : enterOption ctx (.uid id excl) = some ctx')
    (hr : Cli.enterOption sel (.uid id excl) = some sel') : Agree ctx' sel' := by
  obtain ⟨table, ht, rfl⟩ := Option.map_eq_some_iff.mp hc
  obtain ⟨uids, uidExcludes, rfl, hu, hx⟩ := enterUser_cases hr
  exact { h with uids := (h.uids.selectId ht).congr hu hx, others := { h.others with } }

theorem enterCommand_cases {name : Bytes} (h : Cli.enterCommand sel name excl = some sel') :
    sel' = if excl then { sel with commandExcludes := sel.commandExcludes ++ [name] }
      else { sel with commands := sel.commands ++ [name] } := by
  unfold Cli.enterCommand at h
  simp only [Option.ite_none_left_eq_some] at h
  obtain ⟨_, _, _, h⟩ := h
  cases excl with
  | true =>
    simp only [if_true, Option.ite_none_left_eq_some, Option.some.injEq] at h
    exact h.2.symm
  | false =>
    simp only [Bool.false_eq_true, if_false, Option.ite_none_left_eq_some, Option.some.injEq] at h
    exact h.2.symm

theorem Agree.command (h : Agree ctx sel) {name : Bytes} (hc : enterOption ctx (.command name excl) = some ctx')
    (hr : Cli.enterOption sel (.command name excl) = some sel') : Agree ctx' sel' := by
  obtain ⟨cmdl, hl, rfl⟩ := Option.map_eq_some_iff.mp hc
  unfold selectCommand at hl
  simp only [Option.ite_none_left_eq_some, Option.some.injEq] at hl
  obtain ⟨_, _, _, rfl⟩ := hl
  have hsel := enterCommand_cases hr
  cases excl with
  | true =>
    subst hsel
    refine { h with
      commands := fun c => ?_
      commandExcludes := fun c => ?_
      others := { h.others with } }
    · simpa using h.commands c
    · simpa [or_comm] using or_congr_left (h.commandExcludes c)
  | false =>
    subst hsel
    refine { h with
      commands := fun c => ?_
      commandExcludes := fun c => ?_
      others := { h.others with } }
    · simpa [or_comm] using or_congr_left (h.commands c)
    · simpa using h.commandExcludes c

theorem enterFdLst_others (h : enterFdLst ctx item excl = some ctx') :
    ctx' = { ctx with fdl := ctx'.fdl, fdlTy := ctx'.fdlTy } := by
  unfold enterFdLst at h
  rw [Option.ite_none_left_eq_some] at h
  obtain ⟨_, h⟩ := h
  split at h
  · cases h
  · dsimp only at h
    split at h
    · cases h
      rfl
    · cases h
      rfl

theorem Agree.fd (h : Agree ctx sel) (hc : enterOption ctx (.fd item excl) = some ctx')
    (hr : Cli.enterOption sel (.fd item excl) = some sel') : Agree ctx' sel' := by
  obtain ⟨filter, hf, rfl⟩ := Option.map_eq_some_iff.mp hr
  have hfds := h.fds.enterFd hc hf
  rw [enterFdLst_others hc] at hfds ⊢
  exact { h with fds := hfds, others := { h.others with } }

theorem Agree.enterOption (h : Agree ctx sel) {opt : ProcOption} (hc : enterOption ctx opt = some ctx')
    (hr : Cli.enterOption sel opt = some sel') : Agree ctx' sel' := by
  cases opt with
  | pid id excl => exact h.pid hc hr
  | pgid id excl => exact h.pgid hc hr
  | uid id excl => exact h.uid hc hr
  | command name excl => exact h.command hc hr
  | fd item excl => exact h.fd hc hr

theorem Agree.foldlM (h : Agree ctx sel)
    {opts : List ProcOption} (hc : opts.foldlM Original.enterOption ctx = some ctx')
    (hr : opts.foldlM Cli.enterOption sel = some sel') : Agree ctx' sel' := by
  induction opts generalizing ctx sel with
  | nil =>
    cases hc
    cases hr
    exact h
  | cons opt opts ih =>
    rw [foldlM_cons, Option.bind_eq_bind, Option.bind_eq_some_iff] at hc hr
    obtain ⟨c, hc1, hc2⟩ := hc
    obtain ⟨r, hr1, hr2⟩ := hr
    exact ih (h.enterOption hc1 hr1) hc2 hr2

end Lsof.Original
