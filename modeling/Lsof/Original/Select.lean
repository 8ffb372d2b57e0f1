import Lsof.Basis.KindSet
import Lsof.Basis.Text

/-! # How the C selects a process and its descriptors

The tables the options fill, and the four functions that read them:
`is_proc_excl`, `is_cmd_excl`, `alloc_lfile` and `is_file_sel`, with the flags
they pass on as the C passes them. An early return is an `Except.error`.
-/

namespace Lsof.Original

open Lsof.Basis List

/-- The `SEL*` flags of `common.h` that a selection without `-E` uses. -/
inductive Sel where
  | cmd
  | cntx
  | fd
  | na
  | net
  | nfs
  | nlink
  | nm
  | pgid
  | pid
  | uid
  | unx
  | zone
  | exclf
  | task
  deriving DecidableEq, Repr

namespace Sel

def bit : Sel → Fin 32
  | cmd => 0
  | cntx => 1
  | fd => 2
  | na => 3
  | net => 4
  | nfs => 5
  | nlink => 6
  | nm => 7
  | pgid => 8
  | pid => 9
  | uid => 10
  | unx => 11
  | zone => 12
  | exclf => 13
  | task => 14

instance : BitIndexed Sel 32 where
  bit := bit
  bit_injective := by
    intro a b h
    cases a <;> cases b <;> first | rfl | exact absurd h (by decide)

end Sel

abbrev Flags := KindSet Sel

/-- `SELALL`, less `SELTASK` under `-K i`. -/
def selAll (ignTasks : Bool) : Flags :=
  ((((((((((((KindSet.none
    |>.union (.single .cmd))
    |>.union (.single .cntx))
    |>.union (.single .fd))
    |>.union (.single .na))
    |>.union (.single .net))
    |>.union (.single .nm))
    |>.union (.single .nfs))
    |>.union (.single .pid))
    |>.union (.single .uid))
    |>.union (.single .unx))
    |>.union (.single .zone))
    |>.insertIf (!ignTasks) (.single .task))

/-- `SELPGID | SELPID | SELUID | SELTASK`. -/
def procFlags : Flags :=
  (((KindSet.single .pgid).union (.single .pid)).union (.single .uid)).union (.single .task)

structure IdEntry where
  i : Nat
  x : Bool
  deriving DecidableEq, Repr

structure StrEntry where
  str : Bytes
  x : Bool
  deriving DecidableEq, Repr

/-- `enum lsof_fd_type`. -/
inductive FdType where
  | numeric
  | unknown
  | cwd
  | error
  | noFd
  | rootDir
  | parentDir
  | programText
  | libraryText
  | memory
  | deleted
  | filePort
  | taskCwd
  | ctty
  | jailDir
  | virtual8086
  | merge386
  | mmapDevice
  deriving DecidableEq, Repr

structure FdEntry where
  fdType : FdType
  lo : Nat
  hi : Nat
  deriving DecidableEq, Repr

structure Context where
  spid : List IdEntry := []
  spgid : List IdEntry := []
  suid : List IdEntry := []
  cmdl : List StrEntry := []
  fdl : List FdEntry := []
  /-- `FdlTy`: none before the first entry, then whether the list excludes. -/
  fdlTy : Option Bool := none
  fand : Bool := false
  ignTasks : Bool := false
  deriving DecidableEq, Repr

/-- `lsof_select_pid_pgid` and `lsof_select_uid_login`: an ID is entered once,
and not on both sides. -/
def selectId (table : List IdEntry) (id : Nat) (exclude : Bool) : Option (List IdEntry) :=
  match table.find? (fun e => e.i == id) with
  | some e => if e.x == exclude then some table else none
  | none => some (table ++ [{ i := id, x := exclude }])

/-- `MAXSYSCMDL` on Linux. -/
def maxSysCmdl : Nat := 15

def opensOption (name : Bytes) : Bool := name.head? == some 45 || name.head? == some 43

/-- `enter_cmd` and `lsof_select_process`, for a name that is no regular
expression. -/
def selectCommand (cmdl : List StrEntry) (command : Bytes) (exclude : Bool) :
    Option (List StrEntry) :=
  if !exclude && opensOption command then none
  else if cmdl.any (fun e => e.x != exclude && e.str == command) then none
  else if maxSysCmdl < command.length then none
  else some ({ str := command, x := exclude } :: cmdl)

/-- The FD names `enter_fd_lst` knows; `fd` is the whole range of numbers. -/
def fdNamed (nm : Text) : Option FdEntry :=
  let named := fun (t : FdType) => some { fdType := t, lo := 1, hi := 0 : FdEntry }
  if nm = "unk".toList then named .unknown
  else if nm = "cwd".toList then named .cwd
  else if nm = "err".toList then named .error
  else if nm = "NOFD".toList then named .noFd
  else if nm = "rtd".toList then named .rootDir
  else if nm = "pd".toList then named .parentDir
  else if nm = "txt".toList then named .programText
  else if nm = "ltx".toList then named .libraryText
  else if nm = "mem".toList then named .memory
  else if nm = "DEL".toList then named .deleted
  else if nm = "fp".toList then named .filePort
  else if nm = "twd".toList then named .taskCwd
  else if nm = "ctty".toList then named .ctty
  else if nm = "jd.".toList then named .jailDir
  else if nm = "v86".toList then named .virtual8086
  else if nm = "m86".toList then named .merge386
  else if nm = "mmap".toList then named .mmapDevice
  else if nm = "fd".toList then some { fdType := .numeric, lo := 0, hi := 2 ^ 31 - 1 }
  else none

/-- An item of a `-d` list: a number, an ascending range, or a name. -/
inductive FdItem where
  | number (n : Nat)
  | range (lo hi : Nat)
  | name (nm : Text)
  deriving DecidableEq, Repr

def fdEntryOf : FdItem → Option FdEntry
  | .number n => some { fdType := .numeric, lo := n, hi := n }
  | .range lo hi => some { fdType := .numeric, lo, hi }
  | .name nm => fdNamed nm

/-- `enter_fd_lst`: a list includes or excludes, and holds no duplicate. -/
def enterFdLst (ctx : Context) (item : FdItem) (excl : Bool) : Option Context :=
  if ctx.fdlTy == some (!excl) then none
  else match fdEntryOf item with
    | none => none
    | some f =>
      let same := fun (ft : FdEntry) => ft.fdType == f.fdType &&
        (ft.fdType != .numeric || (f.lo == ft.lo && f.hi == ft.hi))
      if ctx.fdl.any same then some ctx
      else some { ctx with fdl := f :: ctx.fdl, fdlTy := some excl }

/-- One value of `-p`, `-g`, `-u`, `-c` or `-d`, and whether a `^` was before it. -/
inductive ProcOption where
  | pid (id : Nat) (excl : Bool)
  | pgid (id : Nat) (excl : Bool)
  | uid (id : Nat) (excl : Bool)
  | command (name : Bytes) (excl : Bool)
  | fd (item : FdItem) (excl : Bool)
  deriving DecidableEq, Repr

def enterOption (ctx : Context) : ProcOption → Option Context
  | .pid id excl => (selectId ctx.spid id excl).map (fun t => { ctx with spid := t })
  | .pgid id excl => (selectId ctx.spgid id excl).map (fun t => { ctx with spgid := t })
  | .uid id excl => (selectId ctx.suid id excl).map (fun t => { ctx with suid := t })
  | .command name excl => (selectCommand ctx.cmdl name excl).map (fun l => { ctx with cmdl := l })
  | .fd item excl => enterFdLst ctx item excl

namespace Context

variable (ctx : Context)

/-- `Npidx` and the like: how many entries exclude. -/
def excluding (table : List IdEntry) : Nat := table.countP (fun e => e.x)

/-- `Npidi` and the like: how many entries include. -/
def including (table : List IdEntry) : Nat := table.countP (fun e => !e.x)

def selected : Flags :=
  ((((KindSet.none
    |>.insertIf (ctx.cmdl.any (fun e => !e.x)) (.single .cmd))
    |>.insertIf (!ctx.fdl.isEmpty) (.single .fd))
    |>.insertIf (including ctx.spgid != 0) (.single .pgid))
    |>.insertIf (including ctx.spid != 0) (.single .pid))
    |>.insertIf (including ctx.suid != 0) (.single .uid)

def allProc : Bool := ctx.selected.isEmpty

def selflags : Flags := if ctx.allProc then selAll ctx.ignTasks else ctx.selected

/-- `-a` with nothing to AND is refused. -/
def refused : Bool := ctx.fand && ctx.selected.isEmpty

end Context

/-- Every option, from the first; nothing where one of them is an error. -/
def enterOptions (fand ignTasks : Bool) (opts : List ProcOption) : Option Context :=
  (opts.foldlM enterOption { fand, ignTasks }).filter (fun ctx => !ctx.refused)

/-- A walk of a table that skips the entries it is not for and stops when it
has seen as many of its own as were counted. -/
def scan {α : Type} (own hit : α → Bool) : List α → Nat → Bool
  | [], _ => false
  | _ :: _, 0 => false
  | e :: es, n + 1 =>
    if !own e then scan own hit es (n + 1)
    else if hit e then true
    else scan own hit es n

theorem scan_count {α : Type} (own hit : α → Bool) (es : List α) :
    scan own hit es (es.countP own) = es.any (fun e => own e && hit e) := by
  induction es with
  | nil => rfl
  | cons e es ih =>
    by_cases hown : own e = true
    · simp only [countP_cons_of_pos hown, scan, hown, Bool.not_true, Bool.false_eq_true,
        if_false, ih, any_cons, Bool.true_and]
      cases hit e <;> simp
    · rw [countP_cons_of_neg hown]
      simp only [Bool.not_eq_true] at hown
      cases hcount : es.countP own with
      | zero =>
        have hnone : ∀ a ∈ es, ¬ own a = true := countP_eq_zero.mp hcount
        have hfalse : es.any (fun e => own e && hit e) = false := by
          rw [any_eq_false]
          intro a ha
          simp [hnone a ha]
        simp [scan, hown, hfalse]
      | succ n =>
        rw [hcount] at ih
        simp [scan, hown, ih]

/-- `*pss` and `*sf`: whether the process was selected, and by what. -/
structure ProcState where
  pri : Bool := false
  sf : Flags := KindSet.none
  deriving DecidableEq

namespace Context

variable (ctx : Context)

/-- The `-g` test of `is_proc_excl`. -/
def pgidTest (pgid : Nat) (st : ProcState) : Except (Bool × ProcState) ProcState :=
  if including ctx.spgid != 0 && decide (Sel.pgid ∈ ctx.selflags) then
    let hit := scan (fun e => !e.x) (fun e => e.i == pgid) ctx.spgid (including ctx.spgid)
    let st := if hit then { pri := true, sf := KindSet.single .pgid } else st
    if hit && decide (ctx.selflags = .single .pgid) then .error (false, st)
    else if decide (ctx.selflags = .single .pgid) && st.sf.isEmpty then .error (true, st)
    else .ok st
  else .ok st

/-- The `-p` test, which adds to the flags. -/
def pidTest (pid : Nat) (st : ProcState) : Except (Bool × ProcState) ProcState :=
  if including ctx.spid != 0 && decide (Sel.pid ∈ ctx.selflags) then
    let hit := scan (fun e => !e.x) (fun e => e.i == pid) ctx.spid (including ctx.spid)
    let st := if hit then { pri := true, sf := st.sf.union (.single .pid) } else st
    if hit && decide (ctx.selflags = .single .pid) then .error (false, st)
    else if decide (ctx.selflags = .single .pid) && st.sf.isEmpty then .error (true, st)
    else .ok st
  else .ok st

/-- The `-u` test, which asks for its own flag at the end. -/
def uidTest (uid : Nat) (st : ProcState) : Except (Bool × ProcState) ProcState :=
  if including ctx.suid != 0 && decide (Sel.uid ∈ ctx.selflags) then
    let hit := scan (fun e => !e.x) (fun e => e.i == uid) ctx.suid (including ctx.suid)
    let st := if hit then { pri := true, sf := st.sf.union (.single .uid) } else st
    if hit && decide (ctx.selflags = .single .uid) then .error (false, st)
    else if decide (ctx.selflags = .single .uid) && !decide (Sel.uid ∈ st.sf) then .error (true, st)
    else .ok st
  else .ok st

/-- The task test; `tid` is zero for a process. -/
def taskTest (tid : Nat) (st : ProcState) : Except (Bool × ProcState) ProcState :=
  if decide (Sel.task ∈ ctx.selflags) && tid != 0 then
    let st : ProcState := { pri := true, sf := st.sf.union (.single .task) }
    if decide (ctx.selflags = .single .task) ||
        (ctx.fand && decide (st.sf.intersection ctx.selflags = ctx.selflags)) then
      .error (false, st)
    else .ok st
  else .ok st

/-- What the tests leave to be said at the end of `is_proc_excl`. -/
def procVerdict (st : ProcState) : Bool × ProcState :=
  if st.sf.isEmpty then (ctx.fand && ctx.selflags.intersects procFlags, st)
  else if ctx.selflags.intersects procFlags then
    if ctx.fand then (decide (ctx.selflags.intersection procFlags ≠ st.sf), st) else (false, st)
  else (ctx.fand, st)

def excludes (table : List IdEntry) (id : Nat) : Bool :=
  excluding table != 0 && scan (fun e => e.x) (fun e => e.i == id) table (excluding table)

/-- `is_proc_excl`, with the state it leaves in `*pss` and `*sf`. -/
def isProcExcl (pid pgid uid tid : Nat) : Bool × ProcState :=
  if excludes ctx.suid uid then (true, {})
  else if excludes ctx.spgid pgid then (true, {})
  else if excludes ctx.spid pid then (true, {})
  else if ctx.allProc then (false, { pri := true, sf := selAll ctx.ignTasks })
  else
    match ctx.pgidTest pgid {} >>= ctx.pidTest pid >>= ctx.uidTest uid >>= ctx.taskTest tid with
    | .error verdict => verdict
    | .ok st => ctx.procVerdict st

/-- `is_cmd_excl`, a name compared by `strncmp` over its own length. -/
def isCmdExcl (cmd : Bytes) (st : ProcState) : Bool × ProcState :=
  if ctx.cmdl.any (fun e => e.x && e.str.isPrefixOf cmd) then (true, st)
  else if Sel.cmd ∉ ctx.selflags then (false, st)
  else if ctx.cmdl.any (fun e => !e.x && e.str.isPrefixOf cmd) then
    (false, { pri := true, sf := st.sf.union (.single .cmd) })
  else if ctx.selflags = .single .cmd then (true, st)
  else (ctx.fand, st)

def fdHit (fdType : FdType) (num : Nat) (fp : FdEntry) : Bool :=
  fp.fdType == fdType && (fp.fdType != .numeric || (fp.lo ≤ num && num ≤ fp.hi))

/-- `ck_fd_status`: 0 neither, 1 excluded, 2 included. -/
def ckFdStatus (fdType : FdType) (num : Nat) : Nat :=
  if ctx.fdl.isEmpty then 0
  else if ctx.fdlTy = some true then
    if ctx.fdl.any (fdHit fdType num) then 1 else 0
  else if ctx.fdl.any (fdHit fdType num) then 2 else 0

/-- `alloc_lfile`: the flags a file starts with. -/
def allocLfile (st : ProcState) (fdType : FdType) (num : Nat) : Flags :=
  let sf := if st.pri then st.sf else KindSet.none
  if ctx.fdl.isEmpty then sf
  else match ctx.fdlTy with
    | some false => sf.insertIf (ctx.ckFdStatus fdType num == 2) (.single .fd)
    | some true => sf.insertIf (ctx.ckFdStatus fdType num != 1) (.single .fd)
    | none => sf

def isFileSel (sf : Flags) : Bool :=
  if sf.isEmpty then false
  else if Sel.exclf ∈ sf then false
  else if ctx.allProc then true
  else !(ctx.fand && decide (sf.intersection ctx.selflags ≠ ctx.selflags))

def lists (pid pgid uid tid : Nat) (cmd : Bytes) (fdType : FdType) (num : Nat) : Bool :=
  let proc := ctx.isProcExcl pid pgid uid tid
  if proc.1 then false
  else
    let command := ctx.isCmdExcl cmd proc.2
    if command.1 then false
    else ctx.isFileSel (ctx.allocLfile command.2 fdType num)

end Context

end Lsof.Original
