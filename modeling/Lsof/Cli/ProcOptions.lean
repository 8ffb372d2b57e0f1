import Lsof.Core.Endpoints
import Lsof.Original.Select

/-! # Entering the process options

How the values of `-p`, `-g`, `-u`, `-c` and `-d` get into a `Selection` on a
host whose backend resolves users to UIDs, item by item as the C enters them.
-/

namespace Lsof.Cli

open Lsof.Basis Lsof.Core
open Lsof.Original (FdItem ProcOption)

def enterId (this other : List Nat) (id : Nat) : Option (List Nat) :=
  if other.contains id then none
  else if this.contains id then some this
  else some (this ++ [id])

/-- A UID of `-u`, which keeps the login it was first given by. -/
def enterUser (sel : Selection) (uid : Nat) (excl : Bool) : Option Selection :=
  if excl then
    if sel.uids.any (fun s => s.uid == uid) then none
    else if sel.uidExcludes.contains uid then some sel
    else some { sel with uidExcludes := sel.uidExcludes ++ [uid] }
  else if sel.uidExcludes.contains uid then none
  else if sel.uids.any (fun s => s.uid == uid) then some sel
  else some { sel with uids := sel.uids ++ [{ uid }] }

/-- The most bytes of a command the kernel keeps. -/
def maxCommandWidth : Nat := 15

/-- A name of `-c`. A regular expression is refused. -/
def enterCommand (sel : Selection) (name : Bytes) (excl : Bool) : Option Selection :=
  if !excl && (name.head? == some 45 || name.head? == some 43 || name.head? == some 47) then none
  else if excl && name.isEmpty then none
  else if maxCommandWidth < name.length then none
  else if excl then
    if sel.commands.contains name then none
    else some { sel with commandExcludes := sel.commandExcludes ++ [name] }
  else if sel.commandExcludes.contains name then none
  else some { sel with commands := sel.commands ++ [name] }

def otherDialectsFdNames : List Text :=
  ["err".toList, "pd".toList, "ltx".toList, "fp".toList, "twd".toList, "ctty".toList, "jd.".toList,
    "v86".toList, "m86".toList, "mmap".toList]

def fdNamed (name : Text) : Option FdSpec :=
  if name = "cwd".toList then some (.named .cwd)
  else if name = "rtd".toList then some (.named .rtd)
  else if name = "txt".toList then some (.named .txt)
  else if name = "mem".toList then some (.named .mem)
  else if name = "DEL".toList then some (.named .del)
  else if name = "NOFD".toList then some (.named .noFd)
  else if name = "unk".toList then some (.named .unknown)
  else if name = "fd".toList then some (.range 0 (2 ^ 31 - 1))
  else if otherDialectsFdNames.contains name then some (.named (.otherDialect name))
  else none

def fdSpecOf : FdItem → Option FdSpec
  | .number n => some (.num n)
  | .range lo hi => some (.range lo hi)
  | .name nm => fdNamed nm

/-- An item of `-d`: the list includes or excludes, as its first item does. -/
def enterFd (filter : Option FdFilter) (item : FdItem) (excl : Bool) : Option FdFilter :=
  let f := filter.getD {}
  let excluding : Option Bool :=
    if !f.exclude.isEmpty then some true
    else if !f.include.isEmpty then some false
    else none
  if excluding == some (!excl) then none
  else match fdSpecOf item with
    | none => none
    | some spec =>
      some (if excl then { f with exclude := f.exclude ++ [spec] }
        else { f with «include» := f.include ++ [spec] })

def enterOption (sel : Selection) : ProcOption → Option Selection
  | .pid id true => (enterId sel.pidExcludes sel.pids id).map (fun l => { sel with pidExcludes := l })
  | .pid id false => (enterId sel.pids sel.pidExcludes id).map (fun l => { sel with pids := l })
  | .pgid id true =>
    (enterId sel.pgidExcludes sel.pgids id).map (fun l => { sel with pgidExcludes := l })
  | .pgid id false => (enterId sel.pgids sel.pgidExcludes id).map (fun l => { sel with pgids := l })
  | .uid id excl => enterUser sel id excl
  | .command name excl => enterCommand sel name excl
  | .fd item excl => (enterFd sel.fdFilter item excl).map (fun f => { sel with fdFilter := some f })

/-- Every option, from the first; `-a` with nothing to AND is refused. -/
def enterOptions (sel : Selection) (opts : List ProcOption) : Option Selection :=
  (opts.foldlM enterOption sel).filter (fun sel => !(sel.andMode && sel.specified.isEmpty))

end Lsof.Cli
