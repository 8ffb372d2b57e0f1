import Lsof.Basis.Sides
import Lsof.Basis.Stopping
import Lsof.Cli.Early
import Lsof.Cli.ProcOptions

/-! # The lists of `-p`, `-g`, `-u` and `-d`

How the values of these options are read, item by item, over any number of them.
An error is a line, and the parse reads on; two of them end it. A value's items
before an illegal one are entered.
-/

namespace Lsof.Cli

open Lsof.Basis Lsof.Core

/-- The items between separators. A separator at the end has no item after it. -/
def listItems {α : Type} [DecidableEq α] (sep : α) (rest : List α) : List (List α) :=
  if rest.isEmpty then []
  else rest.takeWhile (fun a => a != sep) :: listItems sep ((rest.dropWhile fun a => a != sep).drop 1)
termination_by rest.length
decreasing_by
  have hdrop := (List.dropWhile_suffix (fun a => a != sep) (l := rest)).length_le
  rename_i hne
  have hpos : rest.length ≠ 0 := fun hzero => hne (List.isEmpty_iff.mpr (List.length_eq_zero_iff.mp hzero))
  rw [List.length_drop]
  omega

/-- Whether an item opens with the mark of an exclusion, and what follows the mark. -/
def unmarked {α : Type} [DecidableEq α] (mark : α) : List α → Bool × List α
  | [] => (false, [])
  | a :: rest => if a = mark then (true, rest) else (false, a :: rest)

def idOf (digits : Text) : Option Nat :=
  if digits.isEmpty then some 0
  else if Text.isDigits digits then (Text.parseUnsigned 32 digits).map BitVec.toNat
  else none

def parseIdItems (illegal : Text) : List Text → List (Bool × Nat) × Option Text
  | [] => ([], none)
  | item :: items =>
    match idOf (unmarked '^' item).2 with
    | none => ([], some illegal)
    | some id =>
      let parsed := parseIdItems illegal items
      (((unmarked '^' item).1, id) :: parsed.1, parsed.2)

def parseIdList (q : Quotes) (value what : Text) : List (Bool × Nat) × Option Text :=
  parseIdItems (quoting q.host q.standIns ("illegal ".toList ++ what ++ ": ".toList) value) (listItems ',' value)

structure EnteredIds where
  pids : Finset Nat := ∅
  pidExcludes : Finset Nat := ∅
  pgids : Finset Nat := ∅
  pgidExcludes : Finset Nat := ∅

def EnteredIds.ids (entered : EnteredIds) : (group excl : Bool) → Finset Nat
  | true, true => entered.pgidExcludes
  | true, false => entered.pgids
  | false, true => entered.pidExcludes
  | false, false => entered.pids

def EnteredIds.insert (entered : EnteredIds) (id : Nat) : (group excl : Bool) → EnteredIds
  | true, true => { entered with pgidExcludes := Insert.insert id entered.pgidExcludes }
  | true, false => { entered with pgids := Insert.insert id entered.pgids }
  | false, true => { entered with pidExcludes := Insert.insert id entered.pidExcludes }
  | false, false => { entered with pids := Insert.insert id entered.pids }

def idList (sel : Selection) : (group excl : Bool) → List Nat
  | true, true => sel.pgidExcludes
  | true, false => sel.pgids
  | false, true => sel.pidExcludes
  | false, false => sel.pids

def pushId (sel : Selection) (id : Nat) : (group excl : Bool) → Selection
  | true, true => { sel with pgidExcludes := sel.pgidExcludes ++ [id] }
  | true, false => { sel with pgids := sel.pgids ++ [id] }
  | false, true => { sel with pidExcludes := sel.pidExcludes ++ [id] }
  | false, false => { sel with pids := sel.pids ++ [id] }

/-- The parse reads neither `idsGiven` nor `uidsGiven`: they keep every item that was
read, of PGIDs and of PIDs, and of logins that have a UID. -/
structure ListState where
  sel : Selection := {}
  entered : EnteredIds := {}
  pgidColumn : Bool := false
  early : Early := {}
  printed : List Text := []
  idsGiven : Bool → List (Bool × Nat) := fun _ => []
  uidsGiven : List (Bool × UidSel) := []

section Entering

variable (q : Quotes)

namespace ListState

def line (st : ListState) (t : Text) : ListState :=
  { st with early := (st.early.line q t).1, printed := st.printed ++ (st.early.line q t).2 }

def noUid (st : ListState) (name : Text) : ListState :=
  { st with early := (st.early.noUid q name).1, printed := st.printed ++ (st.early.noUid q name).2 }

end ListState

def idWord (group : Bool) : Text := if group then "PGID".toList else "PID".toList

def enterListId (group : Bool) (st : ListState) (item : Bool × Nat) : ListState :=
  let st := { st with idsGiven := fun g => if g = group then st.idsGiven g ++ [item] else st.idsGiven g }
  if item.2 ∈ st.entered.ids group (!item.1) then
    st.line q (idWord group ++ ' ' :: Text.ofNat item.2 ++ " has been included and excluded.".toList)
  else if item.2 ∈ st.entered.ids group item.1 then st
  else { st with sel := pushId st.sel item.2 group item.1, entered := st.entered.insert item.2 group item.1 }

def idsRead (group : Bool) (value : Text) : List (Bool × Nat) × Option Text :=
  parseIdList q value (if group then "process group ID".toList else "process ID".toList)

def enterIds (st : ListState) (value : Text) (group : Bool) : ListState :=
  let parsed := idsRead q group value
  let st := parsed.1.foldl (enterListId q group) st
  match parsed.2 with
  | some bad => st.line q bad
  | none => st

inductive UserLookup where
  | uid (uid : Nat)
  | unknown
  | byName
  deriving DecidableEq, Repr

def LOGINML : Nat := 32

def echoLogin (item : Bytes) : Text :=
  item.flatMap fun b => if b < 128 then shown q.host q.standIns [Char.ofNat b.toNat] else pushHex b

/-- The login that is looked up: an empty one is `0`. -/
def loginOf (name : Bytes) : Bytes := if name.isEmpty then [48] else name

def uidSel (name : Bytes) (uid : Nat) : UidSel :=
  { uid, login := if name.all fun b => 48 ≤ b && b ≤ 57 then none else some name }

/-- One UID. Entered on both sides it ends the parse; entered twice on one, its first
spelling is kept. -/
def enterUid (st : ListState) (excl : Bool) (user : UidSel) : ListState × Option Text :=
  let st := { st with uidsGiven := st.uidsGiven ++ [(excl, user)] }
  let otherSide :=
    if excl then st.sel.uids.any fun s => s.uid == user.uid else st.sel.uidExcludes.contains user.uid
  if otherSide then
    (st, some ("UID ".toList ++ Text.ofNat user.uid ++ " has been included and excluded.".toList))
  else if excl then
    if st.sel.uidExcludes.contains user.uid then (st, none)
    else ({ st with sel := { st.sel with uidExcludes := st.sel.uidExcludes ++ [user.uid] } }, none)
  else if st.sel.uids.any fun s => s.uid == user.uid then (st, none)
  else ({ st with sel := { st.sel with uids := st.sel.uids ++ [user] } }, none)

variable (lookup : Bytes → UserLookup)

def enterUserItem (st : ListState) (item : Bytes) : ListState × Option Text :=
  let excl := (unmarked 94 item).1
  let name := (unmarked 94 item).2
  if LOGINML < name.length then
    (st.line q ("-u login name > ".toList ++ Text.ofNat LOGINML ++ " characters: ".toList ++ echoLogin q item), none)
  else
    match lookup (loginOf name) with
    | .uid uid => enterUid st excl (uidSel (loginOf name) uid)
    | .unknown => (st.noUid q ((Escaper.forHost q.host).bytes (loginOf name)), none)
    | .byName =>
      let text := Utf8.decodeLossy (loginOf name)
      (if excl then { st with sel := { st.sel with userExcludes := st.sel.userExcludes ++ [text] } }
        else { st with sel := { st.sel with users := st.sel.users ++ [text] } }, none)

def enterUsers (st : ListState) (value : Bytes) : ListState × Option Text :=
  foldUntil (enterUserItem q lookup) (listItems 44 value) st

def fdNumber (digits item : Text) : Except Text Nat :=
  let sum := digits.foldlM (fun n c =>
    let n := n * 10 + (c.toNat - '0'.toNat)
    if n ≤ 2 ^ 31 - 1 then some n else none) 0
  match sum with
  | some n => .ok n
  | none => .error (quoting q.host q.standIns "-d FD number exceeds INT_MAX: ".toList item)

def fdRangeEnd (digits item : Text) : Except Text Nat :=
  if Text.isDigits digits then fdNumber q digits item
  else .error (quoting q.host q.standIns "non-digit in -d FD range: ".toList item)

/-- Digits on both sides of an item's last `-`, the low end below the high one. -/
def fdRange (item : Text) (halves : Text × Text) : Except Text (Nat × Nat) :=
  if halves.1.isEmpty then .error (quoting q.host q.standIns "illegal FD range for -d: ".toList item)
  else do
    let lo ← fdRangeEnd q halves.1 item
    let hi ← fdRangeEnd q halves.2 item
    if lo ≥ hi then .error (quoting q.host q.standIns "-d FD range's low >= its high: ".toList item)
    else .ok (lo, hi)

def fdRangeOf (item : Text) : Except Text (Option (Nat × Nat)) :=
  match Text.splitLast '-' item with
  | none => .ok none
  | some halves => (fdRange q item halves).map some

/-- Why an item is refused: an error that the parse reads on after, or one that ends
it. -/
inductive FdNameError where
  | number (text : Text)
  | kind (text : Text)
  deriving DecidableEq, Repr

def fdSpecRead (range : Option (Nat × Nat)) (name : Text) : Except FdNameError FdSpec :=
  match range with
  | some ends => .ok (.range ends.1 ends.2)
  | none =>
    if Text.isDigits name then
      match fdNumber q name name with
      | .ok n => .ok (.num n)
      | .error e => .error (.number e)
    else
      match fdNamed name with
      | some spec => .ok spec
      | none => .error (.kind "invalid fd type given in -d option".toList)

def excluding (f : FdFilter) : Option Bool :=
  if !f.exclude.isEmpty then some true else if !f.include.isEmpty then some false else none

def pushFdSpec (f : FdFilter) (exclude : Bool) (spec : FdSpec) : FdFilter :=
  if exclude then { f with exclude := f.exclude ++ [spec] } else { f with «include» := f.include ++ [spec] }

def fdKindWord (exclude : Bool) : Text := if exclude then "exclude".toList else "include".toList

def mixedFdList (exclude was : Bool) (range : Option (Nat × Nat)) (body : Text) : Text :=
  let item := match range with
    | some ends => Text.ofNat ends.1 ++ '-' :: Text.ofNat ends.2
    | none => shown q.host q.standIns body
  fdKindWord exclude ++ " in an ".toList ++ fdKindWord was ++ " -d list: ".toList ++ (if exclude then ['^'] else []) ++
    item

/-- One item. `quiet` says that a mixed list is refused in silence. -/
def enterFdItem (quiet : Bool) (st : ListState) (item : Text) : ListState × Option Text :=
  let exclude := (unmarked '^' item).1
  let body := (unmarked '^' item).2
  if body.isEmpty then (st, none)
  else
    match fdRangeOf q body with
    | .error e => (st.line q e, none)
    | .ok range =>
      let f := st.sel.fdFilter.getD {}
      let st := { st with sel := { st.sel with fdFilter := some f } }
      match (excluding f).filter fun was => was != exclude with
      | some was =>
        if quiet then ({ st with early := { st.early with failed := true } }, none)
        else (st.line q (mixedFdList q exclude was range body), none)
      | none =>
        match fdSpecRead q range body with
        | .error (.number e) => (st.line q e, none)
        | .error (.kind e) => (st, some e)
        | .ok spec => ({ st with sel := { st.sel with fdFilter := some (pushFdSpec f exclude spec) } }, none)

def enterFdList (quiet : Bool) (st : ListState) (value : Text) : ListState × Option Text :=
  if value.isEmpty then (st.line q "no file descriptor specified".toList, none)
  else foldUntil (enterFdItem q quiet) (value.splitOn ',') st

/-- An option and its value, if it has one. `-d` says what `-w` and `-t` come to
before it. -/
inductive ListOption where
  | pid (value : Option Text)
  | pgid (value : Option Text)
  | user (value : Option Bytes)
  | fd (value : Option Text) (quiet : Bool)
  deriving DecidableEq, Repr

def enterListOption (st : ListState) : ListOption → ListState × Option Text
  | .pid none => (st.line q "no process ID specified".toList, none)
  | .pid (some value) => (enterIds q st value false, none)
  | .pgid none => ({ st with pgidColumn := true }, none)
  | .pgid (some value) => (enterIds q { st with pgidColumn := true } value true, none)
  | .user none => (st.line q "no UIDs specified".toList, none)
  | .user (some value) => enterUsers q lookup st value
  | .fd value quiet => enterFdList q quiet st (value.getD [])

def enterListOptions (opts : List ListOption) (st : ListState) : ListState × Option Text :=
  foldUntil (enterListOption q lookup) opts st

end Entering

end Lsof.Cli
