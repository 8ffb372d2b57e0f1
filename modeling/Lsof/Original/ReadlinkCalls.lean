import Lsof.Original.Readlink

/-! # One call of `Readlink()` after another

The strings a call has put on `Readlink_stk` are cleared where it returns a path
and where it has met too many links, but not where a path has grown too long.
So a call can find less room than the first one of the process. Here the stack's
height is carried from call to call, and what each call returns is compared with
what it would return first.
-/

namespace Lsof.Original.Readlink

open Lsof.Basis Lsof.Core.Readlink List

section Calls

variable (readLink : Bytes → Option Bytes)

/-- A call that finds `sx` strings on the stack: how it ends and how many it
leaves, which nothing says once it has compared with an unwritten buffer. -/
def readlinkAt (sx : Nat) (arg : Bytes) : Spelt × Option Nat :=
  if arg = [] then (.undefined, none)
  else match readlinkLoop readLink arg [] 0 (components slash arg) with
    | none => (.tooLong, some sx)
    | some abuf =>
      if arg = cstr abuf then (.path arg, some 0)
      else if MAXSYMLINKS ≤ sx then (.tooManyLinks, some 0)
      else readlinkAt (sx + 1) (cstr abuf)
termination_by MAXSYMLINKS - sx

/-- A call as the program makes it: whether `-b` was given by then, and the path. -/
abbrev Call := Bool × Bytes

def readlinkCall (sx : Nat) (call : Call) : Spelt × Option Nat :=
  if call.1 then (.path (cstr call.2), some sx) else readlinkAt readLink sx (cstr call.2)

/-- The calls of a process, with `Readlink_sx` from one to the next. -/
def readlinkRun : Option Nat → List Call → List Spelt
  | _, [] => []
  | none, _ :: calls => .undefined :: readlinkRun none calls
  | some sx, call :: calls =>
    let ended := readlinkCall readLink sx call
    ended.1 :: readlinkRun ended.2 calls

/-- What the caller gets: a path or none; nothing is said of an undefined end. -/
def returned : Spelt → Option (Option Bytes)
  | .path p => some (some p)
  | .tooLong => some none
  | .tooManyLinks => some none
  | .undefined => none

inductive Reading where
  | undefined
  | tooLong
  | same
  | respelt (next : Bytes)
  deriving DecidableEq

def reading (arg : Bytes) : Reading :=
  if arg = [] then .undefined
  else match readlinkLoop readLink arg [] 0 (components slash arg) with
    | none => .tooLong
    | some abuf => if arg = cstr abuf then .same else .respelt (cstr abuf)

theorem readlinkAt_reading (sx : Nat) (arg : Bytes) :
    readlinkAt readLink sx arg =
      match reading readLink arg with
      | .undefined => (.undefined, none)
      | .tooLong => (.tooLong, some sx)
      | .same => (.path arg, some 0)
      | .respelt next =>
        if MAXSYMLINKS ≤ sx then (.tooManyLinks, some 0) else readlinkAt readLink (sx + 1) next := by
  rw [readlinkAt, reading]
  split
  · rfl
  · split
    · rfl
    · split <;> rfl

theorem readlinkFrom_reading (room : Nat) (arg : Bytes) :
    readlinkFrom readLink room arg =
      match reading readLink arg with
      | .undefined => .undefined
      | .tooLong => .tooLong
      | .same => .path arg
      | .respelt next =>
        match room with
        | 0 => .tooManyLinks
        | room + 1 => readlinkFrom readLink room next := by
  rw [readlinkFrom.eq_def, reading]
  dsimp only
  by_cases hempty : arg = []
  · rw [if_pos hempty, if_pos hempty]
  · rw [if_neg hempty, if_neg hempty]
    cases readlinkLoop readLink arg [] 0 (components slash arg) with
    | none => rfl
    | some abuf =>
      dsimp only
      by_cases hsame : arg = cstr abuf
      · rw [if_pos hsame, if_pos hsame]
      · cases room <;> simp only [if_neg hsame]

/-- How many strings a call with room for `room` puts on the stack. -/
def linksFollowed : Nat → Bytes → Nat
  | 0, _ => 0
  | room + 1, arg =>
    match reading readLink arg with
    | .respelt next => linksFollowed room next + 1
    | _ => 0

/-- What `sx` strings and `n` more come to when the call has ended. -/
def afterEnd (sx n : Nat) : Spelt → Option Nat
  | .path _ => some 0
  | .tooLong => some (sx + n)
  | .tooManyLinks => some 0
  | .undefined => none

theorem readlinkAt_eq {sx room : Nat} (hroom : sx + room = MAXSYMLINKS) (arg : Bytes) :
    readlinkAt readLink sx arg =
      (readlinkFrom readLink room arg,
        afterEnd sx (linksFollowed readLink room arg) (readlinkFrom readLink room arg)) := by
  induction room generalizing sx arg with
  | zero =>
    rw [readlinkAt_reading, readlinkFrom_reading, linksFollowed]
    cases reading readLink arg with
    | respelt next => exact if_pos (by omega)
    | undefined => rfl
    | tooLong => rfl
    | same => rfl
  | succ room ih =>
    rw [readlinkAt_reading, readlinkFrom_reading, linksFollowed]
    cases reading readLink arg with
    | respelt next =>
      dsimp only
      rw [if_neg (by omega), ih (by omega)]
      cases readlinkFrom readLink room next with
      | tooLong =>
        simp only [afterEnd, Prod.mk.injEq, Option.some.injEq, true_and]
        omega
      | path p => rfl
      | tooManyLinks => rfl
      | undefined => rfl
    | undefined => rfl
    | tooLong => rfl
    | same => rfl

theorem readlinkFrom_of_le {less room : Nat} (hle : less ≤ room) (arg : Bytes) :
    readlinkFrom readLink less arg =
        (if linksFollowed readLink room arg ≤ less then readlinkFrom readLink room arg else .tooManyLinks) ∧
      linksFollowed readLink less arg = min (linksFollowed readLink room arg) less := by
  induction room generalizing less arg with
  | zero =>
    obtain rfl : less = 0 := by omega
    exact ⟨rfl, rfl⟩
  | succ room ih =>
    rw [readlinkFrom_reading, readlinkFrom_reading readLink (room + 1), linksFollowed]
    -- a reading that ends the call ends it with any room
    have hend : ∀ spelt : Spelt, linksFollowed readLink less arg = 0 →
        spelt = (if 0 ≤ less then spelt else .tooManyLinks) ∧ linksFollowed readLink less arg = min 0 less := by
      intro spelt hzero
      rw [if_pos (Nat.zero_le less), hzero, Nat.zero_min]
      exact ⟨rfl, rfl⟩
    have hnone : (∀ next, reading readLink arg ≠ .respelt next) → linksFollowed readLink less arg = 0 := by
      intro hother
      cases less with
      | zero => rfl
      | succ less =>
        rw [linksFollowed]
        split
        next next hnext => exact absurd hnext (hother next)
        next => rfl
    cases hreading : reading readLink arg with
    | respelt next =>
      cases less with
      | zero =>
        dsimp only
        rw [if_neg (by omega), Nat.min_zero]
        exact ⟨rfl, rfl⟩
      | succ less =>
        obtain ⟨hspelt, hlinks⟩ := ih (Nat.le_of_succ_le_succ hle) next
        rw [linksFollowed, hreading]
        dsimp only
        rw [hspelt, hlinks, Nat.succ_min_succ]
        by_cases hfits : linksFollowed readLink room next ≤ less
        · rw [if_pos hfits, if_pos (Nat.succ_le_succ hfits)]
          exact ⟨rfl, rfl⟩
        · rw [if_neg hfits, if_neg (fun h => hfits (Nat.le_of_succ_le_succ h))]
          exact ⟨rfl, rfl⟩
    | undefined => exact hend .undefined (hnone fun next h => nomatch hreading.symm.trans h)
    | tooLong => exact hend .tooLong (hnone fun next h => nomatch hreading.symm.trans h)
    | same => exact hend (.path arg) (hnone fun next h => nomatch hreading.symm.trans h)

def first (call : Call) : Spelt := readlink readLink call.1 call.2

def links (call : Call) : Nat := if call.1 then 0 else linksFollowed readLink MAXSYMLINKS (cstr call.2)

/-- The stack after a call: a path that has grown too long leaves on it all that
was put there, and one link too many clears it. -/
def leave (stack : Option Nat) (call : Call) : Option Nat :=
  stack.bind fun sx =>
    if call.1 then some sx
    else if sx + links readLink call ≤ MAXSYMLINKS then afterEnd sx (links readLink call) (first readLink call)
    else some 0

/-- The room a call needs to end as the first one does. A call that fails there
fails anyhow. -/
def HasRoom (stack : Option Nat) (call : Call) : Prop :=
  match first readLink call with
  | .path _ => ∃ sx, stack = some sx ∧ sx + links readLink call ≤ MAXSYMLINKS
  | .undefined => ∀ sx, stack = some sx → sx + links readLink call ≤ MAXSYMLINKS
  | _ => ∃ sx, stack = some sx

def Bounded (stack : Option Nat) : Prop := ∀ sx, stack = some sx → sx ≤ MAXSYMLINKS

theorem readlinkCall_eq {sx : Nat} (hsx : sx ≤ MAXSYMLINKS) (call : Call) :
    readlinkCall readLink sx call =
      (if sx + links readLink call ≤ MAXSYMLINKS then first readLink call else .tooManyLinks,
        leave readLink (some sx) call) := by
  obtain ⟨fblock, arg⟩ := call
  cases fblock with
  | true =>
    have hroom : sx + links readLink (true, arg) ≤ MAXSYMLINKS := hsx
    rw [if_pos hroom]
    rfl
  | false =>
    obtain ⟨hspelt, hlinks⟩ := readlinkFrom_of_le readLink (Nat.sub_le MAXSYMLINKS sx) (cstr arg)
    change readlinkAt readLink sx (cstr arg) = _
    rw [readlinkAt_eq readLink (Nat.add_sub_cancel' hsx), hspelt, hlinks]
    change _ = (if sx + linksFollowed readLink MAXSYMLINKS (cstr arg) ≤ MAXSYMLINKS then
        readlinkFrom readLink MAXSYMLINKS (cstr arg) else .tooManyLinks,
      if sx + linksFollowed readLink MAXSYMLINKS (cstr arg) ≤ MAXSYMLINKS then
        afterEnd sx (linksFollowed readLink MAXSYMLINKS (cstr arg)) (readlinkFrom readLink MAXSYMLINKS (cstr arg))
      else some 0)
    generalize linksFollowed readLink MAXSYMLINKS (cstr arg) = n
    by_cases hroom : sx + n ≤ MAXSYMLINKS
    · rw [if_pos hroom, if_pos hroom, if_pos (by omega), Nat.min_eq_left (by omega)]
    · rw [if_neg hroom, if_neg hroom, if_neg (by omega)]
      rfl

theorem bounded_leave {stack : Option Nat} (h : Bounded stack) (call : Call) : Bounded (leave readLink stack call) := by
  intro after hafter
  obtain ⟨sx, rfl, hleave⟩ := Option.bind_eq_some_iff.mp hafter
  have hsx := h sx rfl
  split at hleave
  · cases hleave
    exact hsx
  · split at hleave
    next hroom =>
      unfold afterEnd at hleave
      split at hleave <;> cases hleave
      · exact Nat.zero_le _
      · exact hroom
      · exact Nat.zero_le _
    next =>
      cases hleave
      exact Nat.zero_le _

theorem returned_call_iff {sx : Nat} (hsx : sx ≤ MAXSYMLINKS) (call : Call) :
    returned (readlinkCall readLink sx call).1 = returned (first readLink call) ↔ HasRoom readLink (some sx) call := by
  rw [readlinkCall_eq readLink hsx]
  unfold HasRoom
  dsimp only
  by_cases hroom : sx + links readLink call ≤ MAXSYMLINKS
  · rw [if_pos hroom]
    cases first readLink call <;> simp [hroom]
  · rw [if_neg hroom]
    cases first readLink call <;> simp [hroom, returned]

theorem returned_undefined_iff (call : Call) :
    returned .undefined = returned (first readLink call) ↔ HasRoom readLink none call := by
  unfold HasRoom
  cases first readLink call <;> simp [returned]

theorem readlinkRun_iff {stack : Option Nat} (hstack : Bounded stack) (calls : List Call) :
    (readlinkRun readLink stack calls).map returned = calls.map (fun call => returned (first readLink call)) ↔
      ∀ i (h : i < calls.length), HasRoom readLink ((calls.take i).foldl (leave readLink) stack) calls[i] := by
  induction calls generalizing stack with
  | nil => simp [readlinkRun]
  | cons call calls ih =>
    have hrun : ∃ spelt, readlinkRun readLink stack (call :: calls) =
          spelt :: readlinkRun readLink (leave readLink stack call) calls ∧
        (returned spelt = returned (first readLink call) ↔ HasRoom readLink stack call) := by
      cases stack with
      | none => exact ⟨.undefined, rfl, returned_undefined_iff readLink call⟩
      | some sx =>
        have hsx := hstack sx rfl
        refine ⟨_, ?_, returned_call_iff readLink hsx call⟩
        rw [readlinkRun, readlinkCall_eq readLink hsx]
    obtain ⟨spelt, hcons, hfirst⟩ := hrun
    rw [hcons, map_cons, map_cons, List.cons.injEq, hfirst, ih (bounded_leave readLink hstack call)]
    constructor
    · rintro ⟨hhead, htail⟩ i hi
      cases i with
      | zero => exact hhead
      | succ i => exact htail i (Nat.lt_of_succ_lt_succ hi)
    · intro h
      exact ⟨h 0 (Nat.succ_pos _), fun i hi => h (i + 1) (Nat.succ_lt_succ hi)⟩

/-- Every call of a process returns what it would return first exactly when each
finds room on the stack for the links it follows. -/
theorem readlinkRun_as_first_iff (calls : List Call) :
    (readlinkRun readLink (some 0) calls).map returned =
        calls.map (fun call => returned (readlink readLink call.1 call.2)) ↔
      ∀ i (h : i < calls.length), HasRoom readLink ((calls.take i).foldl (leave readLink) (some 0)) calls[i] :=
  readlinkRun_iff readLink (fun _ h => Option.some.inj h ▸ Nat.zero_le _) calls

end Calls

/-- `a` is a link to `b`, `b` one to the name `z`, and `l` one to `t`. -/
def linksTo (z p : Bytes) : Option Bytes :=
  if p = [97] then some [98]
  else if p = [98] then some z
  else if p = [108] then some [116] else none

theorem readlinkLoop_linksTo {z : Bytes} (hlen : z.length = 4095) (hhead : z.head? ≠ some slash) (hnul : 0 ∉ z) :
    readlinkLoop (linksTo z) [98, slash, 99] [] 0 [[98], [slash, 99]] = none := by
  have htake : z.take MAXPATHLEN = z := take_of_length_le (by rw [hlen]; decide)
  have hfirst : addPiece [] [98, slash, 99] z true = some z := by
    have hslen : slenOf [] [98, slash, 99] z true = 1 := by
      rw [slenOf, if_neg hhead]
      rfl
    rw [addPiece, hslen, strncpy_of_not_mem hnul, hlen]
    rfl
  have hnext : addPiece z [98, slash, 99] [slash, 99] false = none := by
    rw [addPiece, hlen]
    rfl
  have hb : linksTo z (List.take (0 + [(98 : UInt8)].length) [98, slash, 99]) = some z := rfl
  have hc : linksTo z (List.take (0 + [(98 : UInt8)].length + [slash, (99 : UInt8)].length) [98, slash, 99]) = none := rfl
  rw [readlinkLoop, hb, Option.map_some, htake]
  dsimp only
  rw [if_neg (by decide), if_neg hhead, hfirst, Option.bind_some, readlinkLoop, hc]
  dsimp only [Option.map_none]
  rw [if_neg (by decide), hnext, Option.bind_none]

def longLink : Bytes → Option Bytes := linksTo (List.replicate 4095 122)

theorem reading_longLink :
    reading longLink [97, slash, 99] = .respelt [98, slash, 99] ∧ reading longLink [98, slash, 99] = .tooLong := by
  constructor
  · decide
  · have hlong : readlinkLoop longLink [98, slash, 99] [] 0 (components slash [98, slash, 99]) = none :=
      readlinkLoop_linksTo length_replicate (by rw [replicate_succ]; decide)
        (fun h => absurd (eq_of_mem_replicate h) (by decide))
    rw [reading, hlong]
    rfl

theorem leave_longLink {sx : Nat} (h : sx < MAXSYMLINKS) :
    readlinkCall longLink sx (false, [97, slash, 99]) = (.tooLong, some (sx + 1)) := by
  change readlinkAt longLink sx [97, slash, 99] = _
  rw [readlinkAt_reading, reading_longLink.1]
  dsimp only
  rw [if_neg (by omega), readlinkAt_reading, reading_longLink.2]

theorem readlinkRun_longLink {sx n : Nat} (h : sx + n ≤ MAXSYMLINKS) (calls : List Call) :
    readlinkRun longLink (some sx) (List.replicate n (false, [97, slash, 99]) ++ calls) =
      List.replicate n .tooLong ++ readlinkRun longLink (some (sx + n)) calls := by
  induction n generalizing sx with
  | zero => rfl
  | succ n ih =>
    rw [replicate_succ, cons_append, readlinkRun, leave_longLink (by omega)]
    dsimp only
    rw [ih (by omega), replicate_succ, cons_append, Nat.add_right_comm, Nat.add_assoc]

/-- After twenty paths that have grown too long behind a link, a path that is a
single link is refused for having too many, where the first call spells it. -/
theorem readlink_refuses_one_link :
    readlink longLink false [108] = .path [116] ∧
      readlinkRun longLink (some 0) (List.replicate 20 (false, [97, slash, 99]) ++ [(false, [108])]) =
        List.replicate 20 .tooLong ++ [.tooManyLinks] := by
  constructor
  · decide
  · rw [readlinkRun_longLink (Nat.le_refl _)]
    change _ ++ [(readlinkAt longLink 20 [108]).1] = _
    rw [readlinkAt_reading, show reading longLink [108] = .respelt [116] by decide]
    rfl

end Lsof.Original.Readlink
