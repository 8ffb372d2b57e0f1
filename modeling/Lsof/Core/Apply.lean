import Lsof.Core.Selection

/-! # Applying a selection

`applyRows` is the C's `is_file_sel`: every file accumulates the kinds its
process and it matched, and is listed when that set is not empty, or under
`-a` complete. The lemmas say what an entry of the output is: the entry it came
from, with the rows it keeps, and with a line of its own only where it keeps
some or may be listed bare.
-/

namespace Lsof.Core

open Lsof.Basis List

def pidsWithTasks (procs : List Process) : List Nat :=
  (procs.filter (fun p => p.tid.isSome || p.files.any (fun f => f.fd == .task))).map Process.pid

theorem mem_pidsWithTasks {procs : List Process} {n : Nat} :
    n ∈ pidsWithTasks procs ↔ ∃ p ∈ procs, (p.tid.isSome = true ∨ ∃ f ∈ p.files, f.fd = .task) ∧ p.pid = n := by
  simp [pidsWithTasks, and_assoc]

namespace Selection

variable (sel : Selection)

def renameLocated (ix : PathIndex) (f : OpenFile) : OpenFile :=
  if f.isSocket then f
  else match ((ix.bound f).bind (fun i => sel.pathItems[i]?)).bind PathItem.rowName with
    | none => f
    | some name => f.setBaseName (Utf8.decodeLossy name)

def naming : Option PathIndex :=
  if sel.pathsIdentified && !sel.pathItems.isEmpty then some (PathIndex.new sel.pathItems true)
  else none

/-- A row as it is named before any kind is asked of it. -/
def nameRow (f : OpenFile) : OpenFile :=
  match sel.naming with
  | some ix => sel.renameLocated ix f
  | none => f

/-- A kind whose test reads no name: all but `-N`, and a path argument only
where the backend identifies files. -/
def Nameless (k : SelKind) : Prop := k ≠ .nfs ∧ (k = .nm → sel.pathsIdentified = true)

variable {f g : OpenFile}

theorem fileTest_of_unnamed (h : f.unnamed = g.unnamed) {k : SelKind}
    (hk : sel.Nameless k) : sel.fileTest f k = sel.fileTest g k := by
  rw [eq_named_of_unnamed h]
  cases k with
  | nfs => exact absurd rfl hk.1
  | nm =>
    have hid := hk.2 rfl
    simp only [fileTest, pathMatches, hid]
    rfl
  | _ => rfl

theorem stateMatches_of_unnamed (h : f.unnamed = g.unnamed) : sel.stateMatches f = sel.stateMatches g := by
  rw [eq_named_of_unnamed h]
  rfl

theorem renameLocated_unnamed (ix : PathIndex) (f : OpenFile) : (sel.renameLocated ix f).unnamed = f.unnamed := by
  unfold renameLocated
  split
  · rfl
  · split
    · rfl
    · exact f.setBaseName_unnamed _

theorem nameRow_unnamed (f : OpenFile) : (sel.nameRow f).unnamed = f.unnamed := by
  unfold nameRow
  split
  · exact sel.renameLocated_unnamed _ f
  · rfl

theorem fileTest_nameRow (f : OpenFile) {k : SelKind} (hk : k ≠ .nfs) :
    sel.fileTest (sel.nameRow f) k = sel.fileTest f k := by
  by_cases hid : sel.pathsIdentified = true
  · exact sel.fileTest_of_unnamed (sel.nameRow_unnamed f) ⟨hk, fun _ => hid⟩
  · have hnone : sel.naming = none := by simp [naming, hid]
    rw [nameRow, hnone]

def inheritedKinds (withTasks : List Nat) (p : Process) : SelKinds :=
  if sel.excludesProcess p then KindSet.none else sel.entryKinds p withTasks

/-- Whether the entry is there only as the other end of a selected pipe. -/
def peerOnly (withTasks : List Nat) (p : Process) : Bool :=
  !sel.excludesProcess p && p.endpointPeer && (sel.inheritedKinds withTasks p).isEmpty

/-- The test of the kinds a row accumulated: not empty, and under `-a` complete. -/
def acceptsKinds (sf : SelKinds) : Bool :=
  if sf.isEmpty then false else !sel.andMode || sf.contains sel.specified

def keepsRow (withTasks : List Nat) (p : Process) (f : OpenFile) : Bool :=
  if sel.specified.isEmpty then true
  else if sel.peerOnly withTasks p then
    if f.fileType != .pipe then false else sel.acceptsKinds sel.specified
  else sel.acceptsKinds ((sel.inheritedKinds withTasks p).union (sel.fileKinds f))

def retainRow (withTasks : List Nat) (p : Process) (f : OpenFile) : Option OpenFile :=
  if !sel.stateMatches f then none
  else if sel.keepsRow withTasks p (sel.nameRow f) then some (sel.nameRow f)
  else none

def keptRows (withTasks : List Nat) (p : Process) : List OpenFile :=
  p.files.filterMap (sel.retainRow withTasks p)

/-- Whether an entry is looked at: an excluded one only where every process is
read, and then only if some selector could pick one of its rows. -/
def readsEntry (p : Process) : Bool :=
  !(sel.excludesProcess p && (!sel.readsEveryProcess || sel.specified.isEmpty))

def listsRow (withTasks : List Nat) (p : Process) (f : OpenFile) : Bool :=
  sel.readsEntry p && sel.stateMatches f && sel.keepsRow withTasks p (sel.nameRow f)

def bareLine (withTasks : List Nat) (p : Process) : Bool :=
  let inherited := sel.inheritedKinds withTasks p
  let taskOnlyMiss := sel.specified.contains (.single .task) &&
    !inherited.contains (.single .task) && (sel.andMode || inherited.isEmpty)
  !(sel.excludesProcess p || p.unlisted || !sel.procSelected inherited ||
    sel.specified.intersects SelKinds.file || sel.peerOnly withTasks p || taskOnlyMiss)

def applyEntry (withTasks : List Nat) (p : Process) : Option Process :=
  if !sel.readsEntry p then none
  else if (sel.keptRows withTasks p).isEmpty && !sel.bareLine withTasks p then none
  else some { p with files := sel.keptRows withTasks p }

def applyRows (procs : List Process) : List Process :=
  procs.filterMap (sel.applyEntry (pidsWithTasks procs))

variable {withTasks : List Nat}

theorem applyEntry_eq_some {p q : Process} :
    sel.applyEntry withTasks p = some q ↔
      sel.readsEntry p = true ∧
        (sel.keptRows withTasks p ≠ [] ∨ sel.bareLine withTasks p = true) ∧
        q = { p with files := sel.keptRows withTasks p } := by
  unfold applyEntry
  cases hr : sel.readsEntry p with
  | false => simp
  | true =>
    cases hk : sel.keptRows withTasks p with
    | nil =>
      cases hb : sel.bareLine withTasks p with
      | false => simp
      | true => simpa using eq_comm
    | cons f rest => simpa using eq_comm

theorem mem_applyRows {procs : List Process} {q : Process} :
    q ∈ sel.applyRows procs ↔ ∃ p ∈ procs, sel.applyEntry (pidsWithTasks procs) p = some q := by
  simp [applyRows, mem_filterMap]

variable {p : Process}

theorem retainRow_eq_some :
    sel.retainRow withTasks p f = some g ↔
      sel.stateMatches f = true ∧ sel.keepsRow withTasks p (sel.nameRow f) = true ∧ g = sel.nameRow f := by
  unfold retainRow
  cases hs : sel.stateMatches f with
  | false => simp
  | true =>
    cases hk : sel.keepsRow withTasks p (sel.nameRow f) with
    | false => simp
    | true => simpa using eq_comm

theorem mem_keptRows {g : OpenFile} :
    g ∈ sel.keptRows withTasks p ↔
      ∃ f ∈ p.files, sel.stateMatches f = true ∧
        sel.keepsRow withTasks p (sel.nameRow f) = true ∧ g = sel.nameRow f := by
  simp only [keptRows, mem_filterMap, retainRow_eq_some]

theorem keptRows_eq (hread : sel.readsEntry p = true) (withTasks : List Nat) :
    sel.keptRows withTasks p = (p.files.filter (sel.listsRow withTasks p)).map sel.nameRow := by
  unfold keptRows
  induction p.files with
  | nil => rfl
  | cons f files ih =>
    have hdef : sel.retainRow withTasks p f =
        if sel.listsRow withTasks p f then some (sel.nameRow f) else none := by
      unfold retainRow listsRow
      rw [hread]
      cases sel.stateMatches f <;> simp
    cases hl : sel.listsRow withTasks p f with
    | false => simp [hdef, hl, ih]
    | true => simp [hdef, hl, ih]

theorem readsEntry_of_not_every (h : sel.readsEveryProcess = false) (p : Process) :
    sel.readsEntry p = !sel.excludesProcess p := by
  simp [readsEntry, h]

theorem inheritedKinds_of_not_excluded (h : sel.excludesProcess p = false)
    (withTasks : List Nat) : sel.inheritedKinds withTasks p = sel.entryKinds p withTasks := by
  simp [inheritedKinds, h]

theorem peerOnly_of_not_peer (h : p.endpointPeer = false) (withTasks : List Nat) :
    sel.peerOnly withTasks p = false := by
  simp [peerOnly, h]

theorem acceptsKinds_iff {sf : SelKinds} :
    sel.acceptsKinds sf = true ↔ (∃ k, k ∈ sf) ∧ (sel.andMode = true → ∀ k, sel.given k = true → k ∈ sf) := by
  unfold acceptsKinds
  cases he : sf.isEmpty with
  | true =>
    have hnone := KindSet.isEmpty_iff.mp he
    simp [hnone]
  | false =>
    have hsome := KindSet.isEmpty_eq_false_iff.mp he
    cases sel.andMode with
    | false => simp [hsome]
    | true => simp [hsome, KindSet.contains_iff, mem_specified]

theorem keepsRow_iff (hgiven : sel.specified.isEmpty = false) (hpeer : sel.peerOnly withTasks p = false)
    (f : OpenFile) :
    sel.keepsRow withTasks p f = true ↔
      (∃ k, k ∈ sel.inheritedKinds withTasks p ∨ sel.fileTest f k = true) ∧
        (sel.andMode = true → ∀ k, sel.given k = true →
          k ∈ sel.inheritedKinds withTasks p ∨ sel.fileTest f k = true) := by
  rw [keepsRow, hgiven, hpeer]
  simp only [Bool.false_eq_true, if_false, acceptsKinds_iff, KindSet.mem_union, mem_fileKinds]

theorem keepsRow_of_unselected {f : OpenFile}
    (h : sel.specified.isEmpty = true) : sel.keepsRow withTasks p f = true := by
  simp [keepsRow, h]

end Selection

def listedRows (out : List Process) : List (Process × OpenFile) :=
  out.flatMap (fun p => p.files.map (fun f => (p.header, f)))

theorem mem_listedRows {out : List Process} {r : Process × OpenFile} :
    r ∈ listedRows out ↔ ∃ p ∈ out, r.1 = p.header ∧ r.2 ∈ p.files := by
  rcases r with ⟨h, f⟩
  simp only [listedRows, mem_flatMap, mem_map, Prod.mk.injEq]
  constructor
  · rintro ⟨p, hp, g, hg, rfl, rfl⟩
    exact ⟨p, hp, rfl, hg⟩
  · rintro ⟨p, hp, rfl, hf⟩
    exact ⟨p, hp, f, hf, rfl, rfl⟩

def gatheredRows (procs : List Process) : List (Process × OpenFile) :=
  procs.flatMap (fun p => p.files.map (fun f => (p, f)))

theorem Selection.listedRows_applyRows (sel : Selection) (procs : List Process) :
    listedRows (sel.applyRows procs) =
      ((gatheredRows procs).filter (fun r => sel.listsRow (pidsWithTasks procs) r.1 r.2)).map
          (fun r => (r.1.header, sel.nameRow r.2)) := by
  unfold applyRows
  generalize pidsWithTasks procs = withTasks
  induction procs with
  | nil => rfl
  | cons p procs ih =>
    have hhead : listedRows (sel.applyEntry withTasks p).toList =
        (p.files.filter (sel.listsRow withTasks p)).map
          (fun f => (p.header, sel.nameRow f)) := by
      cases hread : sel.readsEntry p with
      | false =>
        have hno : ∀ f ∈ p.files, ¬ sel.listsRow withTasks p f = true := by
          intro f _
          simp [listsRow, hread]
        rw [filter_eq_nil_iff.mpr hno]
        simp [applyEntry, hread, listedRows]
      | true =>
        have hkept := sel.keptRows_eq hread withTasks
        unfold applyEntry
        rw [hread]
        split
        · simp at *
        · split
          · rename_i hempty
            simp only [Bool.and_eq_true, List.isEmpty_iff] at hempty
            rw [hempty.1] at hkept
            have hnil := map_eq_nil_iff.mp hkept.symm
            simp [hnil, listedRows]
          · simp [listedRows, hkept, Process.header, Function.comp_def]
    have hcons : (p :: procs).filterMap (sel.applyEntry withTasks) =
        (sel.applyEntry withTasks p).toList ++ procs.filterMap (sel.applyEntry withTasks) := by
      cases h : sel.applyEntry withTasks p <;> simp [h]
    rw [hcons]
    simp only [listedRows, gatheredRows, flatMap_append, flatMap_cons, filter_append, map_append] at ih hhead ⊢
    rw [ih, hhead, filter_map, map_map]
    rfl

theorem Selection.mem_listedRows_applyRows (sel : Selection) {procs : List Process} {r : Process × OpenFile} :
    r ∈ listedRows (sel.applyRows procs) ↔
      ∃ p ∈ procs, sel.readsEntry p = true ∧ r.1 = p.header ∧ r.2 ∈ sel.keptRows (pidsWithTasks procs) p := by
  rw [mem_listedRows]
  constructor
  · rintro ⟨q, hq, hhead, hrow⟩
    obtain ⟨p, hp, happ⟩ := sel.mem_applyRows.mp hq
    obtain ⟨hread, _, rfl⟩ := sel.applyEntry_eq_some.mp happ
    exact ⟨p, hp, hread, hhead, hrow⟩
  · rintro ⟨p, hp, hread, hhead, hrow⟩
    refine ⟨{ p with files := sel.keptRows (pidsWithTasks procs) p }, ?_, hhead, hrow⟩
    refine sel.mem_applyRows.mpr ⟨p, hp, sel.applyEntry_eq_some.mpr ⟨hread, ?_, rfl⟩⟩
    exact Or.inl (ne_nil_of_mem hrow)

end Lsof.Core
