import Lsof.Core.Selection

/-! # Entering the path arguments

What `main` makes of the path arguments once they have been examined: the sets
`path_matches` asks, and the list of items a `PathIndex` is built from. The two
are filled side by side, and on a backend that identifies files a row is
selected by a path exactly when the index finds it an item.
-/

namespace Lsof.Cli

open Lsof.Basis Lsof.Core List

/-- A bare path argument, examined: as typed, as `Readlink` spelt it, the file
systems it names, and what its `stat` said: `none` an error, `some none` a file
the backend gives no identity. -/
structure PathArg where
  typed : Bytes
  path : Bytes
  devs : List (BitVec 64) := []
  stat : Option (Option FileId)
  deriving DecidableEq, Repr

/-- A `+d` or `+D` directory, or an entry of one, examined. -/
structure DirEntry where
  path : Bytes
  id : Option FileId
  spelled : Option Bytes := none
  deriving DecidableEq, Repr

def enterEntry (sel : Selection) (e : DirEntry) : Selection :=
  let item : PathItem := { id := e.id, name := e.path, spelled := e.spelled }
  match e.id with
  | some id => { sel with
      pathIds := id :: sel.pathIds
      pathNames := e.path :: sel.pathNames
      pathItems := sel.pathItems ++ [item] }
  | none => { sel with pathItems := sel.pathItems ++ [item] }

/-- Enter a bare path; `forced` is `+f`, which promised a file system. -/
def enterArg (forced : Bool) (sel : Selection) (a : PathArg) : Selection :=
  let name := if sel.pathsIdentified then a.typed else a.path
  if !a.devs.isEmpty then
    { sel with
      pathNames := a.typed :: sel.pathNames
      pathFsDevices := a.devs ++ sel.pathFsDevices
      pathItems := sel.pathItems ++ a.devs.map (fun dev => { fsDevice := some dev, name }) }
  else if forced then sel
  else if !sel.pathsIdentified then
    { sel with pathItems := sel.pathItems ++ [{ name }] }
  else
    match a.stat with
    | some (some id) =>
      let spelled := if a.path != name then some a.path else none
      { sel with
        pathIds := id :: sel.pathIds
        pathNames := a.typed :: sel.pathNames
        pathItems := sel.pathItems ++ [{ id := some id, name, spelled }] }
    | some none => { sel with pathItems := sel.pathItems ++ [{ name }] }
    | none => sel

/-- Every `+d` and `+D` first, then the bare paths. -/
def enterPaths (forced : Bool) (sel : Selection) (entries : List DirEntry) (args : List PathArg) :
    Selection :=
  args.foldl (enterArg forced) (entries.foldl enterEntry sel)

/-- What the parse leaves: nothing entered yet, on a backend that identifies files. -/
structure Unentered (sel : Selection) : Prop where
  identified : sel.pathsIdentified = true
  ids : sel.pathIds = []
  names : sel.pathNames = []
  devices : sel.pathFsDevices = []
  items : sel.pathItems = []

def Keyed (item : PathItem) : Prop := item.id.isSome = true ∨ item.fsDevice.isSome = true

structure Agree (ids : List FileId) (devices : List (BitVec 64)) (names : List Bytes)
    (items : List PathItem) : Prop where
  ids : ∀ id, id ∈ ids ↔ ∃ item ∈ items, item.idKey = some id
  devices : ∀ dev, dev ∈ devices ↔ ∃ item ∈ items, item.fsDevice = some dev
  names : ∀ name, name ∈ names ↔ ∃ item ∈ items, Keyed item ∧ item.name = name

structure Entered (sel : Selection) : Prop where
  identified : sel.pathsIdentified = true
  agree : Agree sel.pathIds sel.pathFsDevices sel.pathNames sel.pathItems

variable {sel : Selection}

theorem Unentered.entered (h : Unentered sel) : Entered sel := by
  refine ⟨h.identified, ?_⟩
  rw [h.ids, h.devices, h.names, h.items]
  constructor <;> simp

section Agree

variable {ids : List FileId} {devices : List (BitVec 64)} {names : List Bytes}
  {items : List PathItem}

theorem exists_mem_concat {α : Type} {P : α → Prop} {xs : List α} {x : α} :
    (∃ a ∈ xs ++ [x], P a) ↔ (∃ a ∈ xs, P a) ∨ P x := by
  simp [or_and_right, exists_or]

theorem Agree.file (h : Agree ids devices names items) (id : FileId) (name : Bytes) (spelled : Option Bytes) :
    Agree (id :: ids) devices (name :: names) (items ++ [{ id := some id, name, spelled }]) where
  ids := by
    intro id'
    rw [exists_mem_concat, mem_cons, h.ids, or_comm]
    exact or_congr_right (by simpa [PathItem.idKey] using eq_comm)
  devices := by
    intro dev
    rw [exists_mem_concat, h.devices]
    simp
  names := by
    intro name'
    rw [exists_mem_concat, mem_cons, h.names, or_comm]
    exact or_congr_right (by simpa [Keyed] using eq_comm)

theorem Agree.nameOnly (h : Agree ids devices names items) (name : Bytes) (spelled : Option Bytes) :
    Agree ids devices names (items ++ [{ name := name, spelled := spelled }]) where
  ids := by
    intro id
    rw [exists_mem_concat, h.ids]
    simp [PathItem.idKey]
  devices := by
    intro dev
    rw [exists_mem_concat, h.devices]
    simp
  names := by
    intro name'
    rw [exists_mem_concat, h.names]
    simp [Keyed]

theorem Agree.fileSystems (h : Agree ids devices names items) (name : Bytes)
    {devs : List (BitVec 64)} (hdevs : devs ≠ []) :
    Agree ids (devs ++ devices) (name :: names) (items ++ devs.map (fun dev => { fsDevice := some dev, name })) where
  ids := by
    intro id
    simp [h.ids, or_and_right, exists_or, PathItem.idKey]
  devices := by
    intro dev
    simp [h.devices, or_and_right, exists_or, or_comm]
  names := by
    intro name'
    obtain ⟨dev, hdev⟩ := exists_mem_of_ne_nil _ hdevs
    rw [mem_cons, h.names]
    constructor
    · rintro (rfl | ⟨item, hm, hitem⟩)
      · exact ⟨{ fsDevice := some dev, name := name' },
          mem_append_right _ (mem_map.mpr ⟨dev, hdev, rfl⟩), Or.inr rfl, rfl⟩
      · exact ⟨item, mem_append_left _ hm, hitem⟩
    · rintro ⟨item, hm, hitem⟩
      rcases mem_append.mp hm with hm | hm
      · exact Or.inr ⟨item, hm, hitem⟩
      · obtain ⟨_, _, rfl⟩ := mem_map.mp hm
        exact Or.inl hitem.2.symm

end Agree

theorem Entered.enterEntry (h : Entered sel) (e : DirEntry) : Entered (enterEntry sel e) := by
  unfold Cli.enterEntry
  dsimp only
  cases hid : e.id with
  | some id => exact ⟨h.identified, h.agree.file id e.path e.spelled⟩
  | none => exact ⟨h.identified, h.agree.nameOnly e.path e.spelled⟩

theorem Entered.enterArg (h : Entered sel) (forced : Bool) (a : PathArg) : Entered (enterArg forced sel a) := by
  have hname : (if sel.pathsIdentified = true then a.typed else a.path) = a.typed :=
    if_pos h.identified
  unfold Cli.enterArg
  rw [hname]
  split
  · rename_i hdevs
    exact ⟨h.identified, h.agree.fileSystems a.typed (by simpa using hdevs)⟩
  · split
    · exact h
    · split
      · exact ⟨h.identified, h.agree.nameOnly a.typed none⟩
      · split
        · exact ⟨h.identified, h.agree.file _ a.typed _⟩
        · exact ⟨h.identified, h.agree.nameOnly a.typed none⟩
        · exact h

theorem Entered.enterPaths (h : Entered sel) (forced : Bool) (entries : List DirEntry) (args : List PathArg) :
    Entered (enterPaths forced sel entries args) := by
  have hentries : Entered (entries.foldl Cli.enterEntry sel) := by
    induction entries generalizing sel with
    | nil => exact h
    | cons e entries ih => exact ih (h.enterEntry e)
  unfold Cli.enterPaths
  generalize entries.foldl Cli.enterEntry sel = sel' at hentries
  induction args generalizing sel' with
  | nil => exact hentries
  | cons a args ih => exact ih _ (hentries.enterArg forced a)

theorem searchedFsDevice_of_bound {f : OpenFile} {b : BoundPath} (h : f.boundPath = some b) :
    f.searchedFsDevice = none := by
  have hsocket : f.isSocket = true := by
    unfold OpenFile.boundPath at h
    cases hs : f.socket with
    | none => simp [hs] at h
    | some s => simp [OpenFile.isSocket, hs]
  simp [OpenFile.searchedFsDevice, hsocket]

theorem Entered.pathMatches_iff (h : Entered sel) (hkeyed : ∀ item ∈ sel.pathItems, Keyed item) (f : OpenFile) :
    sel.pathMatches f = true ↔ ((PathIndex.new sel.pathItems true).bound f).isSome = true := by
  have hid : ∀ id, ((PathIndex.new sel.pathItems true).byIdentity id).isSome = true ↔
      id ∈ sel.pathIds := fun id => (PathIndex.byIdentity_isSome _ _ id).trans (h.agree.ids id).symm
  have hfs : ∀ dev, ((PathIndex.new sel.pathItems true).byFileSystem dev).isSome = true ↔
      dev ∈ sel.pathFsDevices :=
    fun dev => (PathIndex.byFileSystem_isSome _ _ dev).trans (h.agree.devices dev).symm
  have hname : ∀ path, ((PathIndex.new sel.pathItems true).byTypedName path).isSome = true ↔
      path ∈ sel.pathNames := by
    intro path
    rw [PathIndex.byTypedName_isSome, h.agree.names]
    exact ⟨fun ⟨item, hm, hn⟩ => ⟨item, hm, hkeyed item hm, hn⟩, fun ⟨item, hm, _, hn⟩ => ⟨item, hm, hn⟩⟩
  generalize PathIndex.new sel.pathItems true = ix at hid hfs hname
  unfold Selection.pathMatches PathIndex.bound
  cases hexempt : f.isExempt with
  | true => simp
  | false =>
    simp only [h.identified, Bool.false_eq_true, if_false, if_true]
    cases hbound : f.boundPath with
    | some b =>
      have hdev := searchedFsDevice_of_bound hbound
      have hfile : f.fileId = none := by simp [OpenFile.fileId, hdev]
      simp only [hdev, hfile, Option.any_none, Bool.and_false, Bool.false_eq_true, if_false,
        Option.any_some, Bool.or_eq_true, Option.any_eq_true, contains_iff_mem]
      cases hb : b.id.bind ix.byIdentity with
      | some i =>
        obtain ⟨id, hbid, hi⟩ := Option.bind_eq_some_iff.mp hb
        have hmem := (hid id).mp (by rw [hi]; rfl)
        exact iff_of_true (Or.inl ⟨id, hbid, hmem⟩) rfl
      | none =>
        have hno : ¬ ∃ id, b.id = some id ∧ id ∈ sel.pathIds := by
          rintro ⟨id, hbid, hmem⟩
          have hsome := (hid id).mpr hmem
          rw [hbid, Option.bind_some] at hb
          rw [hb] at hsome
          cases hsome
        cases hpath : b.path with
        | none => simpa [hpath] using hno
        | some path => simp [hno, hname]
    | none =>
      simp only [Option.any_none, Bool.if_false_right, Bool.and_true]
      cases hf : f.fileId.bind ix.byIdentity with
      | some i =>
        obtain ⟨id, hfid, hi⟩ := Option.bind_eq_some_iff.mp hf
        have hmem := (hid id).mp (by rw [hi]; rfl)
        simp [hfid, hmem]
      | none =>
        have hno : f.fileId.any (fun id => sel.pathIds.contains id) = false := by
          cases hfid : f.fileId with
          | none => rfl
          | some id =>
            rw [hfid, Option.bind_some] at hf
            have hnot : id ∉ sel.pathIds := fun hmem => by
              have hsome := (hid id).mpr hmem
              rw [hf] at hsome
              cases hsome
            simpa using hnot
        rw [hno]
        cases hdev : f.searchedFsDevice with
        | none => simp
        | some dev =>
          have hmem := hfs dev
          simp only [Option.any_some, Option.bind_some, hmem]
          by_cases hd : dev ∈ sel.pathFsDevices
          · simp [hd, ne_nil_of_mem hd]
          · simp [hd]

/-- Selecting by path and binding to a path item agree, for the arguments of any
run whose items all carry an identity or a file system. -/
theorem pathMatches_enterPaths (forced : Bool) (sel : Selection) (h : Unentered sel)
    (entries : List DirEntry) (args : List PathArg)
    (hkeyed : ∀ item ∈ (enterPaths forced sel entries args).pathItems, Keyed item) (f : OpenFile) :
    (enterPaths forced sel entries args).pathMatches f = true ↔
      ((PathIndex.new (enterPaths forced sel entries args).pathItems true).bound f).isSome = true :=
  (h.entered.enterPaths forced entries args).pathMatches_iff hkeyed f

/-- A run on a backend that identifies files, before its arguments are entered. -/
def identifying : Selection := { pathsIdentified := true }

/-- `+d d` with one entry, and the path of a mounted file system. -/
def dirEntries : List DirEntry :=
  [{ path := [100], id := some { dev := 1, ino := 2 } },
    { path := [100, 47, 102], id := some { dev := 1, ino := 3 } }]

def mountArg : List PathArg := [{ typed := [109], path := [109], devs := [7], stat := none }]

theorem pathMatches_enterPaths_dirEntries :
    (∀ item ∈ (enterPaths false identifying dirEntries mountArg).pathItems, Keyed item) ∧
      ∀ f : OpenFile, (enterPaths false identifying dirEntries mountArg).pathMatches f = true ↔
        ((PathIndex.new (enterPaths false identifying dirEntries mountArg).pathItems true).bound
          f).isSome = true := by
  have hkeyed : ∀ item ∈ (enterPaths false identifying dirEntries mountArg).pathItems,
      Keyed item := by
    unfold Keyed
    decide
  exact ⟨hkeyed, pathMatches_enterPaths false identifying ⟨rfl, rfl, rfl, rfl, rfl⟩ dirEntries mountArg hkeyed⟩

end Lsof.Cli
