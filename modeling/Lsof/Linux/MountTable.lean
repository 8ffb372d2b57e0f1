import Lsof.Basis.Yielding
import Lsof.Linux.Mounts
import Lsof.Linux.SafeFs

/-! # The mount table

What is made of the kernel's lines, one after another: a mount that is skipped is
left out before anything is asked; its directory is spelt; a directory that has
been recorded is asked about no more; the directory is examined, once, and its
source is spelt. An exempt mount is recorded without being examined.
-/

namespace Lsof.Linux

open Lsof.Basis Lsof.Core List
open Lsof.Core.Readlink (slash)

inductive MountKind where
  | nfs
  | mqueue
  | regular
  deriving DecidableEq, Repr

structure ExemptMount where
  path : Bytes
  plus : Bool
  deriving DecidableEq, Repr

structure MountRecord where
  dir : Bytes
  device : Option UInt64
  sourceResolved : Option Bytes
  sourceIsBlock : Bool
  fsname : Bytes
  kind : MountKind
  deriving DecidableEq, Repr

def lowerByte (b : UInt8) : UInt8 := if 0x41 ≤ b ∧ b ≤ 0x5A then b + 0x20 else b

def eqIgnoreAsciiCase (a b : Bytes) : Bool := a.map lowerByte == b.map lowerByte

/-- Whether the mount is an automounter's, or of a type that is never looked at. -/
def skipped (line : MountLine) : Bool :=
  let automounter :=
    match line.source.dropWhile (· != 0x3A) with
    | [] => false
    | _ :: rest => 4 ≤ rest.length && eqIgnoreAsciiCase (rest.take 4) (Text.bytes "(pid".toList)
  automounter ||
    ["autofs".toList, "pipefs".toList, "sockfs".toList].any fun t => eqIgnoreAsciiCase line.fstype (Text.bytes t)

def isNfs (fstype : Bytes) : Bool :=
  ["nfs".toList, "nfs3".toList, "nfs4".toList].any fun t => eqIgnoreAsciiCase fstype (Text.bytes t)

def kindOf (fstype : Bytes) : MountKind :=
  if isNfs fstype then .nfs else if fstype == Text.bytes "mqueue".toList then .mqueue else .regular

/-- The line printed after a warning that the listing may lack something. -/
def INCOMPLETE : Text := "      Output information may be incomplete.".toList

/-- The table as it grows, and where in it each directory is. -/
structure MountTable where
  entries : List MountRecord := []
  hasNfs : Nat := 0
  mqueueDevice : Option UInt64 := none
  recorded : Bytes → Option Nat := fun _ => none

namespace MountTable

def noteNfs (table : MountTable) (nfs : Bool) : MountTable :=
  if nfs && table.hasNfs == 0 then { table with hasNfs := 1 } else table

/-- An entry in the place of the one it replaces, or at the end. -/
def put (table : MountTable) (duplicate : Option Nat) (entry : MountRecord) : MountTable :=
  let table := match entry.kind with
    | .nfs => { table with hasNfs := 2 }
    | .mqueue => { table with mqueueDevice := entry.device }
    | .regular => table
  match duplicate with
  | some i => { table with entries := table.entries.set i entry }
  | none =>
    { table with
      entries := table.entries ++ [entry]
      recorded := update table.recorded entry.dir table.entries.length }

end MountTable

section Resolving

variable {σ : Type} (exempts : List ExemptMount) (fs : SafeFs σ)

def exemptOf (line : MountLine) : Option ExemptMount := exempts.find? fun e => e.path == line.dir

def esc : Escaper := Escaper.forHost .linux

/-- The directory as it is spelt; none, and why, for one that is dropped. -/
def spellDir (line : MountLine) (run : FsRun σ) : Option Bytes × FsRun σ :=
  if (exemptOf exempts line).any (·.plus) then (some line.dir, run)
  else
    let spelt := fs.resolve line.dir run
    match spelt.1 with
    | .ok dir => (some dir, spelt.2)
    | .error e =>
      (none, if fs.warn then SafeFs.tell INCOMPLETE (SafeFs.tell ("lsof: ".toList ++ e.message (esc.bytes line.dir)) spelt.2)
        else spelt.2)

/-- The device of the directory, which an exempt mount has none of; none, and why,
for a directory that cannot be examined. -/
def statDir (line : MountLine) (dir : Bytes) (run : FsRun σ) : Option (Option UInt64) × FsRun σ :=
  if (exemptOf exempts line).isSome then (some none, run)
  else
    let stated := fs.stat dir run
    match stated.1 with
    | .ok st => (some (some st.dev), stated.2)
    | .error _ =>
      (none, if fs.warn then
          SafeFs.tell INCOMPLETE (SafeFs.tell ("lsof: WARNING: can't stat() ".toList ++ esc.bytes line.fstype ++
            " file system ".toList ++ esc.bytes dir) stated.2)
        else stated.2)

def source (line : MountLine) (run : FsRun σ) : (Option Bytes × Bool) × FsRun σ :=
  if (exemptOf exempts line).any (·.plus) || line.source.head? != some slash then ((some line.source, false), run)
  else
    let spelt := fs.resolve line.source run
    match spelt.1 with
    | .ok path =>
      if (exemptOf exempts line).isSome then ((some path, false), spelt.2)
      else
        let stated := fs.stat path spelt.2
        ((some path, match stated.1 with
          | .ok st => st.isBlockDevice
          | .error _ => false), stated.2)
    | .error e =>
      ((none, false), if fs.warn then SafeFs.tell ("lsof: ".toList ++ e.message (esc.bytes line.source)) spelt.2 else spelt.2)

def entryOf (line : MountLine) (dir : Bytes) (device : Option UInt64) (run : FsRun σ) : MountRecord × FsRun σ :=
  let src := source exempts fs line run
  ({ dir, device, sourceResolved := src.1.1, sourceIsBlock := src.1.2, fsname := line.source, kind := kindOf line.fstype }, src.2)

/-- Whether a row may take the place of the one recorded for its directory. -/
def replaces (table : MountTable) (dir : Bytes) (nfs : Bool) (i : Nat) : Bool :=
  dir == [slash] && table.entries[i]?.any (fun e => e.kind != .nfs) && nfs

def resolveLine (line : MountLine) (table : MountTable) (run : FsRun σ) : MountTable × FsRun σ :=
  if skipped line then (table, run)
  else
    let spelt := spellDir exempts fs line run
    match spelt.1 with
    | none => (table, spelt.2)
    | some dir =>
      if dir.head? != some slash then (table, spelt.2)
      else
        let nfs := isNfs line.fstype
        -- before the duplicate test: one dropped as a duplicate still counts
        let table := table.noteNfs nfs
        let duplicate := table.recorded dir
        if duplicate.any fun i => !replaces table dir nfs i then (table, spelt.2)
        else
          let stated := statDir exempts fs line dir spelt.2
          match stated.1 with
          | none => (table, stated.2)
          | some device =>
            let made := entryOf exempts fs line dir device stated.2
            (table.put duplicate made.1, made.2)

def resolveLines : List MountLine → MountTable → FsRun σ → MountTable × FsRun σ
  | [], table, run => (table, run)
  | line :: lines, table, run =>
    let next := resolveLine exempts fs line table run
    resolveLines lines next.1 next.2

/-- The table, with the index it is made by, and what was asked and said. -/
def resolveTable (lines : List MountLine) (run : FsRun σ) : MountTable × FsRun σ :=
  resolveLines exempts fs lines {} run

structure MountRow where
  line : MountLine
  entry : MountRecord

/-- What a line comes to when it is looked at to the end: a row if it is not skipped,
its directory is spelt from the root, and it is exempt or its directory can be
examined. -/
def look (line : MountLine) (run : FsRun σ) : Option MountRow :=
  if skipped line then none
  else
    let spelt := spellDir exempts fs line run
    match spelt.1 with
    | none => none
    | some dir =>
      if dir.head? != some slash then none
      else
        let stated := statDir exempts fs line dir spelt.2
        match stated.1 with
        | none => none
        | some device => some { line, entry := (entryOf exempts fs line dir device stated.2).1 }

/-- The rows among the lines, each looked at as the world is when its turn comes. -/
def rowsFrom : List MountLine → MountTable → FsRun σ → List MountRow
  | [], _, _ => []
  | line :: lines, table, run =>
    let next := resolveLine exempts fs line table run
    (look exempts fs line run).toList ++ rowsFrom lines next.1 next.2

def rows (lines : List MountLine) (run : FsRun σ) : List MountRow := rowsFrom exempts fs lines {} run

def MountRow.dir (row : MountRow) : Bytes := row.entry.dir

/-- A row of `/` that is not NFS gives way to one that is. -/
def givesWay (row later : MountRow) : Bool :=
  row.dir == [slash] && row.entry.kind != .nfs && later.entry.kind == .nfs

theorem givesWay_once (a b c : MountRow) (h : givesWay a b = true) : givesWay b c = false := by
  unfold givesWay at h ⊢
  simp only [Bool.and_eq_true, beq_iff_eq] at h
  rw [h.2]
  simp

def keptRows (rows : List MountRow) : List MountRow :=
  (firsts MountRow.dir rows).map (winner MountRow.dir givesWay rows)

variable {exempts fs}

structure MountTable.Holds (rows : List MountRow) (table : MountTable) : Prop where
  entries : table.entries = (rows.foldl (seat MountRow.dir givesWay) []).map MountRow.entry
  index : Indexed MountRow.dir (rows.foldl (seat MountRow.dir givesWay) []) table.recorded

theorem MountTable.Holds.nil : MountTable.Holds [] {} := ⟨rfl, Indexed.nil⟩

theorem MountTable.Holds.noteNfs {rows : List MountRow} {table : MountTable} (h : table.Holds rows) (nfs : Bool) :
    (table.noteNfs nfs).Holds rows := by
  unfold MountTable.noteNfs
  split
  · exact ⟨h.entries, h.index⟩
  · exact h

theorem MountTable.Holds.push {rows : List MountRow} {table : MountTable} (h : table.Holds rows) (row : MountRow)
    (hnew : table.recorded row.dir = none) : (table.put none row.entry).Holds (rows ++ [row]) := by
  have hseat : seat MountRow.dir givesWay (rows.foldl (seat MountRow.dir givesWay) []) row =
      rows.foldl (seat MountRow.dir givesWay) [] ++ [row] := by
    rw [seat, if_neg ((h.index.eq_none_iff row.dir).mp hnew)]
  have hlength : table.entries.length = (rows.foldl (seat MountRow.dir givesWay) []).length := by
    rw [h.entries, length_map]
  have hpush := h.index.push hnew
  rw [← hlength] at hpush
  constructor
  · rw [foldl_concat, hseat, map_append, ← h.entries]
    unfold MountTable.put
    cases row.entry.kind <;> rfl
  · rw [foldl_concat, hseat]
    unfold MountTable.put
    cases row.entry.kind <;> exact hpush

theorem seat_recorded {rows : List MountRow} {table : MountTable} (h : table.Holds rows) {row : MountRow} {i : Nat}
    (hi : table.recorded row.dir = some i) :
    seat MountRow.dir givesWay (rows.foldl (seat MountRow.dir givesWay) []) row =
      if replaces table row.dir (row.entry.kind == .nfs) i then
        (rows.foldl (seat MountRow.dir givesWay) []).set i row
      else rows.foldl (seat MountRow.dir givesWay) [] := by
  rcases (h.index _ _).mp hi with ⟨old, hold, hdir⟩
  have hentry : table.entries[i]? = some old.entry := by rw [h.entries, getElem?_map, hold, Option.map_some]
  have hgives : givesWay old row = replaces table row.dir (row.entry.kind == .nfs) i := by
    unfold givesWay replaces
    rw [hentry, hdir]
    rfl
  rw [h.index.seat_eq hi hold, hgives]

theorem MountTable.Holds.set {rows : List MountRow} {table : MountTable} (h : table.Holds rows) {row : MountRow} {i : Nat}
    (hi : table.recorded row.dir = some i) {nfs : Bool} (hkind : (row.entry.kind == .nfs) = nfs)
    (hreplaces : replaces table row.dir nfs i = true) : (table.put (some i) row.entry).Holds (rows ++ [row]) := by
  have hseat := seat_recorded h hi
  rw [hkind, if_pos hreplaces] at hseat
  constructor
  · rw [foldl_concat, hseat, map_set, ← h.entries]
    unfold MountTable.put
    cases row.entry.kind <;> rfl
  · rw [foldl_concat, hseat]
    unfold MountTable.put
    cases row.entry.kind <;> exact h.index.set hi

theorem MountTable.Holds.pass {rows : List MountRow} {table : MountTable} (h : table.Holds rows) {row : MountRow} {i : Nat}
    (hi : table.recorded row.dir = some i) {nfs : Bool} (hkind : (row.entry.kind == .nfs) = nfs)
    (hreplaces : replaces table row.dir nfs i = false) : table.Holds (rows ++ [row]) := by
  have hseat := seat_recorded h hi
  rw [hkind, if_neg (Bool.eq_false_iff.mp hreplaces)] at hseat
  constructor
  · rw [foldl_concat, hseat, h.entries]
  · rw [foldl_concat, hseat]
    exact h.index

theorem kindOf_eq_nfs (fstype : Bytes) : (kindOf fstype == .nfs) = isNfs fstype := by
  unfold kindOf
  cases isNfs fstype with
  | true => rfl
  | false =>
    rw [if_neg Bool.false_ne_true]
    split <;> rfl

theorem MountTable.Holds.append_none {rows : List MountRow} {table : MountTable} (h : table.Holds rows) :
    table.Holds (rows ++ (none : Option MountRow).toList) := by
  rw [Option.toList_none, append_nil]
  exact h

variable (exempts fs) in
theorem MountTable.Holds.resolveLine {rows : List MountRow} {table : MountTable} (h : table.Holds rows) (line : MountLine)
    (run : FsRun σ) :
    (Linux.resolveLine exempts fs line table run).1.Holds (rows ++ (look exempts fs line run).toList) := by
  have hkind := kindOf_eq_nfs line.fstype
  unfold Linux.resolveLine look
  by_cases hskip : skipped line = true
  · rw [if_pos hskip, if_pos hskip]
    exact h.append_none
  · rw [if_neg hskip, if_neg hskip]
    dsimp only
    cases (spellDir exempts fs line run).1 with
    | none => exact h.append_none
    | some dir =>
      by_cases hroot : (dir.head? != some slash) = true
      · simp only [if_pos hroot]
        exact h.append_none
      · have hnoted := h.noteNfs (isNfs line.fstype)
        simp only [if_neg hroot]
        cases hdup : (table.noteNfs (isNfs line.fstype)).recorded dir with
        | none =>
          rw [Option.any_none, if_neg Bool.false_ne_true]
          cases (statDir exempts fs line dir (spellDir exempts fs line run).2).1 with
          | none => exact hnoted.append_none
          | some device => exact hnoted.push _ hdup
        | some i =>
          rw [Option.any_some]
          cases hreplaces : replaces (table.noteNfs (isNfs line.fstype)) dir (isNfs line.fstype) i with
          | false =>
            -- what the examination would have said makes no difference
            rw [Bool.not_false, if_pos rfl]
            cases (statDir exempts fs line dir (spellDir exempts fs line run).2).1 with
            | none => exact hnoted.append_none
            | some device => exact hnoted.pass hdup hkind hreplaces
          | true =>
            rw [Bool.not_true, if_neg Bool.false_ne_true]
            cases (statDir exempts fs line dir (spellDir exempts fs line run).2).1 with
            | none => exact hnoted.append_none
            | some device => exact hnoted.set hdup hkind hreplaces

theorem MountTable.Holds.resolveLines {seen : List MountRow} {table : MountTable} (h : table.Holds seen)
    (lines : List MountLine) (run : FsRun σ) :
    (Linux.resolveLines exempts fs lines table run).1.Holds (seen ++ rowsFrom exempts fs lines table run) := by
  induction lines generalizing seen table run with
  | nil =>
    rw [rowsFrom, append_nil]
    exact h
  | cons line lines ih =>
    have hnext := ih (h.resolveLine exempts fs line run) (Linux.resolveLine exempts fs line table run).2
    rw [append_assoc] at hnext
    exact hnext

theorem look_spec {line : MountLine} {run : FsRun σ} {row : MountRow} (h : look exempts fs line run = some row) :
    row.line = line ∧ row.dir.head? = some slash ∧
      (row.entry.device = none ↔ (exemptOf exempts line).isSome = true) := by
  unfold look at h
  split at h
  next => exact absurd h nofun
  next =>
    dsimp only at h
    split at h
    next => exact absurd h nofun
    next dir hdir =>
      split at h
      next => exact absurd h nofun
      next hroot =>
        split at h
        next => exact absurd h nofun
        next device hdevice =>
          rw [← Option.some.inj h]
          have hhead : dir.head? = some slash := by simpa using hroot
          have hexempt : device = none ↔ (exemptOf exempts line).isSome = true := by
            unfold statDir at hdevice
            split at hdevice
            next hsome =>
              rw [← Option.some.inj hdevice]
              simp [hsome]
            next hnone =>
              dsimp only at hdevice
              split at hdevice
              next =>
                rw [← Option.some.inj hdevice]
                simp [hnone]
              next => exact absurd hdevice nofun
          exact ⟨rfl, hhead, hexempt⟩

theorem rowsFrom_spec {lines : List MountLine} {table : MountTable} {run : FsRun σ} {row : MountRow}
    (h : row ∈ rowsFrom exempts fs lines table run) :
    row.line ∈ lines ∧ row.dir.head? = some slash ∧
      (row.entry.device = none ↔ (exemptOf exempts row.line).isSome = true) := by
  induction lines generalizing table run with
  | nil => exact absurd h not_mem_nil
  | cons line lines ih =>
    rw [rowsFrom, mem_append, Option.mem_toList] at h
    rcases h with hlook | hrest
    · have hspec := look_spec hlook
      rw [hspec.1]
      exact ⟨mem_cons_self, hspec.2⟩
    · have hspec := ih hrest
      exact ⟨mem_cons_of_mem line hspec.1, hspec.2⟩

theorem isSome_exemptOf (line : MountLine) :
    (exemptOf exempts line).isSome = true ↔ ∃ e ∈ exempts, e.path = line.dir := by
  rw [exemptOf, find?_isSome]
  simp

variable (exempts fs)

/-- The entries are the kept rows, one for each directory in the order the directories
were first recorded, and the index has each at its own place. A device is missing
where the row's line is exempt, and nowhere else. -/
theorem resolveTable_wellFormed (lines : List MountLine) (run : FsRun σ) :
    (resolveTable exempts fs lines run).1.entries = (keptRows (rows exempts fs lines run)).map MountRow.entry ∧
    (resolveTable exempts fs lines run).1.entries.map MountRecord.dir =
      (firsts MountRow.dir (rows exempts fs lines run)).map MountRow.dir ∧
    ((resolveTable exempts fs lines run).1.entries.map MountRecord.dir).Nodup ∧
    (∀ e ∈ (resolveTable exempts fs lines run).1.entries, e.dir.head? = some slash) ∧
    (∀ dir i, (resolveTable exempts fs lines run).1.recorded dir = some i ↔
      ∃ e, (resolveTable exempts fs lines run).1.entries[i]? = some e ∧ e.dir = dir) ∧
    ∀ row ∈ rows exempts fs lines run, row.line ∈ lines ∧
      (row.entry.device = none ↔ ∃ e ∈ exempts, e.path = row.line.dir) := by
  have hholds : (resolveTable exempts fs lines run).1.Holds (rows exempts fs lines run) :=
    MountTable.Holds.nil.resolveLines lines run
  have hkept : (rows exempts fs lines run).foldl (seat MountRow.dir givesWay) [] = keptRows (rows exempts fs lines run) :=
    foldl_seat MountRow.dir givesWay_once _
  have hentries := hholds.entries
  have hindex := hholds.index
  rw [hkept] at hentries hindex
  have hdirs : (resolveTable exempts fs lines run).1.entries.map MountRecord.dir =
      (keptRows (rows exempts fs lines run)).map MountRow.dir := by
    rw [hentries, map_map]
    rfl
  have hfirsts : (keptRows (rows exempts fs lines run)).map MountRow.dir =
      (firsts MountRow.dir (rows exempts fs lines run)).map MountRow.dir := map_name_winner _ _ _ _
  refine ⟨hentries, hdirs.trans hfirsts, ?_, ?_, ?_, ?_⟩
  · rw [hdirs]
    exact hindex.nodup
  · intro e he
    have hmem : e.dir ∈ (firsts MountRow.dir (rows exempts fs lines run)).map MountRow.dir := by
      rw [← hfirsts, ← hdirs]
      exact mem_map_of_mem he
    rw [mem_map_firsts_iff, mem_map] at hmem
    rcases hmem with ⟨row, hrow, hdir⟩
    rw [← hdir]
    exact (rowsFrom_spec hrow).2.1
  · intro dir i
    rw [hindex, hentries]
    constructor
    · intro hrow
      rcases hrow with ⟨row, hrow, hdir⟩
      exact ⟨row.entry, by rw [getElem?_map, hrow, Option.map_some], hdir⟩
    · intro hentry
      rcases hentry with ⟨e, he, hdir⟩
      rw [getElem?_map] at he
      rcases Option.map_eq_some_iff.mp he with ⟨row, hrow, heq⟩
      exact ⟨row, hrow, (congrArg MountRecord.dir heq).trans hdir⟩
  · intro row hrow
    have hspec := rowsFrom_spec hrow
    exact ⟨hspec.1, hspec.2.2.trans (isSome_exemptOf row.line)⟩

end Resolving

end Lsof.Linux
