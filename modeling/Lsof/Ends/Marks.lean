import Lsof.Basis.Placing
import Lsof.Ends.Rows

/-! # A gathered list with its selection marked

The gathered list is marked row by row with what was selected. What `+E` shows
and what it adds are then read off the marks, and where no row shares an end's
FD, naming the ends and adding the rows they name is one pass over the marks.
-/

namespace Lsof.Ends

open Lsof.Basis Lsof.Core List

/-- An entry of the gathered list, each of its rows with whether it is selected,
and whether the entry is listed even with no row. -/
structure Marked where
  entry : Process
  rows : List (OpenFile × Bool)
  kept : Bool := false
  deriving DecidableEq, Repr

def withRows (p : Process) (files : List OpenFile) : Process := { p with files }

namespace Marked

def gathered (m : Marked) : Process := withRows m.entry (m.rows.map Prod.fst)

def listing (m : Marked) (files : List OpenFile) : Option Process :=
  if m.kept || !files.isEmpty then some (withRows m.entry files) else none

def selectedRow (row : OpenFile × Bool) : Option OpenFile := if row.2 then some row.1 else none

def selected (m : Marked) : Option Process := m.listing (m.rows.filterMap selectedRow)

def slot (m : Marked) : Nat × Option Nat := (m.entry.pid, m.entry.tid)

variable (host : Host) (index : Index) (named : List RowKey)

/-- A row that is an end, and one that a selected row names. -/
def isNamed (m : Marked) (f : OpenFile) : Bool :=
  (index.key m.entry f).isSome && named.contains (m.entry.pid, m.entry.tid, f.fd)

def shownRow (m : Marked) (row : OpenFile × Bool) : Option OpenFile :=
  if row.2 then some (annotateRow host index m.entry false row.1) else none

def addedRow (m : Marked) (row : OpenFile × Bool) : Option OpenFile :=
  if !row.2 && m.isNamed index named row.1 then some (annotateRow host index m.entry true row.1)
  else none

def shown (m : Marked) : Option Process := m.listing (m.rows.filterMap (m.shownRow host index))

def added (m : Marked) : List OpenFile := m.rows.filterMap (m.addedRow host index named)

def outcome (m : Marked) : Option Process :=
  m.listing (m.rows.filterMap (either (m.shownRow host index) (m.addedRow host index named)))

def addEntry (out : List Process) (m : Marked) : List Process :=
  if (m.added host index named).isEmpty then out
  else mergeEntry out (withRows m.entry (m.added host index named))

def Apart (m : Marked) (a b : OpenFile × Bool) : Prop :=
  (index.key m.entry a.1).isSome = true ∨ (index.key m.entry b.1).isSome = true → a.1.fd ≠ b.1.fd

instance (m : Marked) : DecidableRel (m.Apart index) := fun a b =>
  inferInstanceAs (Decidable ((index.key m.entry a.1).isSome = true ∨
    (index.key m.entry b.1).isSome = true → a.1.fd ≠ b.1.fd))

instance (m : Marked) : Std.Symm (m.Apart index) where
  symm _ _ h hkey hfd := h hkey.symm hfd.symm

/-- No other row of the entry has the FD of a row that is an end. -/
def Unshared (m : Marked) : Prop := m.rows.Pairwise (m.Apart index)

instance (m : Marked) : Decidable (m.Unshared index) :=
  inferInstanceAs (Decidable (m.rows.Pairwise (m.Apart index)))

end Marked

variable {host : Host} {index : Index}

theorem annotateRow_fd (p : Process) (forced : Bool) (f : OpenFile) :
    (annotateRow host index p forced f).fd = f.fd := by
  have h := addPieces_unnamed host f (index.ends p.header f forced)
  have hfd : (addPieces host f (index.ends p.header f forced)).unnamed.fd = f.unnamed.fd := by rw [h]
  exact hfd

theorem rowKeys_annotateEntry (forced : Bool) (p : Process) :
    rowKeys (annotateEntry host index forced p) = rowKeys p := by
  simp only [rowKeys, annotateEntry, map_map]
  exact map_congr_left fun f _ => by simp [annotateRow_fd]

variable {m : Marked}

theorem Marked.listing_eq_some {files : List OpenFile} {p : Process}
    (h : m.listing files = some p) : p = withRows m.entry files := by
  unfold Marked.listing at h
  split at h
  · exact (Option.some.inj h).symm
  · cases h

variable {marks : List Marked}

theorem mem_rowKeys_selected {k : RowKey} :
    k ∈ (marks.filterMap Marked.selected).flatMap rowKeys ↔
      ∃ m ∈ marks, ∃ row ∈ m.rows, row.2 = true ∧ (m.entry.pid, m.entry.tid, row.1.fd) = k := by
  have hrows : ∀ (m : Marked) (f : OpenFile), f ∈ m.rows.filterMap Marked.selectedRow ↔
      ∃ row ∈ m.rows, row.2 = true ∧ row.1 = f := by
    intro m f
    simp [Marked.selectedRow, mem_filterMap]
  constructor
  · intro h
    obtain ⟨p, hp, hk⟩ := mem_flatMap.mp h
    obtain ⟨m, hm, hmp⟩ := mem_filterMap.mp hp
    rw [Marked.listing_eq_some hmp] at hk
    obtain ⟨f, hf, hfk⟩ := mem_map.mp hk
    obtain ⟨row, hrow, hsel, hrf⟩ := (hrows m f).mp hf
    exact ⟨m, hm, row, hrow, hsel, hrf ▸ hfk⟩
  · intro ⟨m, hm, row, hrow, hsel, hk⟩
    have hf : row.1 ∈ m.rows.filterMap Marked.selectedRow := (hrows m _).mpr ⟨row, hrow, hsel, rfl⟩
    have hsome : m.selected = some (withRows m.entry (m.rows.filterMap Marked.selectedRow)) := by
      unfold Marked.selected Marked.listing
      rw [if_pos]
      simp [ne_nil_of_mem hf]
    exact mem_flatMap.mpr ⟨_, mem_filterMap.mpr ⟨m, hm, hsome⟩, mem_map.mpr ⟨row.1, hf, hk⟩⟩

theorem Marked.Unshared.eq (h : m.Unshared index) {a b : OpenFile × Bool}
    (ha : a ∈ m.rows) (hb : b ∈ m.rows) (hkey : (index.key m.entry a.1).isSome = true)
    (hfd : a.1.fd = b.1.fd) : a = b := by
  by_contra hne
  exact h.forall ha hb hne (Or.inl hkey) hfd

theorem contains_shown (hslot : (marks.map Marked.slot).Nodup)
    (hm : m ∈ marks) (hunshared : m.Unshared index) {row : OpenFile × Bool}
    (hrow : row ∈ m.rows) (hkey : (index.key m.entry row.1).isSome = true) :
    ((marks.filterMap Marked.selected).flatMap rowKeys).contains (m.entry.pid, m.entry.tid, row.1.fd) = row.2 := by
  rw [Bool.eq_iff_iff, contains_iff_mem, mem_rowKeys_selected]
  constructor
  · intro ⟨m', hm', row', hrow', hsel, hk⟩
    simp only [Prod.mk.injEq] at hk
    have hmm : m' = m :=
      inj_on_of_nodup_map hslot hm' hm (Prod.ext hk.1 hk.2.1)
    subst hmm
    have hsame := hunshared.eq hrow hrow' hkey hk.2.2.symm
    exact hsame ▸ hsel
  · intro hsel
    exact ⟨m, hm, row, hrow, hsel, rfl⟩

theorem Marked.listing_map (m : Marked) (forced : Bool) (files : List OpenFile) :
    (m.listing files).map (annotateEntry host index forced) =
      m.listing (files.map (annotateRow host index m.entry forced)) := by
  unfold Marked.listing
  rw [isEmpty_map]
  split <;> rfl

theorem map_annotateEntry_selected (marks : List Marked) :
    (marks.filterMap Marked.selected).map (annotateEntry host index false) =
      marks.filterMap (Marked.shown host index) := by
  rw [map_filterMap]
  refine filterMap_congr fun m _ => ?_
  rw [Marked.selected, Marked.listing_map, map_filterMap, Marked.shown]
  congr 2
  funext row
  unfold Marked.selectedRow Marked.shownRow
  split <;> rfl

theorem flatMap_rowKeys_shown (marks : List Marked) :
    (marks.filterMap (Marked.shown host index)).flatMap rowKeys =
      (marks.filterMap Marked.selected).flatMap rowKeys := by
  rw [← map_annotateEntry_selected, flatMap_map]
  simp only [rowKeys_annotateEntry]

theorem added_eq {named keys : List RowKey} (m : Marked) {rows : List (OpenFile × Bool)}
    (hshown : ∀ row ∈ rows, (index.key m.entry row.1).isSome = true →
      keys.contains (m.entry.pid, m.entry.tid, row.1.fd) = row.2) :
    (((rows.map Prod.fst).filter (fun f => (index.key m.entry f).isSome)).filter (fun f =>
        named.contains (m.entry.pid, m.entry.tid, f.fd) &&
          !keys.contains (m.entry.pid, m.entry.tid, f.fd))).map
        (annotateRow host index m.entry true) = rows.filterMap (m.addedRow host index named) := by
  induction rows with
  | nil => rfl
  | cons row rows ih =>
    have hrest := ih fun r hr => hshown r (mem_cons_of_mem row hr)
    have hrow := hshown row (mem_cons_self ..)
    rw [map_cons, filter_cons]
    by_cases hkey : (index.key m.entry row.1).isSome = true
    · rw [if_pos hkey, filter_cons, hrow hkey]
      by_cases hadd : (named.contains (m.entry.pid, m.entry.tid, row.1.fd) && !row.2) = true
      · have hsome : m.addedRow host index named row =
            some (annotateRow host index m.entry true row.1) := by
          unfold Marked.addedRow Marked.isNamed
          rw [hkey, Bool.true_and, Bool.and_comm, if_pos hadd]
        rw [if_pos hadd, map_cons, hrest, filterMap_cons_some hsome]
      · have hnone : m.addedRow host index named row = none := by
          unfold Marked.addedRow Marked.isNamed
          rw [hkey, Bool.true_and, Bool.and_comm, if_neg hadd]
        rw [if_neg hadd, hrest, filterMap_cons_none hnone]
    · have hnone : m.addedRow host index named row = none := by
        simp [Marked.addedRow, Marked.isNamed, hkey]
      rw [if_neg hkey, hrest, filterMap_cons_none hnone]

theorem addForced_gathered {named keys : List RowKey}
    (hshown : ∀ row ∈ m.rows, (index.key m.entry row.1).isSome = true →
      keys.contains (m.entry.pid, m.entry.tid, row.1.fd) = row.2) (out : List Process) :
    addForced host index named keys out { m.gathered with
        files := m.gathered.files.filter (fun f => (index.key m.gathered f).isSome) } =
      m.addEntry host index named out := by
  have hadded := @added_eq host index named keys m m.rows hshown
  unfold addForced Marked.addEntry Marked.added
  rw [← hadded, isEmpty_map]
  rfl

theorem annotate_eq_foldl (hslot : (marks.map Marked.slot).Nodup) (hunshared : ∀ m ∈ marks, m.Unshared index) :
    annotate host index (marks.filterMap Marked.selected) (some (candidates index (marks.map Marked.gathered))) =
      marks.foldl (fun out m => m.addEntry host index (forcedKeys index (marks.filterMap Marked.selected)) out)
        (marks.filterMap (Marked.shown host index)) := by
  unfold annotate
  dsimp only
  rw [map_annotateEntry_selected]
  split
  case isTrue hnone =>
    have hnil : forcedKeys index (marks.filterMap Marked.selected) = [] := List.isEmpty_iff.mp hnone
    rw [foldl_fixed' fun m => ?_]
    simp [Marked.addEntry, Marked.added, Marked.addedRow, Marked.isNamed, hnil]
  case isFalse =>
    rw [candidates, foldl_filter, foldl_map, foldl_map]
    refine foldl_ext _ _ _ fun out m hm => ?_
    rw [← addForced_gathered fun row hrow hkey =>
      contains_shown hslot hm (hunshared m hm) hrow hkey, flatMap_rowKeys_shown]
    split
    case isTrue => rfl
    case isFalse hempty =>
      -- an entry with no end is no candidate, and would add nothing
      have hnil : m.gathered.files.filter (fun f => (index.key m.gathered f).isSome) = [] := by
        simpa using hempty
      rw [addForced, hnil]
      rfl

end Lsof.Ends
