import Lsof.Listing.Spelling

/-! # Spelling where the core names the other ends

With `-E` and `+E` done in the core a listed row is also given the holders of
its other ends, and the rows those are on are listed with it. Which object a
row is an end of is read from its name for one kind of row only, an eventfd.
Where the spellings agree on that, clearing the bases commutes with every step
that adds an end or merges a row.
-/

namespace Lsof.Core

open Lsof.Basis List

section Merging

theorem map_modify {α β : Type} {f : α → α} {g : β → β} {c : α → β}
    (h : ∀ a, c (f a) = g (c a)) (l : List α) (i : Nat) : (l.modify i f).map c = (l.map c).modify i g := by
  induction l generalizing i with
  | nil => simp
  | cons a l ih =>
    cases i with
    | zero => simp [h]
    | succ i => simp [ih]

variable {clear : OpenFile → OpenFile}

theorem insertRow_map (hfd : ∀ f, (clear f).fd = f.fd) (files : List OpenFile) (f : OpenFile) :
    (insertRow files f).map clear = insertRow (files.map clear) (clear f) := by
  unfold insertRow
  dsimp only
  rw [map_insertIdx, findIdx?_map, length_map, hfd]
  simp only [Function.comp_def, hfd]

theorem foldl_insertRow_map (hfd : ∀ f, (clear f).fd = f.fd) (rows files : List OpenFile) :
    (rows.foldl insertRow files).map clear = (rows.map clear).foldl insertRow (files.map clear) := by
  induction rows generalizing files with
  | nil => rfl
  | cons f rows ih =>
    rw [foldl_cons, ih, insertRow_map hfd]
    rfl

theorem mergeEntry_map (hfd : ∀ f, (clear f).fd = f.fd) (out : List Process) (c : Process) :
    (mergeEntry out c).map (Process.mapFiles clear) =
      mergeEntry (out.map (Process.mapFiles clear)) (Process.mapFiles clear c) := by
  have hfind : (out.map (Process.mapFiles clear)).findIdx?
      (fun p => p.pid == (Process.mapFiles clear c).pid && p.tid == (Process.mapFiles clear c).tid) =
      out.findIdx? (fun p => p.pid == c.pid && p.tid == c.tid) := by
    rw [findIdx?_map]
    rfl
  have hafter : (out.map (Process.mapFiles clear)).findIdx? (fun p => entryAfter p (Process.mapFiles clear c)) =
      out.findIdx? (fun p => entryAfter p c) := by
    rw [findIdx?_map]
    rfl
  unfold mergeEntry
  rw [hfind, hafter]
  cases out.findIdx? (fun p => p.pid == c.pid && p.tid == c.tid) with
  | none =>
    dsimp only
    rw [map_insertIdx, length_map]
  | some i =>
    dsimp only
    apply map_modify
    intro p
    simp only [Process.mapFiles, foldl_insertRow_map hfd]

theorem addForced_clear (hfd : ∀ f, (clear f).fd = f.fd) (host : Host) (index : Index)
    (forced shown : List RowKey) {out out' : List Process}
    (h : out.map (Process.mapFiles clear) = out'.map (Process.mapFiles clear)) (c : Process) :
    (addForced host index forced shown out c).map (Process.mapFiles clear) =
      (addForced host index forced shown out' c).map (Process.mapFiles clear) := by
  unfold addForced
  dsimp only
  split
  · exact h
  · rw [mergeEntry_map hfd, mergeEntry_map hfd, h]

theorem foldl_addForced_clear (hfd : ∀ f, (clear f).fd = f.fd) (host : Host) (index : Index)
    (forced shown : List RowKey) (cands : List Process) {out out' : List Process}
    (h : out.map (Process.mapFiles clear) = out'.map (Process.mapFiles clear)) :
    (cands.foldl (addForced host index forced shown) out).map (Process.mapFiles clear) =
      (cands.foldl (addForced host index forced shown) out').map (Process.mapFiles clear) := by
  induction cands generalizing out out' with
  | nil => exact h
  | cons c cands ih => exact ih (addForced_clear hfd host index forced shown h c)

theorem flatMap_rowKeys_clear (hfd : ∀ f, (clear f).fd = f.fd) (out : List Process) :
    (out.map (Process.mapFiles clear)).flatMap rowKeys = out.flatMap rowKeys := by
  have hkeys : ∀ p, rowKeys (Process.mapFiles clear p) = rowKeys p := by
    intro p
    simp [rowKeys, Process.mapFiles, hfd]
  simp only [flatMap_map, hkeys]

end Merging

variable {f g : OpenFile}

theorem rowKey_of_unnamed (h : f.unnamed = g.unnamed) (hevent : eventfdId f = eventfdId g) (tables : EndpointTables)
    (mqueueDevice : Option (BitVec 64)) (p : Process) :
    rowKey tables mqueueDevice p f = rowKey tables mqueueDevice p g := by
  have hother : namedKey mqueueDevice f = namedKey mqueueDevice g := by
    unfold namedKey
    rw [hevent, eq_named_of_unnamed h]
  unfold rowKey
  rw [hother, eq_named_of_unnamed h]

theorem ends_of_unnamed (h : f.unnamed = g.unnamed)
    (hevent : eventfdId f = eventfdId g) (index : Index) (p : Process) (forced : Bool) :
    index.ends p f forced = index.ends p g forced := by
  have hfd : f.fd = g.fd := by rw [eq_named_of_unnamed h]
  have hkey : index.key p f = index.key p g := rowKey_of_unnamed h hevent _ _ p
  have hends : ∀ k side, index.endsOf k side p f forced = index.endsOf k side p g forced := by
    intro k side
    unfold Index.endsOf Index.otherHolders
    rw [hfd]
  unfold Index.ends
  rw [hkey]
  simp only [hends]

theorem addPieces_twins (h : f.Twins g) (host : Host)
    (pieces : List Index.Piece) : (addPieces host f pieces).Twins (addPieces host g pieces) := by
  induction pieces generalizing f g with
  | nil => exact h
  | cons piece pieces ih => exact ih (h.addPrintedAddition host piece.text)

namespace Selection

variable {sel : Selection} {items : List PathItem}

theorem clearLocated_fd (f : OpenFile) : (sel.clearLocated f).fd = f.fd := by
  rw [eq_named_of_unnamed (clearLocated_unnamed f)]

/-- Both spellings of every item that names an anonymous inode say the same of
the eventfd it is. -/
def EventsAgree (sel : Selection) (items : List PathItem) (procs : List Process) : Prop :=
  ∀ p ∈ procs, ∀ f ∈ p.files, f.fileType = .other "a_inode".toList →
    ∀ item item', sel.locatedItem f = some item → (sel.respell items).locatedItem f = some item' →
      eventfdIdOf (Utf8.decodeLossy item.rowBytes) = eventfdIdOf (Utf8.decodeLossy item'.rowBytes)

variable {procs : List Process}

theorem EventsAgree.eventfdId (ha : sel.EventsAgree items procs)
    (h : sel.Respells items) (hs : PathItem.Spellable sel.pathItems)
    (hs' : PathItem.Spellable items) {p : Process} (hp : p ∈ procs) {f : OpenFile} (hf : f ∈ p.files) :
    eventfdId ((sel.respell items).nameRow f) = eventfdId (sel.nameRow f) := by
  have hlocated := h.located f
  cases hitem : sel.locatedItem f with
  | none =>
    rcases h.nameRow hs hs' f with ⟨_, hsame⟩ | ⟨hsome, _⟩
    · rw [hsame]
    · rw [hitem] at hsome
      cases hsome
  | some item =>
    rw [hitem, Option.isSome_some] at hlocated
    obtain ⟨item', hitem'⟩ := Option.isSome_iff_exists.mp hlocated
    have htype : (sel.nameRow f).fileType = f.fileType := by
      rw [eq_named_of_unnamed (sel.nameRow_unnamed f)]
    have htype' : ((sel.respell items).nameRow f).fileType = f.fileType := by
      rw [eq_named_of_unnamed ((sel.respell items).nameRow_unnamed f)]
    unfold Core.eventfdId
    rw [htype, htype', baseName_nameRow hs hitem, baseName_nameRow hs' hitem']
    by_cases hanon : f.fileType = .other "a_inode".toList
    · simp [hanon, ha p hp f hf hanon item item' hitem hitem']
    · rw [if_pos (bne_iff_ne.mpr hanon), if_pos (bne_iff_ne.mpr hanon)]

theorem clearLocated_annotateRow (ha : sel.EventsAgree items procs)
    (h : sel.Respells items) (hs : PathItem.Spellable sel.pathItems)
    (hs' : PathItem.Spellable items) {q : Process} (hq : q ∈ procs) {f : OpenFile}
    (hf : f ∈ q.files) (host : Host) (index : Index) (p : Process) :
    sel.clearLocated (annotateRow host index p false ((sel.respell items).nameRow f)) =
      sel.clearLocated (annotateRow host index p false (sel.nameRow f)) := by
  have hcells : ((sel.respell items).nameRow f).unnamed = (sel.nameRow f).unnamed := by
    rw [nameRow_unnamed, nameRow_unnamed]
  have hends := ends_of_unnamed hcells (ha.eventfdId h hs hs' hq hf) index p.header false
  unfold annotateRow
  rw [hends]
  rcases h.nameRow hs hs' f with ⟨_, hsame⟩ | ⟨hsome, htwins⟩
  · rw [hsame]
  · have hclear : ∀ g, g.unnamed = f.unnamed → ∀ pieces,
        sel.clearLocated (addPieces host g pieces) = (addPieces host g pieces).clearBase := by
      intro g hg pieces
      have hitem : sel.locatedItem (addPieces host g pieces) = sel.locatedItem f :=
        locatedItem_of_unnamed ((addPieces_unnamed host g pieces).trans hg)
      rw [Selection.clearLocated, hitem, hsome, if_pos rfl]
    rw [hclear _ ((sel.respell items).nameRow_unnamed f), hclear _ (sel.nameRow_unnamed f)]
    exact (addPieces_twins htwins host _).clearBase.symm

theorem mem_of_mem_keptEntries {p : Process}
    (hp : p ∈ sel.keptEntries procs) : ∃ q ∈ procs, ∀ f ∈ p.files, f ∈ q.files := by
  obtain ⟨q, hq, hkept⟩ := mem_filterMap.mp hp
  refine ⟨q, hq, ?_⟩
  unfold keptEntry at hkept
  dsimp only at hkept
  split at hkept
  · cases hkept
  · split at hkept
    · cases hkept
    · cases hkept
      intro f hf
      exact (mem_filter.mp hf).1

theorem annotate_clear (ha : sel.EventsAgree items procs)
    (h : sel.Respells items) (hs : PathItem.Spellable sel.pathItems)
    (hs' : PathItem.Spellable items) (host : Host) (index : Index) (cands : Option (List Process)) :
    sel.SameListing (annotate host index ((sel.keptEntries procs).map sel.nameEntry) cands)
      (annotate host index ((sel.keptEntries procs).map (sel.respell items).nameEntry) cands) := by
  have hforced : forcedKeys index ((sel.keptEntries procs).map (sel.respell items).nameEntry) =
      forcedKeys index ((sel.keptEntries procs).map sel.nameEntry) := by
    unfold forcedKeys
    rw [flatMap_map, flatMap_map]
    apply flatMap_congr
    intro p hp
    obtain ⟨q, hq, hfiles⟩ := mem_of_mem_keptEntries hp
    simp only [nameEntry, Process.mapFiles, flatMap_map]
    apply flatMap_congr
    intro f hf
    have hcells : ((sel.respell items).nameRow f).unnamed = (sel.nameRow f).unnamed := by
      rw [nameRow_unnamed, nameRow_unnamed]
    have hends := ends_of_unnamed hcells (ha.eventfdId h hs hs' hq (hfiles f hf)) index
    simp only [hends]
    rfl
  have hnamed : (((sel.keptEntries procs).map sel.nameEntry).map
        (annotateEntry host index false)).map sel.clearEntry =
      (((sel.keptEntries procs).map (sel.respell items).nameEntry).map
        (annotateEntry host index false)).map sel.clearEntry := by
    rw [map_map, map_map, map_map, map_map]
    apply map_congr_left
    intro p hp
    obtain ⟨q, hq, hfiles⟩ := mem_of_mem_keptEntries hp
    simp only [Function.comp_apply, clearEntry, annotateEntry, nameEntry, Process.mapFiles, map_map]
    congr 1
    apply map_congr_left
    intro f hf
    exact (clearLocated_annotateRow ha h hs hs' hq (hfiles f hf) host index _).symm
  have hshown := congrArg (List.flatMap rowKeys) hnamed
  simp only [clearEntry, flatMap_rowKeys_clear clearLocated_fd] at hshown
  unfold annotate SameListing
  dsimp only
  rw [hforced]
  cases cands with
  | none => exact hnamed
  | some cands =>
    dsimp only
    split
    · exact hnamed
    · rw [hshown]
      exact foldl_addForced_clear clearLocated_fd host index _ _ cands hnamed

/-- `lsof -a -N f` in a directory of an NFS mount at `/n`. -/
def relativeNfs : Selection where
  andMode := true
  nfsOnly := true
  hasNfs := 2
  nfsMounts := [{ dir := [47, 110], device := some 1 }]
  pathsIdentified := true
  paths := [[102]]
  pathIds := [{ dev := 1, ino := 5 }]
  pathNames := [[102]]
  pathItems := [{ id := some { dev := 1, ino := 5 }, name := [102] }]

/-- The same item, its rows named `/n/f`. -/
def absoluteSpelling : List PathItem :=
  [{ id := some { dev := 1, ino := 5 }, name := [102], spelled := some [47, 110, 47, 102] }]

/-- A process that holds `/n/f`. -/
def nfsHolder : List Process :=
  [{ pid := 1, files := [{ fd := .handle 3, fileType := .regular, name := "/n/f".toList,
                           fsDevice := some 1, node := some "5".toList }] }]

end Selection

end Lsof.Core
