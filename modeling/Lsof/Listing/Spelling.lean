import Lsof.Core.Endpoints

/-! # How a path argument is spelled

A row that a path argument locates is named by that argument before its kinds
are asked. Two selections that differ only in the spelling of their path items
are run side by side: every row that one lists and the other does not is one
whose new name decided what `-N` said of it. The listings are compared with the
base part of NAME cleared on the rows a path item locates.
-/

namespace Lsof.Core

open Lsof.Basis List

namespace PathItem

def unspelled (item : PathItem) : PathItem := { item with spelled := none }

def rowBytes (item : PathItem) : Bytes := item.spelled.getD item.name

/-- A row name a path can have: not empty, and no longer than the kernel takes. -/
def Spellable (items : List PathItem) : Prop :=
  ∀ item ∈ items, item.fsDevice = none → item.rowBytes ≠ [] ∧ item.rowBytes.length ≤ 4096

theorem fits_of_spellable {items : List PathItem} (h : Spellable items) {item : PathItem}
    (hmem : item ∈ items) (hfs : item.fsDevice = none) :
    Utf8.decodeLossy item.rowBytes ≠ [] ∧ (Utf8.decodeLossy item.rowBytes).byteLen < 32767 := by
  obtain ⟨hne, hlen⟩ := h item hmem hfs
  have hbytes := Utf8.decodeLossy_byteLen_le item.rowBytes
  refine ⟨fun hnil => hne (Utf8.decodeLossy_eq_nil.mp hnil), ?_⟩
  omega

end PathItem

def Process.mapFiles (change : OpenFile → OpenFile) (p : Process) : Process :=
  { p with files := p.files.map change }

theorem PathIndex.new_unspelled (items : List PathItem) (identified : Bool) :
    PathIndex.new (items.map PathItem.unspelled) identified = PathIndex.new items identified := by
  unfold PathIndex.new
  rw [zipIdx_map, foldl_map]
  rfl

namespace Selection

def respell (sel : Selection) (items : List PathItem) : Selection := { sel with pathItems := items }

/-- Path items that differ from the selection's in nothing but how they are spelled. -/
def Respells (sel : Selection) (items : List PathItem) : Prop :=
  items.map PathItem.unspelled = sel.pathItems.map PathItem.unspelled

/-- The item whose name a row takes. A file system gives none, a socket takes none. -/
def locatedItem (sel : Selection) (f : OpenFile) : Option PathItem :=
  if sel.pathsIdentified && !f.isSocket then
    (((PathIndex.new sel.pathItems true).bound f).bind (fun i => sel.pathItems[i]?)).filter
      (fun item => item.fsDevice.isNone)
  else none

/-- A row of a listing, with the base of its name cleared if a path item gave it. -/
def clearLocated (sel : Selection) (f : OpenFile) : OpenFile :=
  if (sel.locatedItem f).isSome then f.clearBase else f

def clearEntry (sel : Selection) : Process → Process := Process.mapFiles sel.clearLocated

/-- The same entries in the same order with the same rows in the same order,
but for the base part of NAME on rows a path item located. -/
def SameListing (sel : Selection) (out out' : List Process) : Prop :=
  out.map sel.clearEntry = out'.map sel.clearEntry

section Located

variable {sel : Selection}

theorem nameRow_eq (f : OpenFile) :
    sel.nameRow f = match sel.locatedItem f with
      | some item => f.setBaseName (Utf8.decodeLossy item.rowBytes)
      | none => f := by
  by_cases hid : sel.pathsIdentified = true
  · by_cases hitems : sel.pathItems = []
    · have hnaming : sel.naming = none := by simp [naming, hitems]
      rw [nameRow, hnaming]
      simp [locatedItem, hitems]
    · have hnaming : sel.naming = some (PathIndex.new sel.pathItems true) := by
        simp [naming, hid, hitems]
      rw [nameRow, hnaming]
      unfold renameLocated locatedItem
      dsimp only
      cases hs : f.isSocket with
      | true => simp
      | false =>
        simp only [hid, Bool.false_eq_true, if_false, Bool.not_false, Bool.and_self, if_true]
        cases ((PathIndex.new sel.pathItems true).bound f).bind (fun i => sel.pathItems[i]?) with
        | none => rfl
        | some item =>
          cases hfs : item.fsDevice <;>
            simp [PathItem.rowName, PathItem.rowBytes, Option.filter, hfs]
  · have hnaming : sel.naming = none := by simp [naming, hid]
    rw [nameRow, hnaming]
    simp [locatedItem, hid]

theorem mem_of_locatedItem {f : OpenFile} {item : PathItem}
    (h : sel.locatedItem f = some item) : item ∈ sel.pathItems ∧ item.fsDevice = none := by
  unfold locatedItem at h
  split at h
  · rw [Option.filter_eq_some_iff] at h
    obtain ⟨i, _, hi⟩ := Option.bind_eq_some_iff.mp h.1
    exact ⟨mem_of_getElem? hi, by simpa using h.2⟩
  · cases h

theorem locatedItem_of_unnamed {f g : OpenFile} (h : f.unnamed = g.unnamed) :
    sel.locatedItem f = sel.locatedItem g := by
  rw [eq_named_of_unnamed h]
  rfl

theorem locatedItem_nameRow (f : OpenFile) : sel.locatedItem (sel.nameRow f) = sel.locatedItem f :=
  locatedItem_of_unnamed (sel.nameRow_unnamed f)

theorem baseName_nameRow (hs : PathItem.Spellable sel.pathItems) {f : OpenFile} {item : PathItem}
    (hitem : sel.locatedItem f = some item) : (sel.nameRow f).baseName = some (Utf8.decodeLossy item.rowBytes) := by
  obtain ⟨hmem, hfs⟩ := mem_of_locatedItem hitem
  obtain ⟨hne, hfit⟩ := PathItem.fits_of_spellable hs hmem hfs
  rw [nameRow_eq, hitem]
  have htext := (f.setBaseName_hasParts hne hfit).baseText
  simp [OpenFile.baseName, htext, hne]

end Located

section Respelling

variable {sel : Selection} {items : List PathItem}

theorem Respells.symm (h : sel.Respells items) : (sel.respell items).Respells sel.pathItems :=
  Eq.symm h

theorem Respells.locatedItem (h : sel.Respells items) (f : OpenFile) :
    ((sel.respell items).locatedItem f).map PathItem.unspelled = (sel.locatedItem f).map PathItem.unspelled := by
  have hix : PathIndex.new items true = PathIndex.new sel.pathItems true := by
    rw [← PathIndex.new_unspelled items, h, PathIndex.new_unspelled]
  have hget : ∀ i : Nat,
      items[i]?.map PathItem.unspelled = sel.pathItems[i]?.map PathItem.unspelled := by
    intro i
    rw [← getElem?_map, ← getElem?_map, h]
  unfold Selection.locatedItem respell
  dsimp only
  rw [hix]
  split
  · cases (PathIndex.new sel.pathItems true).bound f with
    | none => rfl
    | some i =>
      have hi := hget i
      cases hitem : items[i]? with
      | none =>
        rw [hitem] at hi
        cases hold : sel.pathItems[i]? with
        | none => simp [hitem, hold]
        | some old => simp [hold] at hi
      | some new =>
        rw [hitem] at hi
        cases hold : sel.pathItems[i]? with
        | none => simp [hold] at hi
        | some old =>
          rw [hold, Option.map_some, Option.map_some, Option.some.injEq] at hi
          have hfs : new.fsDevice = old.fsDevice := by
            show new.unspelled.fsDevice = old.unspelled.fsDevice
            rw [hi]
          cases hdev : old.fsDevice with
          | none => simp [hitem, hold, Option.filter, hfs, hdev, hi]
          | some dev => simp [hitem, hold, Option.filter, hfs, hdev]
  · rfl

theorem Respells.located (h : sel.Respells items) (f : OpenFile) :
    ((sel.respell items).locatedItem f).isSome = (sel.locatedItem f).isSome := by
  have hsame := congrArg Option.isSome (h.locatedItem f)
  simpa using hsame

theorem Respells.clearLocated (h : sel.Respells items) : (sel.respell items).clearLocated = sel.clearLocated := by
  funext f
  unfold Selection.clearLocated
  rw [h.located]

theorem Respells.nameRow (h : sel.Respells items) (hs : PathItem.Spellable sel.pathItems)
    (hs' : PathItem.Spellable items) (f : OpenFile) :
    (sel.locatedItem f = none ∧ (sel.respell items).nameRow f = sel.nameRow f) ∨
      ((sel.locatedItem f).isSome = true ∧ OpenFile.Twins (sel.nameRow f) ((sel.respell items).nameRow f)) := by
  have hlocated := h.located f
  rw [nameRow_eq, nameRow_eq]
  cases hitem : sel.locatedItem f with
  | none =>
    rw [hitem, Option.isSome_none, Option.isSome_eq_false_iff, Option.isNone_iff_eq_none]
      at hlocated
    exact Or.inl ⟨rfl, by rw [hlocated]⟩
  | some item =>
    rw [hitem, Option.isSome_some] at hlocated
    obtain ⟨item', hitem'⟩ := Option.isSome_iff_exists.mp hlocated
    rw [hitem']
    obtain ⟨hmem, hfs⟩ := mem_of_locatedItem hitem
    obtain ⟨hmem', hfs'⟩ := mem_of_locatedItem hitem'
    exact Or.inr ⟨rfl, OpenFile.setBaseName_twins f (PathItem.fits_of_spellable hs hmem hfs)
      (PathItem.fits_of_spellable hs' hmem' hfs')⟩

end Respelling

section Deciding

variable {sel : Selection} {withTasks : List Nat} {p : Process}

/-- What the kinds other than `-N` say of a row: under `-a` that each one given
was met, under the OR that some kind was. -/
def Others (sel : Selection) (withTasks : List Nat) (p : Process) (f : OpenFile) : Prop :=
  if sel.andMode = true then
    ∀ k, k ≠ .nfs → sel.given k = true →
      k ∈ sel.inheritedKinds withTasks p ∨ sel.fileTest f k = true
  else ∃ k, k ≠ .nfs ∧ (k ∈ sel.inheritedKinds withTasks p ∨ sel.fileTest f k = true)

theorem others_of_unnamed {f g : OpenFile} (hid : sel.pathsIdentified = true)
    (h : g.unnamed = f.unnamed) : sel.Others withTasks p g ↔ sel.Others withTasks p f := by
  have htest : ∀ k, k ≠ .nfs → sel.fileTest g k = sel.fileTest f k :=
    fun k hk => sel.fileTest_of_unnamed h ⟨hk, fun _ => hid⟩
  unfold Others
  split
  · refine forall_congr' fun k => forall_congr' fun hk => ?_
    rw [htest k hk]
  · refine exists_congr fun k => and_congr_right fun hk => ?_
    rw [htest k hk]

theorem nfs_not_inherited : SelKind.nfs ∉ sel.inheritedKinds withTasks p := by
  unfold inheritedKinds
  split
  · simp
  · simp [mem_entryKinds, procTest]

theorem keepsRow_iff_nfs (hnfs : sel.nfsOnly = true) (hpeer : sel.peerOnly withTasks p = false) (f : OpenFile) :
    sel.keepsRow withTasks p f = true ↔
      if sel.andMode = true then sel.isNfsFile f = true ∧ sel.Others withTasks p f
      else sel.isNfsFile f = true ∨ sel.Others withTasks p f := by
  have hgiven : sel.given .nfs = true := hnfs
  have hspec : sel.specified.isEmpty = false :=
    KindSet.isEmpty_eq_false_iff.mpr ⟨.nfs, sel.mem_specified.mpr hgiven⟩
  have htest : sel.fileTest f .nfs = sel.isNfsFile f := by simp [fileTest, hnfs]
  have hnot : SelKind.nfs ∉ sel.inheritedKinds withTasks p := nfs_not_inherited
  rw [keepsRow_iff _ hspec hpeer]
  unfold Others
  cases hand : sel.andMode with
  | true =>
    simp only [if_true, forall_true_left]
    constructor
    · rintro ⟨_, hall⟩
      have hself := (hall .nfs hgiven).resolve_left hnot
      exact ⟨htest ▸ hself, fun k _ hk => hall k hk⟩
    · rintro ⟨hself, hrest⟩
      refine ⟨⟨.nfs, Or.inr (htest.trans hself)⟩, fun k hk => ?_⟩
      by_cases hkn : k = .nfs
      · exact Or.inr (by rw [hkn, htest, hself])
      · exact hrest k hkn hk
  | false =>
    simp only [Bool.false_eq_true, if_false, false_implies, and_true]
    constructor
    · rintro ⟨k, hk⟩
      by_cases hkn : k = .nfs
      · rw [hkn] at hk
        exact Or.inl (htest ▸ hk.resolve_left hnot)
      · exact Or.inr ⟨k, hkn, hk⟩
    · rintro (hself | ⟨k, _, hk⟩)
      · exact ⟨.nfs, Or.inr (htest.trans hself)⟩
      · exact ⟨k, hk⟩

theorem keepsRow_of_unnamed {f g : OpenFile} (hid : sel.pathsIdentified = true) (h : g.unnamed = f.unnamed)
    (hnfs : sel.nfsOnly = true → sel.isNfsFile g = sel.isNfsFile f) :
    sel.keepsRow withTasks p g = sel.keepsRow withTasks p f := by
  have hkinds : sel.fileKinds g = sel.fileKinds f := by
    apply KindSet.bits_inj
    intro k
    rw [mem_fileKinds, mem_fileKinds]
    by_cases hk : k = .nfs
    · subst hk
      cases hn : sel.nfsOnly with
      | false => simp [fileTest, hn]
      | true => simp [fileTest, hn, hnfs hn]
    · rw [sel.fileTest_of_unnamed h ⟨hk, fun _ => hid⟩]
  have htype : g.fileType = f.fileType := by rw [eq_named_of_unnamed h]
  unfold keepsRow
  rw [hkinds, htype]

/-- Whether `-N` takes a row on a device for one of an NFS mount under a name. -/
def nfsUnder (sel : Selection) (dev : BitVec 64) (f : OpenFile) (name : Bytes) : Bool :=
  isReglr f && (sel.nfsMountOf dev (Utf8.decodeLossy name).bytes).isSome

theorem isNfsFile_nameRow (hs : PathItem.Spellable sel.pathItems) {f : OpenFile} {item : PathItem}
    (hitem : sel.locatedItem f = some item) :
    sel.isNfsFile (sel.nameRow f) = match f.fsDevice.filter (fun _ => !f.isExempt) with
      | none => false
      | some dev =>
        if sel.nfsMounts.isEmpty then sel.nfsDevices.contains dev
        else sel.nfsUnder dev f item.rowBytes := by
  unfold isNfsFile nfsUnder
  rw [baseName_nameRow hs hitem, eq_named_of_unnamed (sel.nameRow_unnamed f)]
  rfl

/-- A row whose listing its spelling decides: one a path item names, that is on
an NFS mount under one of the two names only, of a run that asks for NFS files
and where nothing else lists the row, or under `-a` nothing else rejects it. -/
structure NameDecides (sel : Selection) (items : List PathItem) (withTasks : List Nat)
    (p : Process) (f : OpenFile) : Prop where
  nfs : sel.nfsOnly = true
  mounts : sel.nfsMounts ≠ []
  read : sel.readsEntry p = true
  admitted : sel.stateMatches f = true
  direct : sel.peerOnly withTasks p = false
  differs : ∃ item item' dev, sel.locatedItem f = some item ∧
    (sel.respell items).locatedItem f = some item' ∧ f.fsDevice = some dev ∧
    sel.nfsUnder dev f item.rowBytes ≠ sel.nfsUnder dev f item'.rowBytes
  others : sel.Others withTasks p f ↔ sel.andMode = true

theorem not_exempt_of_located {f : OpenFile} {item : PathItem}
    (h : sel.locatedItem f = some item) : f.isExempt = false := by
  by_contra hexempt
  rw [Bool.not_eq_false] at hexempt
  simp [locatedItem, PathIndex.bound, hexempt] at h

theorem isNfsFile_ne_iff {items : List PathItem} (h : sel.Respells items)
    (hs : PathItem.Spellable sel.pathItems) (hs' : PathItem.Spellable items) (f : OpenFile) :
    sel.isNfsFile (sel.nameRow f) ≠ sel.isNfsFile ((sel.respell items).nameRow f) ↔
      sel.nfsMounts ≠ [] ∧ ∃ item item' dev, sel.locatedItem f = some item ∧
        (sel.respell items).locatedItem f = some item' ∧ f.fsDevice = some dev ∧
        sel.nfsUnder dev f item.rowBytes ≠ sel.nfsUnder dev f item'.rowBytes := by
  have hlocated := h.located f
  cases hitem : sel.locatedItem f with
  | none =>
    rcases h.nameRow hs hs' f with ⟨_, hsame⟩ | ⟨hsome, _⟩
    · simp [hsame]
    · rw [hitem] at hsome
      cases hsome
  | some item =>
    rw [hitem, Option.isSome_some] at hlocated
    obtain ⟨item', hitem'⟩ := Option.isSome_iff_exists.mp hlocated
    have hleft := isNfsFile_nameRow hs hitem
    have hright : (sel.respell items).isNfsFile ((sel.respell items).nameRow f) = _ :=
      isNfsFile_nameRow hs' hitem'
    change sel.isNfsFile _ = _ at hright
    rw [hleft, hright, not_exempt_of_located hitem]
    cases hdev : f.fsDevice with
    | none => simp
    | some dev =>
      have hunder : (sel.respell items).nfsUnder = sel.nfsUnder := rfl
      by_cases hm : sel.nfsMounts = []
      · simp [hm, respell]
      · have hm' : (sel.respell items).nfsMounts ≠ [] := hm
        simp [hm, hm', hitem', hunder, Option.filter]

theorem listsRow_ne_iff {items : List PathItem} (hid : sel.pathsIdentified = true)
    (h : sel.Respells items) (hs : PathItem.Spellable sel.pathItems) (hs' : PathItem.Spellable items) (f : OpenFile) :
    sel.listsRow withTasks p f ≠ (sel.respell items).listsRow withTasks p f ↔
      sel.NameDecides items withTasks p f := by
  have hcells : (sel.nameRow f).unnamed = f.unnamed := sel.nameRow_unnamed f
  have hcells' : ((sel.respell items).nameRow f).unnamed = f.unnamed :=
    (sel.respell items).nameRow_unnamed f
  have hlists : (sel.respell items).listsRow withTasks p f =
      (sel.readsEntry p && sel.stateMatches f && sel.keepsRow withTasks p ((sel.respell items).nameRow f)) := rfl
  rw [hlists, listsRow]
  constructor
  · intro hne
    have hread : sel.readsEntry p = true := by
      by_contra hno
      rw [Bool.not_eq_true] at hno
      exact hne (by simp [hno])
    have hstate : sel.stateMatches f = true := by
      by_contra hno
      rw [Bool.not_eq_true] at hno
      exact hne (by simp [hno])
    simp only [hread, hstate, Bool.true_and] at hne
    have hanswers : sel.nfsOnly = true ∧ sel.isNfsFile (sel.nameRow f) ≠
        sel.isNfsFile ((sel.respell items).nameRow f) := by
      by_contra hno
      rw [not_and, not_ne_iff] at hno
      exact hne (keepsRow_of_unnamed hid (hcells.trans hcells'.symm) hno)
    have hpeer : sel.peerOnly withTasks p = false := by
      by_contra hno
      rw [Bool.not_eq_false] at hno
      have htype : (sel.nameRow f).fileType = ((sel.respell items).nameRow f).fileType := by
        rw [eq_named_of_unnamed (hcells.trans hcells'.symm)]
      exact hne (by simp only [keepsRow, hno, if_true, htype])
    obtain ⟨hmounts, hdiffers⟩ := (isNfsFile_ne_iff h hs hs' f).mp hanswers.2
    refine ⟨hanswers.1, hmounts, hread, hstate, hpeer, hdiffers, ?_⟩
    rw [ne_eq, Bool.eq_iff_iff, keepsRow_iff_nfs hanswers.1 hpeer, keepsRow_iff_nfs hanswers.1 hpeer,
      others_of_unnamed hid hcells, others_of_unnamed hid hcells'] at hne
    -- Where the others settle it alone, what `-N` says makes no difference.
    cases hand : sel.andMode with
    | true =>
      simp only [hand, if_true] at hne
      tauto
    | false =>
      simp only [hand, Bool.false_eq_true, if_false] at hne
      simp only [Bool.false_eq_true, iff_false]
      tauto
  · intro hd
    have hanswers := (isNfsFile_ne_iff h hs hs' f).mpr ⟨hd.mounts, hd.differs⟩
    have hothers := hd.others
    simp only [hd.read, hd.admitted, Bool.true_and]
    rw [ne_eq, Bool.eq_iff_iff, keepsRow_iff_nfs hd.nfs hd.direct, keepsRow_iff_nfs hd.nfs hd.direct,
      others_of_unnamed hid hcells, others_of_unnamed hid hcells']
    rw [ne_eq, Bool.eq_iff_iff] at hanswers
    cases hand : sel.andMode with
    | true =>
      simp only [hand, iff_true] at hothers
      simpa only [if_true, hothers, and_true] using hanswers
    | false =>
      simp only [hand, Bool.false_eq_true, iff_false] at hothers
      simpa only [Bool.false_eq_true, if_false, hothers, or_false] using hanswers

end Deciding

section Listings

variable {sel : Selection} {items : List PathItem} {withTasks : List Nat}

/-- An entry of the output before its rows are named. -/
def keptEntry (sel : Selection) (withTasks : List Nat) (p : Process) : Option Process :=
  let files := p.files.filter (sel.listsRow withTasks p)
  if !sel.readsEntry p then none
  else if files.isEmpty && !sel.bareLine withTasks p then none
  else some { p with files := files }

def nameEntry (sel : Selection) : Process → Process := Process.mapFiles sel.nameRow

/-- What the run keeps of its input, before it names anything. -/
def keptEntries (sel : Selection) (procs : List Process) : List Process :=
  procs.filterMap (sel.keptEntry (pidsWithTasks procs))

theorem applyRows_eq_map (procs : List Process) :
    sel.applyRows procs = (sel.keptEntries procs).map sel.nameEntry := by
  unfold applyRows keptEntries
  rw [map_filterMap]
  apply filterMap_congr
  intro p _
  unfold applyEntry keptEntry
  cases hread : sel.readsEntry p with
  | false => rfl
  | true =>
    rw [sel.keptRows_eq hread]
    cases hfiles : p.files.filter (sel.listsRow (pidsWithTasks procs) p) with
    | nil => cases sel.bareLine (pidsWithTasks procs) p <;>
        simp [nameEntry, Process.mapFiles]
    | cons f files => simp [nameEntry, Process.mapFiles]

variable {procs : List Process}

theorem keptEntries_respell (h : ∀ p ∈ procs, ∀ f ∈ p.files, sel.listsRow (pidsWithTasks procs) p f =
      (sel.respell items).listsRow (pidsWithTasks procs) p f) :
    (sel.respell items).keptEntries procs = sel.keptEntries procs := by
  apply filterMap_congr
  intro p hp
  have hfilter := filter_congr fun f hf => h p hp f hf
  unfold keptEntry
  rw [← hfilter]
  rfl

theorem Respells.clearLocated_nameRow (h : sel.Respells items)
    (hs : PathItem.Spellable sel.pathItems) (hs' : PathItem.Spellable items) (f : OpenFile) :
    sel.clearLocated ((sel.respell items).nameRow f) = sel.clearLocated (sel.nameRow f) := by
  rcases h.nameRow hs hs' f with ⟨_, hsame⟩ | ⟨hsome, htwins⟩
  · rw [hsame]
  · have hleft : sel.locatedItem (sel.nameRow f) = sel.locatedItem f := locatedItem_nameRow f
    have hright : sel.locatedItem ((sel.respell items).nameRow f) = sel.locatedItem f :=
      locatedItem_of_unnamed ((sel.respell items).nameRow_unnamed f)
    unfold Selection.clearLocated
    rw [hleft, hright, hsome, if_pos rfl, if_pos rfl]
    exact htwins.clearBase.symm

theorem clearLocated_unnamed (f : OpenFile) : (sel.clearLocated f).unnamed = f.unnamed := by
  unfold Selection.clearLocated
  split
  · exact f.clearBase_unnamed
  · rfl

theorem listsRow_congr (hid : sel.pathsIdentified = true)
    (hs : PathItem.Spellable sel.pathItems) {p p' : Process} (hhead : p'.header = p.header)
    {f f' : OpenFile} (hcells : f'.unnamed = f.unnamed) (hsame : sel.locatedItem f = none → f' = f) :
    sel.listsRow withTasks p' f' = sel.listsRow withTasks p f := by
  have hread : sel.readsEntry p' = sel.readsEntry p := by
    show sel.readsEntry p'.header = sel.readsEntry p.header
    rw [hhead]
  have hkeep : ∀ g, sel.keepsRow withTasks p' g = sel.keepsRow withTasks p g := by
    intro g
    show sel.keepsRow withTasks p'.header g = sel.keepsRow withTasks p.header g
    rw [hhead]
  have hstate := sel.stateMatches_of_unnamed hcells
  unfold listsRow
  rw [hread, hstate, hkeep]
  cases hitem : sel.locatedItem f with
  | none => rw [hsame hitem]
  | some item =>
    have hitem' : sel.locatedItem f' = some item :=
      (locatedItem_of_unnamed hcells).trans hitem
    have hnamed : (sel.nameRow f').unnamed = (sel.nameRow f).unnamed := by
      rw [nameRow_unnamed, nameRow_unnamed, hcells]
    have hnfs : sel.isNfsFile (sel.nameRow f') = sel.isNfsFile (sel.nameRow f) := by
      rw [isNfsFile_nameRow hs hitem', isNfsFile_nameRow hs hitem, eq_named_of_unnamed hcells]
      rfl
    rw [keepsRow_of_unnamed hid hnamed fun _ => hnfs]

theorem mem_listedRows_clear {r : Process × OpenFile} :
    r ∈ listedRows ((sel.applyRows procs).map sel.clearEntry) ↔
      ∃ p ∈ procs, ∃ f ∈ p.files, sel.listsRow (pidsWithTasks procs) p f = true ∧
        r = (p.header, sel.clearLocated (sel.nameRow f)) := by
  have hclear : listedRows ((sel.applyRows procs).map sel.clearEntry) =
      (listedRows (sel.applyRows procs)).map (fun r => (r.1, sel.clearLocated r.2)) := by
    simp only [listedRows, flatMap_map, map_flatMap, clearEntry, Process.mapFiles, map_map]
    rfl
  rw [hclear, listedRows_applyRows]
  simp only [map_map, mem_map, mem_filter, gatheredRows, mem_flatMap, Function.comp_def]
  constructor
  · rintro ⟨_, ⟨⟨p, hp, f, hf, rfl⟩, hlists⟩, rfl⟩
    exact ⟨p, hp, f, hf, hlists, rfl⟩
  · rintro ⟨p, hp, f, hf, hlists, rfl⟩
    exact ⟨(p, f), ⟨⟨p, hp, f, hf, rfl⟩, hlists⟩, rfl⟩

theorem listsRow_of_sameListing (hid : sel.pathsIdentified = true) (h : sel.Respells items)
    (hs' : PathItem.Spellable items)
    (hsame : sel.SameListing (sel.applyRows procs) ((sel.respell items).applyRows procs))
    {p : Process} (hp : p ∈ procs) {f : OpenFile} (hf : f ∈ p.files)
    (hlists : sel.listsRow (pidsWithTasks procs) p f = true) :
    (sel.respell items).listsRow (pidsWithTasks procs) p f = true := by
  have hclear : (sel.respell items).clearEntry = sel.clearEntry :=
    congrArg Process.mapFiles h.clearLocated
  have hmem := sel.mem_listedRows_clear.mpr ⟨p, hp, f, hf, hlists, rfl⟩
  rw [SameListing, ← hclear] at hsame
  rw [← hclear, hsame, mem_listedRows_clear] at hmem
  obtain ⟨p', hp', f', hf', hlists', hrow⟩ := hmem
  rw [Prod.mk.injEq, h.clearLocated] at hrow
  obtain ⟨hhead, hrow⟩ := hrow
  have hcells : f'.unnamed = f.unnamed := by
    have hunnamed := congrArg OpenFile.unnamed hrow
    rw [clearLocated_unnamed, clearLocated_unnamed, nameRow_unnamed, nameRow_unnamed] at hunnamed
    exact hunnamed.symm
  rw [← hlists']
  symm
  have hid' : (sel.respell items).pathsIdentified = true := hid
  refine listsRow_congr hid' hs' hhead.symm hcells ?_
  intro hnone'
  -- A row no item names is its own listing, so the two rows are one.
  have hnone : sel.locatedItem f = none := by
    have hlocated := h.located f
    rw [hnone'] at hlocated
    simpa using hlocated.symm
  have hfnone : sel.locatedItem f' = none := (locatedItem_of_unnamed hcells).trans hnone
  have hfnone' : (sel.respell items).locatedItem f' = none :=
    (locatedItem_of_unnamed hcells).trans hnone'
  rw [nameRow_eq, nameRow_eq, hnone, hfnone'] at hrow
  simpa [Selection.clearLocated, hnone, hfnone] using hrow.symm

end Listings

end Selection

end Lsof.Core
