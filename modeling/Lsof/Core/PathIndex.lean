import Lsof.Basis.Chain
import Lsof.Core.Filter

/-! # The index of the path items

A row locates one path item, the one the C's `is_file_named()` meets first in
its hash chains. The index keeps per key the first and the last item entered,
and per bucket the item at the head of its chain. `Indexed` is what building it
establishes: each map is the summary of the items entered so far.
-/

namespace Lsof.Core

open Lsof.Basis List

/-- glibc's `major()` and `minor()` of a packed `dev_t`. -/
def devParts (dev : BitVec 64) : BitVec 64 × BitVec 64 :=
  (((dev >>> 8) &&& 0xfff#64) ||| ((dev >>> 32) &&& ~~~0xfff#64),
    (dev &&& 0xff#64) ||| ((dev >>> 12) &&& 0xffffff00#64))

def toU16 (h : Nat) : Nat := if h < 2 ^ 16 then h else 65535

def devInoBucket (dev ino mask : BitVec 64) : Nat :=
  let parts := devParts dev
  toU16 ((((parts.1 + 1) * (parts.2 + 1) + ino) * 31415) &&& mask).toNat

/-- The hash of a name and the shift for its next byte, a signed `char`. -/
def nameHashStep (state : BitVec 32 × Nat) (b : UInt8) : BitVec 32 × Nat :=
  (state.1 ^^^ (b.toBitVec.signExtend 32 <<< state.2), if state.2 = 7 then 0 else state.2 + 1)

def nameBucket (name : Bytes) : Nat :=
  toU16 (((name.foldl nameHashStep (0, 0)).1 * 31415) &&& 4095).toNat

def idMask : BitVec 64 := 4093
def fsMask : BitVec 64 := 1023

def idBucket (id : FileId) : Nat := devInoBucket id.dev id.ino idMask
def fsBucket (dev : BitVec 64) : Nat := devInoBucket dev 0 fsMask

structure PathIndex where
  byId : FileId → Option (Span Nat) := fun _ => none
  byFs : BitVec 64 → Option (Span Nat) := fun _ => none
  byName : Bytes → Option (Span Nat) := fun _ => none
  idHeads : Nat → Option Nat := fun _ => none
  fsHeads : Nat → Option Nat := fun _ => none
  nameHeads : Nat → Option Nat := fun _ => none
  byPrefix : List (Nat × Text) := []

namespace PathIndex

def enterItem (identified : Bool) (ix : PathIndex) (entry : PathItem × Nat) : PathIndex :=
  let item := entry.1
  let i := entry.2
  let ix := { ix with
    byName := update ix.byName item.name (Span.enter (ix.byName item.name) i)
    nameHeads := update ix.nameHeads (nameBucket item.name) i }
  match item.id, item.fsDevice with
  | _, some dev =>
    { ix with
      byFs := update ix.byFs dev (Span.enter (ix.byFs dev) i)
      fsHeads := update ix.fsHeads (fsBucket dev) i }
  | some id, none =>
    { ix with
      byId := update ix.byId id (Span.enter (ix.byId id) i)
      idHeads := update ix.idHeads (idBucket id) i }
  | none, none =>
    if identified then ix
    else match matchedName item.name with
      | some name => { ix with byPrefix := ix.byPrefix ++ [(i, name.toAsciiLowercase)] }
      | none => ix

def new (items : List PathItem) (identified : Bool) : PathIndex :=
  items.zipIdx.foldl (enterItem identified) {}

def byIdentity (ix : PathIndex) (id : FileId) : Option Nat :=
  Span.firstMet (ix.byId id) (ix.idHeads (idBucket id))

def byTypedName (ix : PathIndex) (path : Bytes) : Option Nat :=
  Span.firstMet (ix.byName path) (ix.nameHeads (nameBucket path))

def byFileSystem (ix : PathIndex) (dev : BitVec 64) : Option Nat :=
  Span.firstMet (ix.byFs dev) (ix.fsHeads (fsBucket dev))

/-- The one item a row locates: by its identity, else by its file system; an
AF_UNIX socket by the socket file at its bound path, else by that path as
typed; never a row `-e` exempted. -/
def bound (ix : PathIndex) (f : OpenFile) : Option Nat :=
  if f.isExempt then none
  else match f.boundPath with
    | some b =>
      match b.id.bind ix.byIdentity with
      | some i => some i
      | none => b.path.bind (fun path => ix.byTypedName path.bytes)
    | none =>
      match f.fileId.bind ix.byIdentity with
      | some i => some i
      | none => f.searchedFsDevice.bind ix.byFileSystem

/-- Mark the item a row locates, and, where items are matched by name, every
item that is the row's file or a directory above it. -/
def mark (ix : PathIndex) (f : OpenFile) (selected : Bool) (hits : List Bool) : List Bool :=
  let hits := match ix.bound f with
    | some i => hits.set i true
    | none => hits
  if !ix.byPrefix.isEmpty && !f.isExempt && selected then
    let name := f.name.toAsciiLowercase
    ix.byPrefix.foldl (fun hits entry =>
      if name == entry.2 || name.startsWith entry.2 then hits.set entry.1 true else hits) hits
  else hits

end PathIndex

namespace PathItem

def idKey (item : PathItem) : Option FileId :=
  if item.fsDevice.isSome then none else item.id

end PathItem

section Keys

variable (items : List PathItem)

def idKeyAt (i : Nat) : Option FileId := items[i]?.bind PathItem.idKey
def fsKeyAt (i : Nat) : Option (BitVec 64) := items[i]?.bind PathItem.fsDevice
def nameKeyAt (i : Nat) : Option Bytes := items[i]?.map PathItem.name

end Keys

structure Indexed (items : List PathItem) (entered : List Nat) (ix : PathIndex) : Prop where
  byId : ∀ k, ix.byId k = spanOf (idKeyAt items) entered k
  byFs : ∀ k, ix.byFs k = spanOf (fsKeyAt items) entered k
  byName : ∀ k, ix.byName k = spanOf (nameKeyAt items) entered k
  idHeads : ∀ b, ix.idHeads b = headOf (idKeyAt items) idBucket entered b
  fsHeads : ∀ b, ix.fsHeads b = headOf (fsKeyAt items) fsBucket entered b
  nameHeads : ∀ b, ix.nameHeads b = headOf (nameKeyAt items) nameBucket entered b

theorem spanOf_enter {κ : Type} [DecidableEq κ] {key : Nat → Option κ} {m : κ → Option (Span Nat)}
    {entered : List Nat} {i : Nat} {k : κ} (hm : ∀ k, m k = spanOf key entered k) (hkey : key i = some k) :
    ∀ k', update m k (Span.enter (m k) i) k' = spanOf key (entered ++ [i]) k' := by
  intro k'
  rw [spanOf_append, hkey]
  by_cases h : k' = k
  · subst h
    simp [hm]
  · have h' : ¬ some k = some k' := by simpa using fun e => h e.symm
    rw [update_of_ne m _ h, if_neg h', hm]

theorem spanOf_skip {κ : Type} [DecidableEq κ] {key : Nat → Option κ} {m : κ → Option (Span Nat)}
    {entered : List Nat} {i : Nat} (hm : ∀ k, m k = spanOf key entered k) (hkey : key i = none) :
    ∀ k', m k' = spanOf key (entered ++ [i]) k' := by
  intro k'
  rw [spanOf_append, hkey, if_neg (by simp), hm]

theorem headOf_enter {κ : Type} {key : Nat → Option κ} {bucket : κ → Nat} {m : Nat → Option Nat}
    {entered : List Nat} {i : Nat} {k : κ} (hm : ∀ b, m b = headOf key bucket entered b) (hkey : key i = some k) :
    ∀ b, update m (bucket k) i b = headOf key bucket (entered ++ [i]) b := by
  intro b
  rw [headOf_append, inBucket, hkey]
  by_cases h : b = bucket k
  · subst h
    simp
  · have h' : ¬ bucket k = b := fun e => h e.symm
    rw [update_of_ne m _ h, hm]
    simp [h']

theorem headOf_skip {κ : Type} {key : Nat → Option κ} {bucket : κ → Nat} {m : Nat → Option Nat}
    {entered : List Nat} {i : Nat} (hm : ∀ b, m b = headOf key bucket entered b) (hkey : key i = none) :
    ∀ b, m b = headOf key bucket (entered ++ [i]) b := by
  intro b
  rw [headOf_append, inBucket, hkey, hm]
  simp

theorem Indexed.empty (items : List PathItem) : Indexed items [] {} :=
  ⟨fun _ => rfl, fun _ => rfl, fun _ => rfl, fun _ => rfl, fun _ => rfl, fun _ => rfl⟩

theorem Indexed.enterItem {items : List PathItem} {entered : List Nat} {ix : PathIndex}
    (h : Indexed items entered ix) (identified : Bool) {item : PathItem} {i : Nat} (hi : items[i]? = some item) :
    Indexed items (entered ++ [i]) (PathIndex.enterItem identified ix (item, i)) := by
  have hname : nameKeyAt items i = some item.name := by simp [nameKeyAt, hi]
  have hspan := spanOf_enter h.byName hname
  have hhead : ∀ b, update ix.nameHeads (nameBucket item.name) i b =
      headOf (nameKeyAt items) nameBucket (entered ++ [i]) b := headOf_enter h.nameHeads hname
  unfold PathIndex.enterItem
  dsimp only
  split
  · -- A file-system item: its device alone is entered.
    rename_i dev hdev
    have hfs : fsKeyAt items i = some dev := by simp [fsKeyAt, hi, hdev]
    have hid : idKeyAt items i = none := by simp [idKeyAt, hi, PathItem.idKey, hdev]
    exact ⟨spanOf_skip h.byId hid, spanOf_enter h.byFs hfs, hspan, headOf_skip h.idHeads hid,
      headOf_enter h.fsHeads hfs, hhead⟩
  · rename_i id hitem hdev
    have hfs : fsKeyAt items i = none := by simp [fsKeyAt, hi, hdev]
    have hid : idKeyAt items i = some id := by simp [idKeyAt, hi, PathItem.idKey, hdev, hitem]
    exact ⟨spanOf_enter h.byId hid, spanOf_skip h.byFs hfs, hspan, headOf_enter h.idHeads hid,
      headOf_skip h.fsHeads hfs, hhead⟩
  · -- No identity: at most the list of prefixes grows.
    rename_i hitem hdev
    have hfs : fsKeyAt items i = none := by simp [fsKeyAt, hi, hdev]
    have hid : idKeyAt items i = none := by simp [idKeyAt, hi, PathItem.idKey, hdev, hitem]
    have hrest : Indexed items (entered ++ [i]) { ix with
        byName := update ix.byName item.name (Span.enter (ix.byName item.name) i)
        nameHeads := update ix.nameHeads (nameBucket item.name) i } :=
      ⟨spanOf_skip h.byId hid, spanOf_skip h.byFs hfs, hspan, headOf_skip h.idHeads hid,
        headOf_skip h.fsHeads hfs, hhead⟩
    split
    · exact hrest
    · split
      · exact ⟨hrest.byId, hrest.byFs, hrest.byName, hrest.idHeads, hrest.fsHeads, hrest.nameHeads⟩
      · exact hrest

theorem Indexed.foldl {items : List PathItem} (identified : Bool) (entries : List (PathItem × Nat))
    {entered : List Nat} {ix : PathIndex} (h : Indexed items entered ix)
    (hentries : ∀ e ∈ entries, items[e.2]? = some e.1) :
    Indexed items (entered ++ entries.map Prod.snd) (entries.foldl (PathIndex.enterItem identified) ix) := by
  induction entries generalizing entered ix with
  | nil => simpa using h
  | cons e entries ih =>
    have hstep := h.enterItem identified (hentries e (by simp))
    have hrest := ih hstep (fun e' he' => hentries e' (by simp [he']))
    simpa using hrest

theorem PathIndex.new_indexed (items : List PathItem) (identified : Bool) :
    Indexed items (List.range items.length) (PathIndex.new items identified) := by
  have hentries : ∀ e ∈ items.zipIdx, items[e.2]? = some e.1 := by
    intro e he
    exact mem_zipIdx_iff_getElem?.mp he
  have h := Indexed.foldl identified items.zipIdx (Indexed.empty items) hentries
  simpa [PathIndex.new, range_eq_range'] using h

theorem any_range_key {κ : Type} [DecidableEq κ] (items : List PathItem) (key : PathItem → Option κ) (k : κ) :
    (List.range items.length).any (fun i => items[i]?.bind key == some k) = true ↔
      ∃ item ∈ items, key item = some k := by
  simp only [any_eq_true, mem_range, beq_iff_eq]
  constructor
  · rintro ⟨i, hi, hkey⟩
    rw [getElem?_eq_getElem hi, Option.bind_some] at hkey
    exact ⟨_, getElem_mem hi, hkey⟩
  · rintro ⟨item, hmem, hkey⟩
    obtain ⟨i, hi, rfl⟩ := getElem_of_mem hmem
    exact ⟨i, hi, by rw [getElem?_eq_getElem hi, Option.bind_some, hkey]⟩

namespace PathIndex

variable (items : List PathItem) (identified : Bool)

theorem byIdentity_isSome (id : FileId) :
    ((new items identified).byIdentity id).isSome = true ↔ ∃ item ∈ items, item.idKey = some id := by
  rw [byIdentity, Span.firstMet_isSome, (new_indexed items identified).byId, spanOf_isSome]
  exact any_range_key items PathItem.idKey id

theorem byFileSystem_isSome (dev : BitVec 64) :
    ((new items identified).byFileSystem dev).isSome = true ↔ ∃ item ∈ items, item.fsDevice = some dev := by
  rw [byFileSystem, Span.firstMet_isSome, (new_indexed items identified).byFs, spanOf_isSome]
  exact any_range_key items PathItem.fsDevice dev

theorem byTypedName_isSome (path : Bytes) :
    ((new items identified).byTypedName path).isSome = true ↔ ∃ item ∈ items, item.name = path := by
  rw [byTypedName, Span.firstMet_isSome, (new_indexed items identified).byName, spanOf_isSome]
  have hkey : nameKeyAt items = fun i => items[i]?.bind (fun item => some item.name) := by
    funext i
    cases hi : items[i]? <;> simp [nameKeyAt, hi]
  rw [hkey, any_range_key]
  simp

end PathIndex

end Lsof.Core
