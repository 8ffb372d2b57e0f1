import Lsof.Original.FileHash

/-! # Locating a row as the C does

The index of path items against the C's chains: for a row that is no NFS file
they find the same argument, except on the device of an NFS mount, for a socket
that is bound to nothing, and for one bound to a path that is no text.
-/

namespace Lsof.Original

open Lsof.Basis Lsof.Core List

/-- A UNIX domain socket: the path it is bound to, and the socket file found
there. -/
structure Uxsin where
  path : Option Bytes := none
  sb : Option FileId := none
  sbRdev : BitVec 64 := 0
  statted : sb.isSome = true → path.isSome = true

/-- What `process_proc_node` knows of a file, with its mount where it is an NFS file. -/
structure Node where
  path : Bytes
  dev : Option (BitVec 64) := none
  ino : Option (BitVec 64) := none
  rdev : Option (BitVec 64) := none
  mode : FileMode := .other
  nfs : Option Mounts := none

/-- What the C has in hand when it asks whether a file was named. -/
inductive Row where
  /-- A file `-e` exempted, and a socket that is not AF_UNIX: it never asks. -/
  | unasked
  | node (n : Node)
  /-- A UNIX domain socket, and the text of its descriptor's link. -/
  | unix (up : Uxsin) (link : Bytes)

namespace Row

def isNfs : Row → Bool
  | .node n => n.nfs.isSome
  | _ => false

/-- The search of `process_proc_node`, or the two of `process_proc_sock`. -/
def named (sfiles : List Sfile) (devDev : BitVec 64) : Row → Option Nat
  | .unasked => none
  | .node n =>
    isFileNamed sfiles (hashSfile sfiles) devDev 1 (some n.path) n.nfs
      (n.mode = .chr ∨ n.mode = .blk)
      { dev := n.dev
        rdev := if n.mode = .chr ∨ n.mode = .blk then n.rdev else none
        inode := n.ino.getD 0
        inpTy := if n.ino.isSome then 1 else 0
        nfs := n.nfs.isSome }
  | .unix up link =>
    let byFile := up.sb.bind (fun id =>
      isFileNamed sfiles (hashSfile sfiles) devDev 0 none none false
        { dev := some id.dev, rdev := some up.sbRdev, inode := id.ino, inpTy := 1 })
    byFile <|> isFileNamed sfiles (hashSfile sfiles) devDev 2 (some (up.path.getD link)) none false {}

end Row

/-- A row of lsof-rs shows what the C has in hand. -/
def Shows (f : OpenFile) : Row → Prop
  | .unasked => f.isExempt = true ∨ (f.isSocket = true ∧ f.boundPath = none)
  | .node n => f.isExempt = false ∧ f.isSocket = false ∧ f.fsDevice = n.dev ∧
      f.node.bind (Text.parseUnsigned 64) = n.ino
  | .unix up _ => f.isExempt = false ∧ f.socket.isSome = true ∧
      match up.path with
      | none => f.boundPath = none
      | some path => ∃ b, f.boundPath = some b ∧ b.id = up.sb ∧
          -- A path that is no UTF-8 is not kept.
          match b.path with
          | some text => Text.bytes text = path
          | none => ∀ text : Text, Text.bytes text ≠ path

/-- The path item lsof-rs makes of an argument. -/
def Sfile.item (s : Sfile) : PathItem :=
  if s.type then
    { id := some { dev := s.dev, ino := s.i }
      name := s.aname
      spelled := if s.name = s.aname then none else some s.name }
  else { fsDevice := some s.dev, name := s.aname }

def Sfile.onNfs (s : Sfile) : Bool := s.mp.any (fun mp => mp.nfs)

section Keys

variable (sfiles : List Sfile)

theorem idKeyAt_item : idKeyAt (sfiles.map Sfile.item) = idAt sfiles := by
  funext i
  unfold idKeyAt idAt
  rw [getElem?_map]
  cases sfiles[i]? with
  | none => rfl
  | some s => cases htype : s.type <;> simp [Sfile.item, Sfile.idKey, PathItem.idKey, htype]

theorem fsKeyAt_item : fsKeyAt (sfiles.map Sfile.item) = fsAt sfiles := by
  funext i
  unfold fsKeyAt fsAt
  rw [getElem?_map]
  cases sfiles[i]? with
  | none => rfl
  | some s => cases htype : s.type <;> simp [Sfile.item, Sfile.fsKey, htype]

theorem nameKeyAt_item : nameKeyAt (sfiles.map Sfile.item) = nameAt sfiles := by
  funext i
  unfold nameKeyAt nameAt
  rw [getElem?_map]
  cases sfiles[i]? with
  | none => rfl
  | some s => cases htype : s.type <;> simp [Sfile.item, htype]

end Keys

section Searches

variable (sfiles : List Sfile)

abbrev indexOf : PathIndex := PathIndex.new (sfiles.map Sfile.item) true

theorem sfileIs_iff {test : Sfile → Bool} {i : Nat} {s : Sfile} (h : sfiles[i]? = some s) :
    sfileIs sfiles test i = test s := by
  simp [sfileIs, h]

variable {lf : Lfile}

theorem namedByInode_eq {id : FileId} (hdev : lf.dev = some id.dev) (hino : lf.inode = id.ino) (hty : lf.inpTy = 1) :
    namedByInode sfiles (hashSfile sfiles) lf = (indexOf sfiles).byIdentity id := by
  have htest : ∀ i id', idAt sfiles i = some id' →
      (sfileIs sfiles (fun s => id.dev == s.dev && id.ino == s.i) i = true ↔ id' = id) := by
    intro i id' hid
    obtain ⟨s, hs, hkey⟩ := Option.bind_eq_some_iff.mp hid
    obtain ⟨_, hid'⟩ := Option.ite_none_right_eq_some.mp hkey
    rw [sfileIs_iff sfiles hs, ← Option.some.inj hid']
    cases id
    simp only [Bool.and_eq_true, beq_iff_eq, FileId.mk.injEq]
    exact and_congr eq_comm eq_comm
  have hindex := PathIndex.new_indexed (sfiles.map Sfile.item) true
  have hfound := (hashSfile_hashed sfiles).byFdi.firstMet htest
  rw [PathIndex.byIdentity, hindex.byId, hindex.idHeads, idKeyAt_item, length_map,
    ← funext hashId_eq, ← hfound, namedByInode, hdev, hino, hty]
  simp

theorem namedByPath_eq (path : Bytes) :
    namedByPath sfiles (hashSfile sfiles) path = (indexOf sfiles).byTypedName path := by
  have htest : ∀ i name, nameAt sfiles i = some name →
      (sfileIs sfiles (fun s => path == s.aname) i = true ↔ name = path) := by
    intro i name hname
    obtain ⟨s, hs, rfl⟩ := Option.map_eq_some_iff.mp hname
    rw [sfileIs_iff sfiles hs, beq_iff_eq]
    exact eq_comm
  have hindex := PathIndex.new_indexed (sfiles.map Sfile.item) true
  have hfound := (hashSfile_hashed sfiles).byNm.firstMet htest
  rw [PathIndex.byTypedName, hindex.byName, hindex.nameHeads, nameKeyAt_item, length_map,
    ← funext hashNm_eq, ← hfound, namedByPath]

theorem namedByFileSystem_eq {dev : BitVec 64} (hdev : lf.dev = some dev)
    (hnfs : lf.nfs = false) (path : Option Bytes) (nfsMount : Option Mounts) :
    namedByFileSystem sfiles (hashSfile sfiles) path nfsMount lf =
      (bucketChain (fsAt sfiles) hashFs (List.range sfiles.length) (hashFs dev)).find?
        (fun i => fsAt sfiles i == some dev && !sfileIs sfiles Sfile.onNfs i) := by
  rw [namedByFileSystem, hdev]
  dsimp only
  rw [(hashSfile_hashed sfiles).byFsd.search]
  apply find?_congr
  intro i hi
  obtain ⟨dev', hkey⟩ := key_of_mem_bucketChain hi
  obtain ⟨s, hs, hfs⟩ := Option.bind_eq_some_iff.mp hkey
  have hdev' : s.dev = dev' := by
    unfold Sfile.fsKey at hfs
    split at hfs
    · cases hfs
    · exact Option.some.inj hfs
  rw [sfileIs_iff sfiles hs, sfileIs_iff sfiles hs, hkey, hdev', hnfs]
  cases hmp : s.mp <;> simp [fileSystemMatches, Sfile.onNfs, hmp]

theorem byFileSystem_eq (dev : BitVec 64) :
    (indexOf sfiles).byFileSystem dev =
      (bucketChain (fsAt sfiles) hashFs (List.range sfiles.length) (hashFs dev)).find?
        (fun i => fsAt sfiles i == some dev) := by
  have hindex := PathIndex.new_indexed (sfiles.map Sfile.item) true
  rw [PathIndex.byFileSystem, hindex.byFs, hindex.fsHeads, fsKeyAt_item, length_map,
    ← funext hashFs_eq, firstMet_eq_find?_bucketChain]

/-- The places of the file systems in the bucket of a device, in the order entered. -/
def fsPlaces (dev : BitVec 64) : List Nat :=
  (List.range sfiles.length).filter
    (sfileIs sfiles (fun s => !s.type && hashFs s.dev == hashFs dev))

/-- The file system of a device that its chain meets first is an NFS mount: the
one entered last in the bucket where it is of the device, else the first of the
device. -/
def NfsMet (dev : BitVec 64) : Prop :=
  ∃ i s, sfiles[i]? = some s ∧ s.fsKey = some dev ∧ s.onNfs = true ∧
    ((∃ early, fsPlaces sfiles dev = early ++ [i]) ∨
      ∃ before after last, fsPlaces sfiles dev = before ++ i :: after ++ [last] ∧
        fsAt sfiles last ≠ some dev ∧ ∀ j ∈ before, fsAt sfiles j ≠ some dev)

def NoFile (id : Option FileId) : Prop := ∀ s ∈ sfiles, ∀ key, s.idKey = some key → id ≠ some key

def Typed (path : Bytes) : Prop := ∃ s ∈ sfiles, s.aname = path

/-- A row of which the two programs say different things. -/
def Row.Differs : Row → Prop
  | .unasked => False
  | .node n => ∃ dev, n.dev = some dev ∧
      NoFile sfiles (n.ino.map (fun ino => { dev, ino })) ∧ NfsMet sfiles dev
  | .unix up link =>
    match up.path with
    | none => Typed sfiles link
    | some path => (∀ text : Text, Text.bytes text ≠ path) ∧ NoFile sfiles up.sb ∧
        Typed sfiles path

theorem fsPlaces_eq (dev : BitVec 64) :
    fsPlaces sfiles dev = (List.range sfiles.length).filter (inBucket (fsAt sfiles) hashFs (hashFs dev)) := by
  unfold fsPlaces
  apply filter_congr
  intro i _
  unfold sfileIs inBucket fsAt
  cases sfiles[i]? with
  | none => rfl
  | some s => cases htype : s.type <;> simp [Sfile.fsKey, htype]

theorem nfsMet_iff (dev : BitVec 64) :
    NfsMet sfiles dev ↔ ∃ i, (indexOf sfiles).byFileSystem dev = some i ∧ sfileIs sfiles Sfile.onNfs i = true := by
  unfold NfsMet
  rw [byFileSystem_eq, fsPlaces_eq]
  simp only [find?_bucketChain_eq_some_iff]
  constructor
  · rintro ⟨i, s, hs, hkey, hnfs, hmet⟩
    exact ⟨i, ⟨by simp [fsAt, hs, hkey], hmet⟩, by rw [sfileIs_iff sfiles hs, hnfs]⟩
  · rintro ⟨i, ⟨hat, hmet⟩, hnfs⟩
    obtain ⟨s, hs, hkey⟩ := Option.bind_eq_some_iff.mp hat
    rw [sfileIs_iff sfiles hs] at hnfs
    exact ⟨i, s, hs, hkey, hnfs, hmet⟩

theorem namedByFileSystem_eq_iff {dev : BitVec 64} (hdev : lf.dev = some dev)
    (hnfs : lf.nfs = false) (path : Option Bytes) (nfsMount : Option Mounts) :
    (indexOf sfiles).byFileSystem dev =
        namedByFileSystem sfiles (hashSfile sfiles) path nfsMount lf ↔ ¬ NfsMet sfiles dev := by
  rw [nfsMet_iff, namedByFileSystem_eq sfiles hdev hnfs, byFileSystem_eq, find?_and_eq_iff]
  simp

theorem byIdentity_none_iff (id : FileId) : (indexOf sfiles).byIdentity id = none ↔ NoFile sfiles (some id) := by
  have hitem : ∀ s : Sfile, s.item.idKey = s.idKey := by
    intro s
    cases htype : s.type <;> simp [Sfile.item, Sfile.idKey, PathItem.idKey, htype]
  rw [← Option.not_isSome_iff_eq_none, PathIndex.byIdentity_isSome]
  simp only [mem_map, exists_exists_and_eq_and, hitem, not_exists, not_and, NoFile]
  constructor
  · intro hno s hs key hkey hid
    exact hno s hs (hkey.trans hid.symm)
  · intro hno s hs hkey
    exact hno s hs id hkey rfl

theorem byTypedName_none_iff (path : Bytes) : (indexOf sfiles).byTypedName path = none ↔ ¬ Typed sfiles path := by
  have hitem : ∀ s : Sfile, s.item.name = s.aname := by
    intro s
    cases htype : s.type <;> simp [Sfile.item, htype]
  rw [← Option.not_isSome_iff_eq_none, PathIndex.byTypedName_isSome]
  simp [hitem, Typed]

end Searches

section Rows

variable {sfiles : List Sfile} {devDev : BitVec 64} {f : OpenFile}

theorem isFileNamed_node (h : Hashes) (path : Option Bytes) (nfsMount : Option Mounts) (cd : Bool) (lf : Lfile) :
    isFileNamed sfiles h devDev 1 path nfsMount cd lf =
      (namedByInode sfiles h lf <|> namedByFileSystem sfiles h path nfsMount lf) := by
  simp [isFileNamed]

theorem isFileNamed_socketFile (h : Hashes) (path : Option Bytes) (nfsMount : Option Mounts) (lf : Lfile) :
    isFileNamed sfiles h devDev 0 path nfsMount false lf = namedByInode sfiles h lf := by
  have hraw : namedByRawDevice sfiles h devDev false lf = none := by
    unfold namedByRawDevice
    split <;> simp
  simp [isFileNamed, hraw]

theorem isFileNamed_path (h : Hashes) (path : Bytes) (nfsMount : Option Mounts) (cd : Bool) (lf : Lfile) :
    isFileNamed sfiles h devDev 2 (some path) nfsMount cd lf = namedByPath sfiles h path := by
  simp [isFileNamed]

theorem Shows.bound_node {n : Node} (hshows : Shows f (.node n)) (ix : PathIndex) :
    ix.bound f =
      (n.dev.bind (fun dev => n.ino.bind (fun ino => ix.byIdentity { dev, ino })) <|>
        n.dev.bind ix.byFileSystem) := by
  obtain ⟨hexempt, hsocket, hdev, hino⟩ := hshows
  have hnone : f.socket = none := by
    simp only [OpenFile.isSocket, Bool.or_eq_false_iff] at hsocket
    simpa using hsocket.1
  have hfs : f.searchedFsDevice = n.dev := by simp [OpenFile.searchedFsDevice, hexempt, hsocket, hdev]
  have hid : f.fileId = n.dev.bind (fun dev => n.ino.map (fun ino => { dev, ino })) := by
    simp only [OpenFile.fileId, hfs, ← hino]
    cases n.dev <;> cases f.node <;> simp [Option.map_eq_bind]
  have hbound : f.boundPath = none := by simp [OpenFile.boundPath, hnone]
  rw [PathIndex.bound, hexempt, hbound, hid, hfs]
  cases n.dev with
  | none => rfl
  | some dev =>
    cases n.ino with
    | none => rfl
    | some ino =>
      simp only [Option.bind_some, Option.map_some, Bool.false_eq_true, if_false]
      cases ix.byIdentity { dev, ino } <;> rfl

theorem bound_eq_named_node {n : Node} (hshows : Shows f (.node n)) (hnfs : n.nfs = none) :
    (indexOf sfiles).bound f = (Row.node n).named sfiles devDev ↔ ¬ (Row.node n).Differs sfiles := by
  rw [hshows.bound_node, Row.named, isFileNamed_node, Row.Differs]
  generalize hlf : ({ dev := n.dev, rdev := _, inode := _, inpTy := _, nfs := _ } : Lfile) = lf
  have hlfdev : lf.dev = n.dev := by rw [← hlf]
  have hlfnfs : lf.nfs = false := by rw [← hlf, hnfs]; rfl
  cases hdev : n.dev with
  | none =>
    rw [hdev] at hlfdev
    simp [namedByInode, namedByFileSystem, hlfdev]
  | some dev =>
    rw [hdev] at hlfdev
    have hfs := namedByFileSystem_eq_iff sfiles hlfdev hlfnfs (some n.path) n.nfs
    simp only [Option.bind_some, Option.some.injEq, exists_eq_left']
    cases hino : n.ino with
    | none =>
      -- No inode: nothing is asked but the file system.
      have hskip : namedByInode sfiles (hashSfile sfiles) lf = none := by
        have hty : lf.inpTy = 0 := by rw [← hlf, hino]; rfl
        simp [namedByInode, hlfdev, hty]
      simpa [hskip, NoFile] using hfs
    | some ino =>
      have hid : namedByInode sfiles (hashSfile sfiles) lf =
          (indexOf sfiles).byIdentity { dev, ino } :=
        namedByInode_eq sfiles hlfdev (by rw [← hlf, hino]; rfl) (by rw [← hlf, hino]; rfl)
      rw [hid]
      simp only [Option.bind_some, Option.map_some]
      rw [← byIdentity_none_iff]
      cases (indexOf sfiles).byIdentity { dev, ino } with
      | some i => simp
      | none => simpa using hfs

theorem bound_eq_named_unix {up : Uxsin} {link : Bytes} (hshows : Shows f (.unix up link)) :
    (indexOf sfiles).bound f = (Row.unix up link).named sfiles devDev ↔ ¬ (Row.unix up link).Differs sfiles := by
  obtain ⟨hexempt, hsocket, hbound⟩ := hshows
  simp only [Row.named, isFileNamed_path, isFileNamed_socketFile, namedByPath_eq, Row.Differs]
  cases hpath : up.path with
  | none =>
    -- The C asks for the text of the link, lsof-rs for nothing.
    rw [hpath] at hbound
    have hsb : up.sb = none := by
      have hstatted := up.statted
      rw [hpath] at hstatted
      simpa using hstatted
    have hfs : f.searchedFsDevice = none := by
      simp [OpenFile.searchedFsDevice, OpenFile.isSocket, hsocket]
    have hnone : (indexOf sfiles).bound f = none := by
      simp [PathIndex.bound, hexempt, hbound, OpenFile.fileId, hfs]
    rw [hnone, hsb, ← byTypedName_none_iff]
    simpa using eq_comm
  | some path =>
    rw [hpath] at hbound
    obtain ⟨b, hb, hid, htext⟩ := hbound
    have hfile : up.sb.bind (fun id => namedByInode sfiles (hashSfile sfiles)
        { dev := some id.dev, rdev := some up.sbRdev, inode := id.ino, inpTy := 1 }) =
          up.sb.bind (indexOf sfiles).byIdentity := by
      cases up.sb with
      | none => rfl
      | some id =>
        simp only [Option.bind_some]
        exact namedByInode_eq sfiles rfl rfl rfl
    have hno : up.sb.bind (indexOf sfiles).byIdentity = none ↔ NoFile sfiles up.sb := by
      cases up.sb with
      | none => simp [NoFile]
      | some id => exact byIdentity_none_iff sfiles id
    rw [hfile, PathIndex.bound, hexempt, hb]
    simp only [Bool.false_eq_true, if_false, Option.getD_some, hid, ← hno]
    cases hfound : up.sb.bind (indexOf sfiles).byIdentity with
    | some i => simp
    | none =>
      cases hb' : b.path with
      | some text =>
        rw [hb'] at htext
        simp [← htext]
      | none =>
        rw [hb'] at htext
        have hall : (∀ text : Text, Text.bytes text ≠ path) ↔ True := iff_true_intro htext
        simp only [hall, true_and]
        rw [← byTypedName_none_iff]
        simpa using eq_comm

end Rows

/-- A row that is no NFS file locates the C's argument unless it is one of
those the programs differ on. -/
theorem bound_eq_named_iff {sfiles : List Sfile} {f : OpenFile} {row : Row}
    (hshows : Shows f row) (hnfs : row.isNfs = false) (devDev : BitVec 64) :
    (PathIndex.new (sfiles.map Sfile.item) true).bound f = row.named sfiles devDev ↔ ¬ row.Differs sfiles := by
  cases row with
  | unasked =>
    have hnone : (indexOf sfiles).bound f = none := by
      rcases hshows with hexempt | ⟨hsocket, hbound⟩
      · simp [PathIndex.bound, hexempt]
      · simp [PathIndex.bound, hbound, OpenFile.fileId, OpenFile.searchedFsDevice, hsocket]
    simpa [Row.named, Row.Differs] using hnone
  | node n => exact bound_eq_named_node hshows (by simpa [Row.isNfs] using hnfs)
  | unix up link => exact bound_eq_named_unix hshows

/-- `lsof /n`, where `/n` is an NFS mount. -/
def nfsArgument : List Sfile :=
  [{ aname := Text.bytes "/n".toList, name := Text.bytes "/n".toList, type := false, dev := 0x2b
     mp := some { dir := Text.bytes "/n".toList, nfs := true } }]

def fifoOnNfs : OpenFile where
  fd := .handle 3
  fileType := .fifo
  fsDevice := some 0x2b
  node := some "7".toList

def fifoNode : Row := .node { path := Text.bytes "/n/p".toList, dev := some 0x2b, ino := some 7 }

theorem shows_fifoNode : Shows fifoOnNfs fifoNode := ⟨rfl, rfl, rfl, by decide⟩

theorem nfsArgument_locates_fifo :
    Shows fifoOnNfs fifoNode ∧ fifoNode.isNfs = false ∧
      (PathIndex.new (nfsArgument.map Sfile.item) true).bound fifoOnNfs = some 0 ∧
      fifoNode.named nfsArgument 5 = none :=
  ⟨shows_fifoNode, rfl, by decide, by decide⟩

theorem bound_eq_named_iff_fifo :
    Shows fifoOnNfs fifoNode ∧ fifoNode.isNfs = false ∧
      ((PathIndex.new (nfsArgument.map Sfile.item) true).bound fifoOnNfs =
        fifoNode.named nfsArgument 5 ↔ ¬ fifoNode.Differs nfsArgument) :=
  ⟨shows_fifoNode, rfl, bound_eq_named_iff shows_fifoNode rfl 5⟩

end Lsof.Original
