import Lsof.Core.PathIndex

/-! # The search for a file in the C

The table of search arguments, its hash chains, and the search itself, as
`dfile.c` has them. An argument is known by its place in the order entered,
which stands for its address.
-/

namespace Lsof.Original

open Lsof.Basis

/-- The part of `struct mounts` the search reads. -/
structure Mounts where
  dir : Bytes
  nfs : Bool
  deriving DecidableEq, Repr

/-- `st_mode & S_IFMT`, as far as the search tells types apart. -/
inductive FileMode where
  | chr
  | blk
  | other
  deriving DecidableEq, Repr

/-- `struct sfile`. `type` is clear for a file system, which has a mount. -/
structure Sfile where
  aname : Bytes
  name : Bytes
  type : Bool
  dev : BitVec 64
  i : BitVec 64 := 0
  rdev : BitVec 64 := 0
  mode : FileMode := .other
  mp : Option Mounts := none
  deriving DecidableEq, Repr

def major (dev : BitVec 64) : BitVec 32 :=
  (((dev &&& 0x00000000000fff00#64) >>> 8) ||| ((dev &&& 0xfffff00000000000#64) >>> 32)).setWidth 32

def minor (dev : BitVec 64) : BitVec 32 :=
  ((dev &&& 0x00000000000000ff#64) ||| ((dev &&& 0x00000ffffff00000#64) >>> 12)).setWidth 32

/-- `SFHASHDEVINO`: the product is an `int`, the sum with the inode as wide as
the inode, and the rest an `int` again. -/
def sfHashDevIno (maj min : BitVec 32) (ino : BitVec 64) (mod : BitVec 32) : Nat :=
  (((((maj + 1) * (min + 1)).signExtend 64 + ino).setWidth 32 * 31415) &&& (mod - 1)).toNat

def sfHashRdevI (maj min rmaj rmin : BitVec 32) (ino : BitVec 64) (mod : BitVec 32) : Nat :=
  (((((maj + 1) * (min + 1)) + (rmaj + 1) * (rmin + 1)).signExtend 64 + ino).setWidth 32 * 31415 &&&
    (mod - 1)).toNat

/-- The loop of `hashbyname`, over the bytes before the NUL. -/
def hashByNameLoop (i : BitVec 32) (j : Nat) : Bytes → BitVec 32
  | [] => i
  | c :: nm =>
    let i := i ^^^ (c.toBitVec.signExtend 32 <<< j)
    let j := if 7 < j + 1 then 0 else j + 1
    hashByNameLoop i j nm

def hashByName (nm : Bytes) (mod : BitVec 32) : Nat :=
  ((hashByNameLoop 0 0 nm * 31415) &&& (mod - 1)).toNat

def sfdiHash : BitVec 32 := 4094
def sffsHash : BitVec 32 := 1024
def sfrdHash : BitVec 32 := 1024
def sfnmHash : BitVec 32 := 4096

def hashId (id : Core.FileId) : Nat := sfHashDevIno (major id.dev) (minor id.dev) id.ino sfdiHash
def hashFs (dev : BitVec 64) : Nat := sfHashDevIno (major dev) (minor dev) 0 sffsHash
def hashNm (nm : Bytes) : Nat := hashByName nm sfnmHash

/-- Device, raw device and inode of a character or block device. -/
def hashRd (key : BitVec 64 × BitVec 64 × BitVec 64) : Nat :=
  sfHashRdevI (major key.1) (minor key.1) (major key.2.1) (minor key.2.1) key.2.2 sfrdHash

/-- `HbyNm`, `HbyFdi`, `HbyFsd` and `HbyFrd`, with their counts. -/
structure Hashes where
  byNm : Nat → List Nat := fun _ => []
  byFdi : Nat → List Nat := fun _ => []
  byFsd : Nat → List Nat := fun _ => []
  byFrd : Nat → List Nat := fun _ => []
  nmCt : Nat := 0
  fdiCt : Nat := 0
  fsdCt : Nat := 0
  frdCt : Nat := 0

def hashOne (sfiles : List Sfile) (h : Hashes) (s : Nat) : Hashes :=
  match sfiles[s]? with
  | none => h
  | some sf =>
    let h := { h with byNm := chainAt h.byNm (hashNm sf.aname) s, nmCt := h.nmCt + 1 }
    let h :=
      if sf.type then
        { h with byFdi := chainAt h.byFdi (hashId { dev := sf.dev, ino := sf.i }) s,
                 fdiCt := h.fdiCt + 1 }
      else { h with byFsd := chainAt h.byFsd (hashFs sf.dev) s, fsdCt := h.fsdCt + 1 }
    if sf.mode = .chr ∨ sf.mode = .blk then
      { h with byFrd := chainAt h.byFrd (hashRd (sf.dev, sf.rdev, sf.i)) s, frdCt := h.frdCt + 1 }
    else h

/-- `Sfile`, the list `ck_file_arg` prepends every argument to. -/
def argChain (sfiles : List Sfile) : List Nat :=
  (List.range sfiles.length).foldl (fun next s => s :: next) []

def hashSfile (sfiles : List Sfile) : Hashes := (argChain sfiles).foldl (hashOne sfiles) {}

/-- The part of `struct lfile` the search reads. -/
structure Lfile where
  dev : Option (BitVec 64) := none
  rdev : Option (BitVec 64) := none
  inode : BitVec 64 := 0
  inpTy : Nat := 0
  nfs : Bool := false
  deriving DecidableEq, Repr

section Search

variable (sfiles : List Sfile) (h : Hashes) (devDev : BitVec 64)

def sfileIs (test : Sfile → Bool) (s : Nat) : Bool := sfiles[s]?.any test

def namedByPath (path : Bytes) : Option Nat :=
  if h.nmCt = 0 then none
  else (h.byNm (hashNm path)).find? (sfileIs sfiles (fun s => path == s.aname))

def namedByInode (lf : Lfile) : Option Nat :=
  match lf.dev with
  | none => none
  | some dev =>
    if h.fdiCt = 0 || !(lf.inpTy == 1 || lf.inpTy == 3) then none
    else (h.byFdi (hashId { dev, ino := lf.inode })).find?
      (sfileIs sfiles (fun s => dev == s.dev && lf.inode == s.i))

/-- Whether a file system of the file's device matches: for an NFS file by the
directory it is mounted on, for another one where it is no NFS mount. -/
def fileSystemMatches (path : Option Bytes) (nfsMount : Option Mounts) (nfs : Bool) (s : Sfile) :
    Bool :=
  if !nfs then s.mp.all (fun mp => !mp.nfs)
  else path.isSome && nfsMount.any (fun mp => !mp.dir.isEmpty && mp.dir.isPrefixOf s.name)

def namedByFileSystem (path : Option Bytes) (nfsMount : Option Mounts) (lf : Lfile) : Option Nat :=
  match lf.dev with
  | none => none
  | some dev =>
    if h.fsdCt = 0 then none
    else (h.byFsd (hashFs dev)).find?
      (sfileIs sfiles (fun s => s.dev == dev && fileSystemMatches path nfsMount lf.nfs s))

def namedByRawDevice (cd : Bool) (lf : Lfile) : Option Nat :=
  match lf.dev, lf.rdev with
  | some dev, some rdev =>
    if h.frdCt = 0 || !cd || dev != devDev || !(lf.inpTy == 1 || lf.inpTy == 3) then none
    else (h.byFrd (hashRd (dev, rdev, lf.inode))).find?
      (sfileIs sfiles (fun s => s.dev == dev && s.rdev == rdev && s.i == lf.inode))
  | _, _ => none

/-- `is_file_named`: the argument whose found flag it sets. -/
def isFileNamed (searchType : Nat) (path : Option Bytes) (nfsMount : Option Mounts) (cd : Bool)
    (lf : Lfile) : Option Nat :=
  let byPath := if searchType = 2 then path.bind (namedByPath sfiles h) else none
  let byInode := if searchType < 2 then namedByInode sfiles h lf else none
  let byFileSystem :=
    if searchType = 1 then namedByFileSystem sfiles h path nfsMount lf else none
  let byRawDevice := if searchType = 0 then namedByRawDevice sfiles h devDev cd lf else none
  byPath <|> byInode <|> byFileSystem <|> byRawDevice

end Search

namespace Sfile

def idKey (s : Sfile) : Option Core.FileId :=
  if s.type then some { dev := s.dev, ino := s.i } else none

def fsKey (s : Sfile) : Option (BitVec 64) := if s.type then none else some s.dev

end Sfile

section Keys

variable (sfiles : List Sfile)

def idAt (i : Nat) : Option Core.FileId := sfiles[i]?.bind Sfile.idKey
def fsAt (i : Nat) : Option (BitVec 64) := sfiles[i]?.bind Sfile.fsKey
def nameAt (i : Nat) : Option Bytes := sfiles[i]?.map Sfile.aname

end Keys

/-- Each table chains the arguments walked. -/
structure Hashed (sfiles : List Sfile) (walked : List Nat) (h : Hashes) : Prop where
  byNm : Chained (nameAt sfiles) hashNm walked h.byNm h.nmCt
  byFdi : Chained (idAt sfiles) hashId walked h.byFdi h.fdiCt
  byFsd : Chained (fsAt sfiles) hashFs walked h.byFsd h.fsdCt

theorem Hashed.hashOne {sfiles : List Sfile} {walked : List Nat} {h : Hashes}
    (hh : Hashed sfiles walked h) (s : Nat) : Hashed sfiles (walked ++ [s]) (hashOne sfiles h s) := by
  unfold Original.hashOne
  cases hs : sfiles[s]? with
  | none =>
    have hnm : nameAt sfiles s = none := by simp [nameAt, hs]
    have hid : idAt sfiles s = none := by simp [idAt, hs]
    have hfs : fsAt sfiles s = none := by simp [fsAt, hs]
    exact ⟨hh.byNm.skip hnm, hh.byFdi.skip hid, hh.byFsd.skip hfs⟩
  | some sf =>
    have hnm : nameAt sfiles s = some sf.aname := by simp [nameAt, hs]
    dsimp only
    -- The table of raw devices is of no other's concern.
    have hchains : Hashed sfiles (walked ++ [s])
        (if sf.type then
          { h with byNm := chainAt h.byNm (hashNm sf.aname) s, nmCt := h.nmCt + 1,
                   byFdi := chainAt h.byFdi (hashId { dev := sf.dev, ino := sf.i }) s,
                   fdiCt := h.fdiCt + 1 }
        else
          { h with byNm := chainAt h.byNm (hashNm sf.aname) s, nmCt := h.nmCt + 1,
                   byFsd := chainAt h.byFsd (hashFs sf.dev) s, fsdCt := h.fsdCt + 1 }) := by
      cases htype : sf.type with
      | true =>
        have hid : idAt sfiles s = some { dev := sf.dev, ino := sf.i } := by
          simp [idAt, hs, Sfile.idKey, htype]
        have hfs : fsAt sfiles s = none := by simp [fsAt, hs, Sfile.fsKey, htype]
        exact ⟨hh.byNm.enter hnm, hh.byFdi.enter hid, hh.byFsd.skip hfs⟩
      | false =>
        have hid : idAt sfiles s = none := by simp [idAt, hs, Sfile.idKey, htype]
        have hfs : fsAt sfiles s = some sf.dev := by simp [fsAt, hs, Sfile.fsKey, htype]
        exact ⟨hh.byNm.enter hnm, hh.byFdi.skip hid, hh.byFsd.enter hfs⟩
    split
    · exact ⟨hchains.byNm, hchains.byFdi, hchains.byFsd⟩
    · exact hchains

theorem Hashed.foldl {sfiles : List Sfile} (walk : List Nat) {walked : List Nat} {h : Hashes}
    (hh : Hashed sfiles walked h) : Hashed sfiles (walked ++ walk) (walk.foldl (Original.hashOne sfiles) h) := by
  induction walk generalizing walked h with
  | nil => simpa using hh
  | cons s walk ih => simpa using ih (hh.hashOne s)

theorem hashSfile_hashed (sfiles : List Sfile) :
    Hashed sfiles (List.range sfiles.length).reverse (hashSfile sfiles) := by
  have hempty : Hashed sfiles [] {} := ⟨Chained.nil, Chained.nil, Chained.nil⟩
  have hchain : argChain sfiles = (List.range sfiles.length).reverse := by
    simp [argChain]
  rw [← hchain]
  exact hempty.foldl (argChain sfiles)

theorem major_eq (dev : BitVec 64) : major dev = (Core.devParts dev).1.setWidth 32 := by
  unfold major Core.devParts
  rw [BitVec.ushiftRight_and_distrib, BitVec.ushiftRight_and_distrib]
  simp only [BitVec.setWidth_or, BitVec.setWidth_and]
  rfl

theorem minor_eq (dev : BitVec 64) : minor dev = (Core.devParts dev).2.setWidth 32 := by
  unfold minor Core.devParts
  rw [BitVec.ushiftRight_and_distrib]
  simp only [BitVec.setWidth_or, BitVec.setWidth_and]
  rfl

theorem setWidth_signExtend (x : BitVec 32) : (x.signExtend 64).setWidth 32 = x := by
  apply BitVec.eq_of_getLsbD_eq
  intro i hi
  have hwide : i < 64 := by omega
  rw [BitVec.getLsbD_setWidth, BitVec.getLsbD_signExtend]
  simp [hi, hwide]

/-- The C's `int` arithmetic and the wrapping 64-bit one agree under the mask. -/
theorem sfHashDevIno_eq (dev ino : BitVec 64) {mod : BitVec 32} {mask : BitVec 64}
    (hmask : mod - 1 = mask.setWidth 32) (hsmall : mask.toNat < 2 ^ 16) :
    sfHashDevIno (major dev) (minor dev) ino mod = Core.devInoBucket dev ino mask := by
  unfold sfHashDevIno Core.devInoBucket
  dsimp only
  generalize hp : Core.devParts dev = parts
  have hwide : ((((major dev + 1) * (minor dev + 1)).signExtend 64 + ino).setWidth 32 * 31415) =
      (((parts.1 + 1) * (parts.2 + 1) + ino) * 31415).setWidth 32 := by
    rw [major_eq, minor_eq, hp]
    rw [BitVec.setWidth_mul _ _ (by omega), BitVec.setWidth_add _ _ (by omega), BitVec.setWidth_add _ _ (by omega)]
    rw [BitVec.setWidth_mul _ _ (by omega), BitVec.setWidth_add _ _ (by omega),
      BitVec.setWidth_add _ _ (by omega), setWidth_signExtend]
    rfl
  rw [hwide, hmask, ← BitVec.setWidth_and]
  generalize ((parts.1 + 1) * (parts.2 + 1) + ino) * 31415 = h
  have hle : (h &&& mask).toNat ≤ mask.toNat := by
    rw [BitVec.toNat_and]
    exact Nat.and_le_right
  rw [Core.toU16, if_pos (by omega), BitVec.toNat_setWidth, Nat.mod_eq_of_lt (by omega)]

theorem hashByNameLoop_eq (nm : Bytes) (i : BitVec 32) (j : Nat) (hj : j ≤ 7) :
    hashByNameLoop i j nm = (nm.foldl Core.nameHashStep (i, j)).1 := by
  induction nm generalizing i j with
  | nil => rfl
  | cons c nm ih =>
    have hnext : (if 7 < j + 1 then 0 else j + 1) = if j = 7 then 0 else j + 1 := by
      split <;> split <;> omega
    rw [hashByNameLoop, hnext, ih _ _ (by split <;> omega)]
    rfl

theorem hashNm_eq (nm : Bytes) : hashNm nm = Core.nameBucket nm := by
  unfold hashNm hashByName Core.nameBucket
  rw [hashByNameLoop_eq nm 0 0 (by omega)]
  generalize (nm.foldl Core.nameHashStep (0, 0)).1 * 31415 = h
  have hle : (h &&& 4095).toNat ≤ 4095 := by
    rw [BitVec.toNat_and]
    exact Nat.and_le_right
  rw [Core.toU16, if_pos (by omega)]
  rfl

theorem hashId_eq (id : Core.FileId) : hashId id = Core.idBucket id :=
  sfHashDevIno_eq id.dev id.ino rfl (by decide)

theorem hashFs_eq (dev : BitVec 64) : hashFs dev = Core.fsBucket dev :=
  sfHashDevIno_eq dev 0 rfl (by decide)

end Lsof.Original
