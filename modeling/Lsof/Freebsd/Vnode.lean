import Lsof.Core.Name

/-! # The row of a FreeBSD vnode

`vnode` builds the row of a vnode record, following nullfs mounts to the file
system beneath them. NAME is a base and, where the first layer is nullfs, an
addition that names the mount.
-/

namespace Lsof.Freebsd

open Lsof.Basis Lsof.Core List

def VNOVAL : BitVec 64 := BitVec.allOnes 64

/-- The parts of a `kinfo_file` that a vnode's row is built from. -/
structure KFile where
  vnodeType : BitVec 32
  fileFsid : BitVec 64
  fileFileid : BitVec 64
  fileRdev : BitVec 64
  fileSize : BitVec 64
  fileNlink : BitVec 64
  path : Bytes
  deriving DecidableEq, Repr

structure Vfs where
  dir : Bytes
  fsname : Bytes
  typnm : Bytes
  fsid : BitVec 64
  deriving DecidableEq, Repr

/-- What a row needs from outside its record. What file system is found may change from
one look-up to the next. -/
structure Env where
  vfs : (lookup : Nat) → (fsid : BitVec 64) → (path : Bytes) → Option Vfs
  lock : (pid : Int) → (fsid fileid : BitVec 64) → Option LockKind
  devName : (rdev : BitVec 64) → Option Text

def major (d : BitVec 64) : Nat := (((d >>> 32) &&& 0xffffff00) ||| ((d >>> 8) &&& 0xff)).toNat % 2 ^ 32

def minor (d : BitVec 64) : Nat := (((d >>> 24) &&& 0xff00) ||| (d &&& 0xffff00ff)).toNat % 2 ^ 32

def devString (d : BitVec 64) : Text := Text.ofNat (major d) ++ ',' :: Text.ofNat (minor d)

inductive Ntype where
  | reglr
  | nfs
  | proc
  | pseu
  | tmp
  | fifo
  deriving DecidableEq, Repr

def eqIgnoreAsciiCase (a b : Bytes) : Bool :=
  let lower : UInt8 → UInt8 := fun x => if 65 ≤ x && x ≤ 90 then x + 32 else x
  a.map lower == b.map lower

def Vfs.ntype (v : Vfs) : Ntype :=
  if eqIgnoreAsciiCase v.typnm (Text.bytes "nfs".toList) then .nfs
  else if eqIgnoreAsciiCase v.typnm (Text.bytes "procfs".toList) then .proc
  else if eqIgnoreAsciiCase v.typnm (Text.bytes "pseudofs".toList) then .pseu
  else if eqIgnoreAsciiCase v.typnm (Text.bytes "tmpfs".toList) then .tmp
  else .reglr

def Vfs.isNull (v : Vfs) : Bool :=
  v.typnm == Text.bytes "null".toList || v.typnm == Text.bytes "nullfs".toList

def vFIFO : BitVec 32 := 7

def ntypeOf (v : Option Vfs) (vtype : BitVec 32) : Ntype :=
  let ntype := (v.map Vfs.ntype).getD .reglr
  if ntype = .reglr ∧ vtype = vFIFO then .fifo else ntype

def nullfsText (v : Vfs) : Text :=
  "(nullfs ".toList ++ Utf8.decodeLossy v.fsname ++ " on ".toList ++ Utf8.decodeLossy v.dir ++
    (if v.fsid = VNOVAL then [] else " (".toList ++ devString v.fsid ++ [')']) ++ [')']

def Vfs.pathBeneath (v : Vfs) (path : Bytes) : Bytes :=
  if path.length ≥ v.dir.length then v.fsname ++ path.drop v.dir.length else path

structure Layers where
  f : OpenFile
  fsid : BitVec 64
  path : Bytes
  lookups : List (BitVec 64 × Bytes)

structure Bottom where
  vfs : Option Vfs
  ntype : Ntype
  layers : Layers

section Vnode

variable (host : Host) (env : Env) (k : KFile) (pid : Int)

def Layers.lookup (st : Layers) : Option Vfs := env.vfs st.lookups.length st.fsid st.path

def Layers.looked (st : Layers) (v : Option Vfs) : Layers where
  f := { st.f with lock := env.lock pid k.fileFsid k.fileFileid }
  fsid := (v.map Vfs.fsid).getD st.fsid
  path := st.path
  lookups := st.lookups ++ [(st.fsid, st.path)]

def Layers.beneath (st : Layers) (v : Vfs) : Layers where
  f := if st.lookups.length = 1 then st.f.addNameAddition host (nullfsText v) else st.f
  fsid := VNOVAL
  path := v.pathBeneath st.path
  lookups := st.lookups

/-- The loop, of at most so many look-ups; where it stood if that was too few. -/
def vnodeLoop : Nat → Layers → Except Layers Bottom
  | 0, st => .error st
  | turns + 1, st =>
    match st.lookup env with
    | some v =>
      if v.isNull then vnodeLoop turns ((st.looked env k pid (some v)).beneath host v)
      else
        .ok
          { vfs := some v
            ntype := ntypeOf (some v) k.vnodeType
            layers := st.looked env k pid (some v) }
    | none =>
      .ok { vfs := none, ntype := ntypeOf none k.vnodeType, layers := st.looked env k pid none }

def vnodeLayers (f : OpenFile) : Except Layers Bottom :=
  vnodeLoop host env k pid 1024 { f, fsid := k.fileFsid, path := k.path, lookups := [] }

def vnodeLookups (f : OpenFile) : List (BitVec 64 × Bytes) :=
  match vnodeLayers host env k pid f with
  | .error st => st.lookups
  | .ok b => b.layers.lookups

def procType (path : Bytes) : FileType :=
  if !path.contains 47 then .noType
  else
    let last := path.rtakeWhile (· != 47)
    if last = Text.bytes "cmdline".toList ∨ last = Text.bytes "dbregs".toList ∨ last = Text.bytes "osrel".toList ∨
        last = Text.bytes "rlimit".toList then .noType
    else if last = Text.bytes "etype".toList then .other "PETY".toList
    else if last = Text.bytes "file".toList then .other "PFIL".toList
    else if last = Text.bytes "fpregs".toList then .other "PFPR".toList
    else if last = Text.bytes "map".toList then .other "PMAP".toList
    else if last = Text.bytes "mem".toList then .other "PMEM".toList
    else if last = Text.bytes "note".toList then .other "PNTF".toList
    else if last = Text.bytes "notepg".toList then .other "PGID".toList
    else if last = Text.bytes "regs".toList then .other "PREG".toList
    else if last = Text.bytes "status".toList then .other "PSTA".toList
    else .other "PDIR".toList

/-- The type of a vnode, by its number: an unknown one is printed in octal. -/
def vnodeFileType (vtype : BitVec 32) : FileType :=
  if vtype = 0 then .other "VNON".toList
  else if vtype = 1 then .other "VREG".toList
  else if vtype = 2 then .other "VDIR".toList
  else if vtype = 3 then .other "VBLK".toList
  else if vtype = 4 then .other "VCHR".toList
  else if vtype = 5 then .other "VLNK".toList
  else if vtype = 6 then .other "SOCK".toList
  else if vtype = 8 then .other "VBAD".toList
  else if vtype = vFIFO then .other "FIFO".toList
  else .other (List.leftpad 4 '0' (Nat.toDigits 8 (vtype &&& 0xfff).toNat))

def isDevice (vtype : BitVec 32) : Bool := vtype == 3 || vtype == 4

def vnodeSize (b : Bottom) : Option Nat :=
  match b.ntype with
  | .fifo => none
  | .proc => some k.fileSize.toNat
  | .nfs => some k.fileSize.toNat
  | .pseu => some 0
  | .reglr => if k.vnodeType = 1 ∨ k.vnodeType = 2 then some k.fileSize.toNat else none
  | .tmp => if k.vnodeType = 1 ∨ k.vnodeType = 2 then some k.fileSize.toNat else none

def devOf (fsid : BitVec 64) : Option (BitVec 64) := if fsid = VNOVAL then none else some fsid

def KFile.rdev : Option (BitVec 64) := if isDevice k.vnodeType then some k.fileRdev else none

def nonZero32 (d : BitVec 64) : Option { n : BitVec 32 // n ≠ 0 } :=
  if d.toNat < 2 ^ 32 then
    if h : d.setWidth 32 ≠ 0 then some ⟨d.setWidth 32, h⟩ else none
  else none

/-- The name of a vnode that is not named by its path: a revoked one, or a device that
`/dev` names. -/
def vnodeName (dev : Option (BitVec 64)) : Option Text :=
  let revoked := if k.vnodeType = 8 then some "(revoked)".toList else none
  if isDevice k.vnodeType && dev.isSome then (k.rdev.bind env.devName).or revoked else revoked

def vnodeBase (vfs : Option Vfs) (dev : Option (BitVec 64)) : Text :=
  match vnodeName env k dev with
  | some n => n
  | none =>
    if k.path.isEmpty then []
    else
      Utf8.decodeLossy k.path ++
        match vfs with
        | some v => " (".toList ++ Utf8.decodeLossy v.fsname ++ [')']
        | none => []

def vnodeCells (b : Bottom) : OpenFile :=
  { b.layers.f with
    node := if k.fileFileid ≠ VNOVAL then some (Text.ofNat k.fileFileid.toNat) else b.layers.f.node
    size := vnodeSize k b
    links := if k.fileNlink.toNat < 2 ^ 32 then some k.fileNlink.toNat else none
    fsDevice := devOf b.layers.fsid
    rdev := k.rdev.bind nonZero32
    device := (k.rdev.or (devOf b.layers.fsid)).map devString
    fileType :=
      if k.vnodeType ≠ 8 ∧ b.ntype = .proc then procType b.layers.path else vnodeFileType k.vnodeType }

def vnode (f : OpenFile) : OpenFile :=
  match vnodeLayers host env k pid f with
  -- The addition that the row came to has its text written over and its record kept.
  | .error st => { st.f with name := "too many overlaid nodes".toList }
  | .ok b => (vnodeCells k b).setBaseName (vnodeBase env k b.vfs (devOf b.layers.fsid))

end Vnode

/-! ## The layers of a vnode

What each look-up is of and what it finds, whatever the row holds. -/

section Stack

variable (env : Env) (k : KFile)

def layerAt : Nat → BitVec 64 × Bytes
  | 0 => (k.fileFsid, k.path)
  | n + 1 =>
    let asked := layerAt n
    match env.vfs n asked.1 asked.2 with
    | some v => (VNOVAL, v.pathBeneath asked.2)
    | none => asked

def foundAt (n : Nat) : Option Vfs := env.vfs n (layerAt env k n).1 (layerAt env k n).2

def nullAt (n : Nat) : Bool := (foundAt env k n).any Vfs.isNull

def fsidAt (n : Nat) : BitVec 64 := ((foundAt env k n).map Vfs.fsid).getD (layerAt env k n).1

def bottomAt : Option Nat := (List.range 1024).find? (fun n => !nullAt env k n)

def baseOf : Text :=
  ((bottomAt env k).map (fun n => vnodeBase env k (foundAt env k n) (devOf (fsidAt env k n)))).getD
    "too many overlaid nodes".toList

def additionOf : Option Text := ((foundAt env k 0).filter Vfs.isNull).map nullfsText

end Stack

section Runs

variable (host : Host) (env : Env) (k : KFile) (pid : Int)

/-- The addition of a row after so many layers: none before the first. -/
def additionAfter : Nat → Option OpenFile.Addition
  | 0 => none
  | _ + 1 => (additionOf env k).map (fun text => { text, printed := false })

structure Layers.After (n : Nat) (st : Layers) : Prop where
  asked : (st.fsid, st.path) = layerAt env k n
  lookups : st.lookups = (List.range n).map (layerAt env k)
  parts : st.f.HasParts [] (additionAfter env k n)

structure Bottom.Found (n : Nat) (b : Bottom) : Prop where
  vfs : b.vfs = foundAt env k n
  fsid : b.layers.fsid = fsidAt env k n
  lookups : b.layers.lookups = (List.range (n + 1)).map (layerAt env k)
  parts : b.layers.f.HasParts [] (additionAfter env k (n + 1))

variable {env k}

variable {st : Layers} {n : Nat}

theorem Layers.After.lookup (h : st.After env k n) :
    st.lookup env = foundAt env k n := by
  have hasked := Prod.ext_iff.mp h.asked
  simp only at hasked
  rw [Layers.lookup, foundAt, h.lookups, hasked.1, hasked.2, length_map, length_range]

theorem Layers.After.looked_lookups (h : st.After env k n) (v : Option Vfs) :
    (st.looked env k pid v).lookups = (List.range (n + 1)).map (layerAt env k) := by
  rw [Layers.looked, h.asked, h.lookups, range_succ, map_append]
  rfl

theorem additionAfter_succ (h : n = 0 → additionOf env k = none) :
    additionAfter env k (n + 1) = additionAfter env k n := by
  cases n with
  | zero => simp [additionAfter, h rfl]
  | succ n => rfl

theorem additionOf_of_null {v : Vfs} (hv : foundAt env k 0 = some v) (hnull : v.isNull = true) :
    additionOf env k = some (nullfsText v) := by
  simp [additionOf, hv, hnull]

theorem additionOf_of_not_null (h : nullAt env k 0 = false) : additionOf env k = none := by
  cases hv : foundAt env k 0 with
  | none => simp [additionOf, hv]
  | some v =>
    have hnull : v.isNull = false := by simpa [nullAt, hv] using h
    simp [additionOf, hv, hnull]

theorem Layers.After.beneath (h : st.After env k n) {v : Vfs}
    (hv : foundAt env k n = some v) (hnull : v.isNull = true) :
    ((st.looked env k pid (some v)).beneath host v).After env k (n + 1) := by
  have hasked := Prod.ext_iff.mp h.asked
  simp only at hasked
  have hlen : (st.looked env k pid (some v)).lookups.length = n + 1 := by
    rw [h.looked_lookups pid]
    simp
  constructor
  · rw [layerAt]
    have hfound : env.vfs n (layerAt env k n).1 (layerAt env k n).2 = some v := hv
    simp only [hfound]
    rw [← hasked.2]
    rfl
  · exact h.looked_lookups pid (some v)
  · cases n with
    | zero =>
      have hname : st.f.name = [] := h.parts.1
      have hrecord : st.f.nameAddition = none := h.parts.2
      rw [Layers.beneath, hlen, if_pos rfl]
      simp [additionAfter, additionOf_of_null hv hnull, OpenFile.addNameAddition,
        OpenFile.hasPrintedAddition, Layers.looked, hrecord, OpenFile.pushAddition, hname,
        OpenFile.HasParts, NameAddition.at?]
    | succ n =>
      rw [Layers.beneath, hlen, if_neg (by omega)]
      exact h.parts

theorem Layers.After.found (h : st.After env k n) (hnull : nullAt env k n = false) :
    Bottom.Found env k n
      { vfs := foundAt env k n
        ntype := ntypeOf (foundAt env k n) k.vnodeType
        layers := st.looked env k pid (foundAt env k n) } where
  vfs := rfl
  fsid := by
    have hasked := Prod.ext_iff.mp h.asked
    rw [fsidAt, ← hasked.1]
    rfl
  lookups := h.looked_lookups pid _
  parts := by
    rw [additionAfter_succ (fun hn => additionOf_of_not_null (hn ▸ hnull))]
    exact h.parts

theorem vnodeLoop_spec (turns : Nat) (h : st.After env k n) :
    match (List.range' n turns).find? (fun m => !nullAt env k m) with
    | some m => ∃ b, vnodeLoop host env k pid turns st = .ok b ∧ b.Found env k m
    | none => ∃ st', vnodeLoop host env k pid turns st = .error st' ∧ st'.After env k (n + turns) := by
  induction turns generalizing n st with
  | zero => exact ⟨st, rfl, h⟩
  | succ turns ih =>
    rw [range'_succ, find?_cons, vnodeLoop, h.lookup]
    cases hv : foundAt env k n with
    | none =>
      have hnull : nullAt env k n = false := by simp [nullAt, hv]
      have hfound := h.found pid hnull
      rw [hv] at hfound
      simp only [hnull, Bool.not_false]
      exact ⟨_, rfl, hfound⟩
    | some v =>
      have hnullAt : nullAt env k n = v.isNull := by simp [nullAt, hv]
      cases hnull : v.isNull with
      | false =>
        have hfound := h.found pid (hnullAt.trans hnull)
        rw [hv] at hfound
        simp only [hnullAt, hnull, Bool.not_false, Bool.false_eq_true, if_false]
        exact ⟨_, rfl, hfound⟩
      | true =>
        have hnext := ih (h.beneath host pid hv hnull)
        simp only [hnullAt, hnull, Bool.not_true, if_true]
        rwa [Nat.add_assoc, Nat.add_comm 1 turns] at hnext

end Runs

/-- What `printname()` prints of a name and its addition, from `print_nma` on: a blank
between them where there was a name to print. -/
def printNma (nm : Text) : Option Text → Text
  | none => nm
  | some nma => if nm.isEmpty then nma else nm ++ ' ' :: nma

structure NamedBy (f : OpenFile) (base : Text) (addition : Option Text) : Prop where
  name : f.name = printNma base addition
  baseName : f.baseName = if base.isEmpty then none else some base

theorem nullfsText_ne_nil (v : Vfs) : nullfsText v ≠ [] :=
  append_ne_nil_of_right_ne_nil _ (cons_ne_nil _ _)

variable {env : Env} {k : KFile}

theorem additionOf_ne_nil {text : Text} (h : additionOf env k = some text) :
    text ≠ [] := by
  rcases Option.map_eq_some_iff.mp h with ⟨v, _, hv⟩
  rw [← hv]
  exact nullfsText_ne_nil v

variable {f : OpenFile}

theorem namedBy_of_none (h : f.HasParts [] none) (base : Text) :
    NamedBy (f.setBaseName base) base none where
  name := (h.setBaseName_none base).1
  baseName := by rw [OpenFile.baseName, (h.setBaseName_none base).baseText]

theorem namedBy_iff_of_some {text : Text} (h : f.HasParts [] (some ⟨text, false⟩))
    (htext : text ≠ []) (base : Text) :
    NamedBy (f.setBaseName base) base (some text) ↔ base.byteLen < 32767 := by
  have hset := h.setBaseName_some htext base
  constructor
  · intro hnamed
    by_contra hlong
    have hbase : (f.setBaseName base).baseText = (f.setBaseName base).name := by
      simp [OpenFile.baseText, hset.2, NameAddition.at?, hlong]
    have hne : base ≠ [] := by
      intro hnil
      simp [hnil] at hlong
    -- The whole NAME is taken for the base, and it is longer.
    have hwhole := hnamed.baseName
    simp [OpenFile.baseName, hbase, hset.1, hne] at hwhole
  · intro hfit
    constructor
    · exact hset.1
    · have hrecord := hset.2
      rw [NameAddition.at?_of_lt _ hfit] at hrecord
      have hbase : (f.setBaseName base).baseText = base := by
        cases base with
        | nil => simp [OpenFile.baseText, hrecord, Text.splitAt?]
        | cons c base =>
          have hname : (f.setBaseName (c :: base)).name = (c :: base) ++ ' ' :: text := hset.1
          simp only [OpenFile.baseText, hrecord, hname, Option.bind_some, Text.splitAt?_append]
      rw [OpenFile.baseName, hbase]

theorem bottomAt_eq (env : Env) (k : KFile) :
    bottomAt env k = (List.range' 0 1024).find? (fun n => !nullAt env k n) := by
  rw [bottomAt, range_eq_range']

theorem after_zero (env : Env) (k : KFile) (h : f.HasParts [] none) :
    Layers.After env k 0 { f, fsid := k.fileFsid, path := k.path, lookups := [] } where
  asked := rfl
  lookups := rfl
  parts := h

theorem vnodeLayers_ok (host : Host) (pid : Int)
    (h : f.HasParts [] none) {n : Nat} (hn : bottomAt env k = some n) :
    ∃ b, vnodeLayers host env k pid f = .ok b ∧ b.Found env k n := by
  have hspec := vnodeLoop_spec host pid 1024 (after_zero env k h)
  rw [← bottomAt_eq, hn] at hspec
  exact hspec

theorem vnodeLayers_error (host : Host) (pid : Int) (h : f.HasParts [] none) (hn : bottomAt env k = none) :
    ∃ st, vnodeLayers host env k pid f = .error st ∧ st.After env k 1024 := by
  have hspec := vnodeLoop_spec host pid 1024 (after_zero env k h)
  rw [← bottomAt_eq, hn, Nat.zero_add] at hspec
  exact hspec

theorem bottomAt_some {n : Nat} (h : bottomAt env k = some n) :
    n < 1024 ∧ nullAt env k n = false := by
  unfold bottomAt at h
  constructor
  · exact mem_range.mp (mem_of_find?_eq_some h)
  · simpa using find?_some h

theorem bottomAt_none_iff :
    bottomAt env k = none ↔ ∀ n < 1024, nullAt env k n = true := by
  unfold bottomAt
  simp [find?_eq_none]

theorem length_vnodeLookups_le (host : Host) (env : Env) (k : KFile) (pid : Int)
    (h : f.HasParts [] none) : (vnodeLookups host env k pid f).length ≤ 1024 := by
  cases hn : bottomAt env k with
  | none =>
    rcases vnodeLayers_error host pid h hn with ⟨st, hst, hafter⟩
    simp [vnodeLookups, hst, hafter.lookups]
  | some n =>
    rcases vnodeLayers_ok host pid h hn with ⟨b, hb, hfound⟩
    have hlt := (bottomAt_some hn).1
    simp only [vnodeLookups, hb, hfound.lookups, length_map, length_range]
    omega

theorem additionOf_of_nullAt (h : nullAt env k 0 = true) :
    ∃ text, additionOf env k = some text := by
  cases hv : foundAt env k 0 with
  | none => simp [nullAt, hv] at h
  | some v => exact ⟨nullfsText v, additionOf_of_null hv (by simpa [nullAt, hv] using h)⟩

/-- Where the layers do not end, the addition's record is left with no base before it. -/
theorem vnode_of_bottomAt_none (host : Host) (pid : Int) (h : f.HasParts [] none) (hn : bottomAt env k = none) :
    (vnode host env k pid f).name = "too many overlaid nodes".toList ∧
      (vnode host env k pid f).baseName = none := by
  rcases vnodeLayers_error host pid h hn with ⟨st, hst, hafter⟩
  have hrow : vnode host env k pid f = { st.f with name := "too many overlaid nodes".toList } := by
    simp only [vnode, hst]
  rcases additionOf_of_nullAt (bottomAt_none_iff.mp hn 0 (by omega)) with ⟨text, htext⟩
  have hparts := hafter.parts
  rw [additionAfter, htext] at hparts
  have hrecord : st.f.nameAddition = some ⟨0, false, by omega⟩ := hparts.2.2
  have hbase : { st.f with name := "too many overlaid nodes".toList }.baseText = [] := by
    unfold OpenFile.baseText
    rw [hrecord]
    rfl
  rw [hrow]
  constructor
  · rfl
  · rw [OpenFile.baseName, hbase]
    rfl

theorem baseOf_of_bottomAt_none (h : bottomAt env k = none) :
    baseOf env k = "too many overlaid nodes".toList := by
  rw [baseOf, h, Option.map_none, Option.getD_none]

theorem not_namedBy_of_bottomAt_none {host : Host} {pid : Int}
    (h : f.HasParts [] none) (hn : bottomAt env k = none) :
    ¬ NamedBy (vnode host env k pid f) (baseOf env k) (additionOf env k) := by
  intro hnamed
  have hbase := hnamed.baseName
  rw [(vnode_of_bottomAt_none host pid h hn).2, baseOf_of_bottomAt_none hn] at hbase
  cases hbase

theorem namedBy_iff_of_ok {host : Host} {pid : Int}
    (h : f.HasParts [] none) {n : Nat} (hn : bottomAt env k = some n) :
    NamedBy (vnode host env k pid f) (baseOf env k) (additionOf env k) ↔
      (nullAt env k 0 = true → (baseOf env k).byteLen < 32767) := by
  rcases vnodeLayers_ok host pid h hn with ⟨b, hb, hfound⟩
  have hvnode : vnode host env k pid f = (vnodeCells k b).setBaseName (baseOf env k) := by
    simp only [vnode, hb, baseOf, hn, hfound.vfs, hfound.fsid, Option.map_some, Option.getD_some]
  have hparts : (vnodeCells k b).HasParts [] (additionAfter env k (n + 1)) := hfound.parts
  rw [hvnode]
  cases hnull : nullAt env k 0 with
  | false =>
    have hnone := additionOf_of_not_null hnull
    rw [additionAfter, hnone] at hparts
    rw [hnone]
    simp [namedBy_of_none hparts]
  | true =>
    rcases additionOf_of_nullAt hnull with ⟨text, htext⟩
    rw [additionAfter, htext] at hparts
    rw [htext, namedBy_iff_of_some hparts (additionOf_ne_nil htext)]
    simp

/-- `vnode` looks up at most 1024 file systems, and names a row by its base and the
addition of its first layer where it comes to a layer that is not nullfs and a base
before an addition is no longer than can be recorded. -/
theorem vnode_named_iff (host : Host) (env : Env) (k : KFile) (pid : Int) (f : OpenFile)
    (hname : f.name = []) (haddition : f.nameAddition = none) :
    (vnodeLookups host env k pid f).length ≤ 1024 ∧
      (NamedBy (vnode host env k pid f) (baseOf env k) (additionOf env k) ↔
        (∃ n < 1024, nullAt env k n = false) ∧
          (nullAt env k 0 = true → (baseOf env k).byteLen ≤ 32766)) := by
  have hparts : f.HasParts [] none := ⟨hname, haddition⟩
  constructor
  · exact length_vnodeLookups_le host env k pid hparts
  · cases hn : bottomAt env k with
    | none =>
      have hnull := bottomAt_none_iff.mp hn
      constructor
      · intro hnamed
        exact absurd hnamed (not_namedBy_of_bottomAt_none hparts hn)
      · intro hends
        rcases hends.1 with ⟨n, hlt, hother⟩
        simp [hnull n hlt] at hother
    | some n =>
      have hends : ∃ n < 1024, nullAt env k n = false := ⟨n, bottomAt_some hn⟩
      rw [namedBy_iff_of_ok hparts hn]
      constructor
      · intro hfit
        exact ⟨hends, fun hnull => Nat.le_of_lt_succ (hfit hnull)⟩
      · intro h hnull
        exact Nat.lt_succ_of_le (h.2 hnull)

/-- Mounts of nullfs on themselves, without end. -/
def endlessEnv : Env where
  vfs := fun _ _ _ =>
    some
      { dir := Text.bytes "/a".toList
        fsname := Text.bytes "/a".toList
        typnm := Text.bytes "nullfs".toList
        fsid := VNOVAL }
  lock := fun _ _ _ => none
  devName := fun _ => none

def regularFile : KFile where
  vnodeType := 1
  fileFsid := 5
  fileFileid := 2
  fileRdev := 0
  fileSize := 0
  fileNlink := 1
  path := Text.bytes "/a/f".toList

def cwdRow : OpenFile where
  fd := .cwd
  fileType := .noType

theorem vnode_endless_unnamed :
    (vnode .freebsd endlessEnv regularFile 1 cwdRow).name = "too many overlaid nodes".toList ∧
      (vnode .freebsd endlessEnv regularFile 1 cwdRow).baseName = none ∧
      baseOf endlessEnv regularFile = "too many overlaid nodes".toList ∧
      additionOf endlessEnv regularFile = some "(nullfs /a on /a)".toList ∧
      ¬ NamedBy (vnode .freebsd endlessEnv regularFile 1 cwdRow) (baseOf endlessEnv regularFile)
        (additionOf endlessEnv regularFile) := by
  have hparts : cwdRow.HasParts [] none := ⟨rfl, rfl⟩
  have hnone : bottomAt endlessEnv regularFile = none := by
    apply bottomAt_none_iff.mpr
    intro n _
    rfl
  have hrow := vnode_of_bottomAt_none .freebsd 1 hparts hnone
  refine ⟨hrow.1, hrow.2, baseOf_of_bottomAt_none hnone, ?_, not_namedBy_of_bottomAt_none hparts hnone⟩
  decide

/-- A mount of nullfs on a file system of another type. -/
def overlaidEnv : Env where
  vfs := fun n _ _ =>
    some
      { dir := Text.bytes "/a".toList
        fsname := Text.bytes "/b".toList
        typnm := if n = 0 then Text.bytes "nullfs".toList else Text.bytes "ufs".toList
        fsid := VNOVAL }
  lock := fun _ _ _ => none
  devName := fun _ => none

theorem vnode_overlaid_named :
    NamedBy (vnode .freebsd overlaidEnv regularFile 1 cwdRow) (baseOf overlaidEnv regularFile)
      (additionOf overlaidEnv regularFile) ∧
      additionOf overlaidEnv regularFile = some "(nullfs /b on /a)".toList := by
  have hends : ∃ n < 1024, nullAt overlaidEnv regularFile n = false := ⟨1, by omega, by decide⟩
  have hbottom : bottomAt overlaidEnv regularFile = some 1 := by
    unfold bottomAt
    rw [show (1024 : Nat) = 1022 + 2 from rfl, range_eq_range', range'_succ, range'_succ]
    rfl
  have hbase : baseOf overlaidEnv regularFile = "/a/f (/b)".toList := by
    rw [baseOf, hbottom]
    decide
  constructor
  · apply (vnode_named_iff .freebsd overlaidEnv regularFile 1 cwdRow rfl rfl).2.mpr
    constructor
    · exact hends
    · intro _
      rw [hbase]
      decide
  · decide

end Lsof.Freebsd
