import Lsof.Basis.Buffer
import Lsof.Core.Model

/-! # Overlaid file systems in the C's FreeBSD dialect

`process_vnode()` follows nullfs mounts: it writes the path beneath each over
the path it has, in one buffer, and looks again.
-/

namespace Lsof.Original

open Lsof.Basis List

structure LVfs where
  dir : Bytes
  fsname : Bytes
  typnm : Bytes
  fsid : BitVec 64
  deriving DecidableEq, Repr

def LVfs.isNull (v : LVfs) : Bool :=
  v.typnm == Text.bytes "null".toList || v.typnm == Text.bytes "nullfs".toList

def VNOVAL : BitVec 64 := BitVec.allOnes 64

/-- The size of `vfs_path`. -/
def PATH_MAX : Nat := 1024

/-- The size of the names of a mount, their NUL included. -/
def MNAMELEN : Nat := 1024

/-- `vfs_path`, the string in it, and what else changes from layer to layer. `sc` is
how often the file system was looked up. -/
structure Overlaid where
  mem : Memory UInt8
  path : Bytes
  sc : Nat
  fsid : BitVec 64
  nma : Option Bytes

section Layers

variable (reports : Nat → Option LVfs) (devText : BitVec 64 → Bytes)

/-- The name addition of the first layer, as `tbuf` holds it. -/
def nullfsAddition (v : LVfs) : Bytes :=
  (Text.bytes "(nullfs ".toList ++ v.fsname ++ Text.bytes " on ".toList ++ v.dir ++
    (if v.fsid = VNOVAL then [] else Text.bytes " (".toList ++ devText v.fsid ++ Text.bytes ")".toList) ++
    Text.bytes ")".toList).take 1022

/-- `memmove()` of what follows the directory, its NUL included, and `memcpy()` of the
source. -/
def rewritePath (v : LVfs) (st : Overlaid) : Overlaid :=
  if st.path.length ≥ v.dir.length then
    let moved := st.mem.store v.fsname.length
      (st.mem.read v.dir.length (st.path.length - v.dir.length + 1))
    { st with mem := moved.store 0 v.fsname, path := v.fsname ++ st.path.drop v.dir.length }
  else st

/-- What is found beneath the layers; nothing where there are too many of them. -/
structure Beneath where
  st : Overlaid
  vfs : Option (Option LVfs)

/-- The turns from `process_overlaid_node` on. -/
def overlaidLoop : Nat → Overlaid → Beneath
  | 0, st => { st, vfs := none }
  | turns + 1, st =>
    let st := { st with sc := st.sc + 1 }
    match reports (st.sc - 1) with
    | none => { st, vfs := some none }
    | some v =>
      let st := { st with fsid := v.fsid }
      if v.isNull then
        let st := if st.sc = 1 then { st with nma := some (nullfsAddition devText v) } else st
        overlaidLoop turns (rewritePath v { st with fsid := VNOVAL })
      else { st, vfs := some (some v) }

/-- `process_vnode()` up to the file system the vnode is on. -/
def processVnode (fsid : BitVec 64) (path : Bytes) (m : Memory UInt8) : Beneath :=
  overlaidLoop reports devText 1024 { mem := m.store 0 (path ++ [0]), path, sc := 0, fsid, nma := none }

def pathBeneath (v : LVfs) (path : Bytes) : Bytes :=
  if v.dir.length ≤ path.length then v.fsname ++ path.drop v.dir.length else path

def pathAfter (path : Bytes) : Nat → Bytes
  | 0 => path
  | n + 1 =>
    match reports n with
    | some v => pathBeneath v (pathAfter path n)
    | none => pathAfter path n

def AllNull (n : Nat) : Prop := ∀ j ≤ n, ∃ v, reports j = some v ∧ v.isNull = true

variable {reports devText}

theorem rewritePath_path (v : LVfs) (st : Overlaid) : (rewritePath v st).path = pathBeneath v st.path := by
  unfold rewritePath pathBeneath
  split <;> rfl

theorem rewritePath_sc (v : LVfs) (st : Overlaid) : (rewritePath v st).sc = st.sc := by
  unfold rewritePath
  split <;> rfl

variable {st : Overlaid}

theorem rewritePath_mem (v : LVfs) (h : st.mem.Holds 0 st.path) :
    (rewritePath v st).mem.Holds 0 (rewritePath v st).path ∧
      ∀ size, st.path.length < size →
        ((rewritePath v st).mem.Within size ↔ st.mem.Within size ∧ (rewritePath v st).path.length < size) := by
  unfold rewritePath
  by_cases hlen : st.path.length ≥ v.dir.length
  · rw [if_pos hlen]
    refine ⟨h.replace hlen v.fsname, ?_⟩
    intro size hsize
    rw [Memory.within_store, Memory.within_store, Memory.length_read]
    simp only [length_append, length_drop]
    constructor
    · intro hwrites
      exact ⟨hwrites.1.1, by omega⟩
    · intro hnew
      exact ⟨⟨hnew.1, by omega⟩, by omega⟩
  · rw [if_neg hlen]
    exact ⟨h, fun size hsize => ⟨fun hin => ⟨hin, hsize⟩, fun hin => hin.1⟩⟩

theorem within_of_rewritePath {v : LVfs} {size : Nat} (h : (rewritePath v st).mem.Within size) :
    st.mem.Within size := by
  unfold rewritePath at h
  by_cases hlen : st.path.length ≥ v.dir.length
  · rw [if_pos hlen, Memory.within_store, Memory.within_store] at h
    exact h.1.1
  · rwa [if_neg hlen] at h

def nextLayer (devText : BitVec 64 → Bytes) (v : LVfs) (st : Overlaid) : Overlaid :=
  rewritePath v { st with
    sc := st.sc + 1, fsid := VNOVAL
    nma := if st.sc + 1 = 1 then some (nullfsAddition devText v) else st.nma }

variable {turns : Nat}

theorem overlaidLoop_null {v : LVfs} (hv : reports st.sc = some v) (hnull : v.isNull = true) :
    overlaidLoop reports devText (turns + 1) st = overlaidLoop reports devText turns (nextLayer devText v st) := by
  rw [overlaidLoop]
  dsimp only
  rw [Nat.add_sub_cancel, hv]
  dsimp only
  rw [if_pos hnull, nextLayer]
  by_cases hfirst : st.sc + 1 = 1
  · rw [if_pos hfirst, if_pos hfirst]
  · rw [if_neg hfirst, if_neg hfirst]

theorem overlaidLoop_other (h : ¬ ∃ v, reports st.sc = some v ∧ v.isNull = true) :
    (overlaidLoop reports devText (turns + 1) st).st.mem = st.mem ∧
      (overlaidLoop reports devText (turns + 1) st).st.sc = st.sc + 1 := by
  rw [overlaidLoop]
  dsimp only
  rw [Nat.add_sub_cancel]
  cases hv : reports st.sc with
  | none => exact ⟨rfl, rfl⟩
  | some v =>
    dsimp only
    rw [if_neg fun hnull => h ⟨v, hv, hnull⟩]
    exact ⟨rfl, rfl⟩

theorem within_of_overlaidLoop {size : Nat}
    (h : (overlaidLoop reports devText turns st).st.mem.Within size) : st.mem.Within size := by
  induction turns generalizing st with
  | zero => exact h
  | succ turns ih =>
    by_cases hnull : ∃ v, reports st.sc = some v ∧ v.isNull = true
    · rcases hnull with ⟨v, hv, hnull⟩
      rw [overlaidLoop_null hv hnull] at h
      have hnext := ih h
      rw [nextLayer] at hnext
      have hbefore := within_of_rewritePath hnext
      exact hbefore
    · rwa [(overlaidLoop_other hnull).1] at h

theorem overlaidLoop_sc (turns : Nat) (st : Overlaid) :
    (overlaidLoop reports devText turns st).st.sc ≤ st.sc + turns := by
  induction turns generalizing st with
  | zero => exact Nat.le_refl _
  | succ turns ih =>
    by_cases hnull : ∃ v, reports st.sc = some v ∧ v.isNull = true
    · rcases hnull with ⟨v, hv, hnull⟩
      have hsc : (nextLayer devText v st).sc = st.sc + 1 := rewritePath_sc v _
      have hrest := ih (nextLayer devText v st)
      rw [overlaidLoop_null hv hnull]
      omega
    · rw [(overlaidLoop_other hnull).2]
      omega

/-- The turns that are left, from a path that fits. After one that does not, nothing
that is written later brings the buffer back within its bounds. -/
theorem overlaidLoop_within {path : Bytes} (turns : Nat) {st : Overlaid} {size : Nat}
    (hholds : st.mem.Holds 0 st.path) (hpath : st.path = pathAfter reports path st.sc) (hfit : st.path.length < size) :
    (overlaidLoop reports devText turns st).st.mem.Within size ↔ st.mem.Within size ∧
      ∀ n, st.sc ≤ n → n < st.sc + turns → (∀ j, st.sc ≤ j → j ≤ n → ∃ v, reports j = some v ∧ v.isNull = true) →
        (pathAfter reports path (n + 1)).length < size := by
  induction turns generalizing st with
  | zero => exact ⟨fun hin => ⟨hin, fun n hn hlt => by omega⟩, fun h => h.1⟩
  | succ turns ih =>
    by_cases hnull : ∃ v, reports st.sc = some v ∧ v.isNull = true
    · rcases hnull with ⟨v, hv, hnull⟩
      rw [overlaidLoop_null hv hnull]
      have hsc : (nextLayer devText v st).sc = st.sc + 1 := rewritePath_sc v _
      have hnext : (nextLayer devText v st).path = pathAfter reports path (st.sc + 1) := by
        have hafter : pathAfter reports path (st.sc + 1) = pathBeneath v (pathAfter reports path st.sc) := by
          rw [pathAfter, hv]
        rw [hafter, ← hpath]
        exact rewritePath_path v _
      have hmem : (nextLayer devText v st).mem.Holds 0 (nextLayer devText v st).path ∧
          ∀ size, st.path.length < size → ((nextLayer devText v st).mem.Within size ↔
            st.mem.Within size ∧ (nextLayer devText v st).path.length < size) :=
        rewritePath_mem v hholds
      by_cases hroom : (nextLayer devText v st).path.length < size
      · have hwithin := ih hmem.1 (hsc ▸ hnext) hroom
        rw [hsc] at hwithin
        rw [hwithin, hmem.2 size hfit]
        refine ⟨fun h => ⟨h.1.1, ?_⟩, fun h => ⟨⟨h.1, hroom⟩, ?_⟩⟩
        · intro n hn hlt hall
          by_cases hfirst : n = st.sc
          · rw [hfirst, ← hnext]
            exact hroom
          · exact h.2 n (by omega) (by omega) fun j hj hjn => hall j (by omega) hjn
        · intro n hn hlt hall
          apply h.2 n (by omega) (by omega)
          intro j hj hjn
          by_cases hfirst : j = st.sc
          · exact ⟨v, hfirst ▸ hv, hnull⟩
          · exact hall j (by omega) hjn
      · apply iff_of_false
        · intro hin
          exact hroom ((hmem.2 size hfit).mp (within_of_overlaidLoop hin)).2
        · intro h
          apply hroom
          rw [hnext]
          apply h.2 st.sc (Nat.le_refl _) (by omega)
          intro j hj hjn
          exact ⟨v, (show j = st.sc by omega) ▸ hv, hnull⟩
    · rw [(overlaidLoop_other hnull).1]
      refine ⟨fun hin => ⟨hin, ?_⟩, fun h => h.1⟩
      intro n hn hlt hall
      exact absurd (hall st.sc (Nat.le_refl _) hn) hnull

/-- Whatever `readvfs()` reports, the layers are followed at most 1024 times; the
rewrites stay inside the buffer exactly when no layer that is followed makes the path
as long as the buffer. -/
theorem processVnode_within_iff (reports : Nat → Option LVfs) (devText : BitVec 64 → Bytes) (fsid : BitVec 64)
    (path : Bytes) (hpath : path.length < PATH_MAX) (m : Memory UInt8) (hlog : m.log = []) :
    (processVnode reports devText fsid path m).st.sc ≤ 1024 ∧
      ((processVnode reports devText fsid path m).st.mem.Within PATH_MAX ↔
        ∀ n < 1024, AllNull reports n → (pathAfter reports path (n + 1)).length < PATH_MAX) := by
  have hstart : (m.store 0 (path ++ [0])).Within PATH_MAX := by
    rw [Memory.within_store, length_append, length_singleton]
    refine ⟨?_, by omega⟩
    intro w hw
    rw [hlog] at hw
    cases hw
  have hrun := @overlaidLoop_within reports devText path 1024
    { mem := m.store 0 (path ++ [0]), path, sc := 0, fsid, nma := none } PATH_MAX
    (Memory.holds_store_zero m 0 path) rfl hpath
  have hsc := @overlaidLoop_sc reports devText 1024
    { mem := m.store 0 (path ++ [0]), path, sc := 0, fsid, nma := none }
  constructor
  · rwa [Nat.zero_add] at hsc
  · rw [processVnode, hrun, and_iff_right hstart]
    constructor
    · intro h n hn hall
      exact h n (Nat.zero_le n) (by omega) fun j _ hj => hall j hj
    · intro h n _ hn hall
      exact h n (by omega) fun j hj => hall j (Nat.zero_le j) hj

/-- A nullfs mount of a directory of 100 bytes on `/m`. -/
def deepMount : LVfs where
  dir := Text.bytes "/m".toList
  fsname := List.replicate 100 47
  typnm := Text.bytes "nullfs".toList
  fsid := 1

/-- A path of 1000 bytes on that mount has 1098 beneath it: they are written over the
end of a buffer of 1024. -/
theorem processVnode_overruns :
    deepMount.fsname.length < MNAMELEN ∧ deepMount.dir.length < MNAMELEN ∧
      ¬ (processVnode (fun n => if n = 0 then some deepMount else none) (fun _ => []) 1
        (List.replicate 1000 47) { cells := fun _ => 0, log := [] }).st.mem.Within PATH_MAX := by
  decide +kernel

/-- `/m/x` beneath the same mount fits. -/
theorem processVnode_fits :
    (processVnode (fun n => if n = 0 then some deepMount else none) (fun _ => []) 1 (Text.bytes "/m/x".toList)
      { cells := fun _ => 0, log := [] }).st.mem.Within PATH_MAX := by
  have hpath : (Text.bytes "/m/x".toList).length < PATH_MAX := by decide +kernel
  refine (processVnode_within_iff _ _ _ _ hpath _ rfl).2.mpr ?_
  intro n _ hall
  cases n with
  | zero => decide +kernel
  | succ n =>
    rcases hall 1 (by omega) with ⟨v, hv, -⟩
    cases hv

end Layers

end Lsof.Original
