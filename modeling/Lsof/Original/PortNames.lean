import Lsof.Basis.Lines
import Lsof.Basis.Newest
import Lsof.Basis.Stopping

/-! # Port names in the C

`lkup_port()` gives a port its service name. It keeps the names it finds in hash
chains; `lkup_svcnam()` asks `getservbyport()` for the first few, keeps the ports
that have no name in a list, and then reads the whole database once. The ports of
that list do not say which protocol they were looked up for.
-/

namespace Lsof.Original

open Lsof.Basis List

inductive PortProto where
  | tcp
  | udp
  deriving DecidableEq, Repr

def PortProto.other : PortProto → PortProto
  | .tcp => .udp
  | .udp => .tcp

/-- `struct servent`. An entry of a protocol that is neither has no index. -/
structure Servent where
  name : Text
  port : BitVec 16
  proto : Option PortProto
  deriving DecidableEq, Repr

def getservbyport (db : List Servent) (p : BitVec 16) (pr : PortProto) : Option Servent :=
  db.find? (fun se => se.port == p && se.proto == some pr)

def PORTHASHBUCKETS : Nat := 128

/-- The threshold at which `getservbyport()` gives way to `getservent()`. -/
def PORTTABTHRESH : Nat := 10

/-- `HASHPORT`, in the chains of a protocol. -/
def hashPort (key : PortProto × BitVec 16) : PortProto × Nat :=
  (key.1, ((key.2.toNat * 31415) >>> 3) &&& (PORTHASHBUCKETS - 1))

/-- `Pth`. -/
abbrev PortTab := PortProto × Nat → List ((PortProto × BitVec 16) × Text)

def findName (pth : PortTab) (key : PortProto × BitVec 16) : Option Text := chainSearch hashPort pth key

def pushName (pth : PortTab) (key : PortProto × BitVec 16) (nm : Text) : PortTab :=
  chainPush hashPort pth (key, nm)

@[simp] theorem findName_empty (key : PortProto × BitVec 16) : findName (fun _ => []) key = none := rfl

theorem findName_push (pth : PortTab) (key key' : PortProto × BitVec 16) (nm : Text) :
    findName (pushName pth key nm) key' = if key = key' then some nm else findName pth key' :=
  chainSearch_push hashPort pth (key, nm) key'

/-- The names found so far, the ports of `fl`, how often `getservbyport()` was called,
and whether the table is filled. -/
structure PortCache where
  pth : PortTab := fun _ => []
  fl : List (BitVec 16) := []
  gsbp : Nat := 0
  ptf : Bool := false

def fillEntry (pth : PortTab) (se : Servent) : PortTab :=
  match se.proto with
  | none => pth
  | some pr =>
    if se.name.isEmpty then pth
    else if (findName pth (pr, se.port)).isSome then pth
    else pushName pth (pr, se.port) se.name

def fillPorttab (db : List Servent) (pth : PortTab) : PortTab := db.foldl fillEntry pth

section Lookups

variable (db : List Servent)

/-- `lkup_svcnam`, after the chains were searched. -/
def lkupSvcnam (st : PortCache) (p : BitVec 16) (pr : PortProto) : PortCache × Option Text :=
  if st.ptf then (st, none)
  else if st.gsbp < PORTTABTHRESH then
    if st.fl.contains p then (st, none)
    else
      match getservbyport db p pr with
      | some se => ({ st with gsbp := st.gsbp + 1 }, some se.name)
      | none =>
        ({ st with
            gsbp := st.gsbp + 1
            fl := if st.fl.length < PORTTABTHRESH then st.fl ++ [p] else st.fl }, none)
  else
    -- The second turn of the loop searches the chains, and ends by `ptf`.
    let pth := fillPorttab db st.pth
    ({ st with pth, ptf := true }, findName pth (pr, p))

def unnamedPort (p : BitVec 16) : Text := if p = 0 then ['*'] else Text.ofNat p.toNat

/-- `lkup_port`, with port names asked for and no report of portmapped ports. -/
def lkupPort (st : PortCache) (query : BitVec 16 × PortProto) : PortCache × Text :=
  match findName st.pth (query.2, query.1) with
  | some nm => (st, nm)
  | none =>
    let found := lkupSvcnam db st query.1 query.2
    match found.2 with
    | none => (found.1, unnamedPort query.1)
    | some nm =>
      if nm.isEmpty then (found.1, unnamedPort query.1)
      else ({ found.1 with pth := pushName found.1.pth (query.2, query.1) nm }, nm)

/-- What lookups return, one after another from the start. -/
def lkupPorts (queries : List (BitVec 16 × PortProto)) : List Text := answers (lkupPort db) queries {}

def portName (query : BitVec 16 × PortProto) : Text :=
  ((getservbyport db query.1 query.2).map Servent.name).getD (unnamedPort query.1)

/-- The first entry of every port and protocol has a name, and a port that one protocol
does not have goes by its number in the other. -/
structure Independent : Prop where
  named : ∀ p pr se, getservbyport db p pr = some se → se.name ≠ []
  paired : ∀ p pr, getservbyport db p pr = none → portName db (p, pr.other) = unnamedPort p

/-- What the caches hold: names of the database, all of them once it was read, and
ports that failed in one of the protocols. -/
structure PortCache.Inv (st : PortCache) : Prop where
  cached : ∀ p pr nm, findName st.pth (pr, p) = some nm →
    ∃ se, getservbyport db p pr = some se ∧ se.name = nm
  filled : st.ptf = true → ∀ p pr, findName st.pth (pr, p) = none → getservbyport db p pr = none
  failed : ∀ p ∈ st.fl, ∃ pr, getservbyport db p pr = none

end Lookups

variable {db : List Servent}

variable {pr : PortProto} {p : BitVec 16}

theorem portName_of_none (h : getservbyport db p pr = none) : portName db (p, pr) = unnamedPort p := by
  simp [portName, h]

theorem portName_of_some {se : Servent} (h : getservbyport db p pr = some se) : portName db (p, pr) = se.name := by
  simp [portName, h]

theorem Independent.portName_of_failed (h : Independent db)
    (hfailed : getservbyport db p pr = none) (pr' : PortProto) : portName db (p, pr') = unnamedPort p := by
  have hother := h.paired p pr hfailed
  have hsame := portName_of_none hfailed
  cases pr with
  | tcp =>
    cases pr' with
    | tcp => exact hsame
    | udp => exact hother
  | udp =>
    cases pr' with
    | tcp => exact hother
    | udp => exact hsame

def scannedEntry (db : List Servent) (p : BitVec 16) (pr : PortProto) : Option Servent :=
  db.find? (fun se => (se.port == p && se.proto == some pr) && !se.name.isEmpty)

theorem find_fillEntry (pth : PortTab) (se : Servent) (p : BitVec 16) (pr : PortProto) :
    findName (fillEntry pth se) (pr, p) = (findName pth (pr, p)).or ((scannedEntry [se] p pr).map Servent.name) := by
  unfold fillEntry scannedEntry
  cases hproto : se.proto with
  | none => simp [hproto]
  | some pr' =>
    dsimp only
    by_cases hname : se.name = []
    · simp [hname]
    · rw [if_neg (by simpa using hname)]
      by_cases hkey : (pr, p) = (pr', se.port)
      · rw [hkey, (Prod.mk.inj hkey).1, (Prod.mk.inj hkey).2]
        cases hfind : findName pth (pr', se.port) with
        | some nm => simp [hfind]
        | none => simp [hname, hproto, findName_push]
      · have hother : ¬ (se.port = p ∧ pr' = pr) := by
          intro hmatch
          exact hkey (by rw [hmatch.1, hmatch.2])
        have hpush : findName (pushName pth (pr', se.port) se.name) (pr, p) =
            findName pth (pr, p) := by
          rw [findName_push, if_neg (Ne.symm hkey)]
        split
        · simp [hproto, hother]
        · simp [hproto, hother, hpush]

theorem find_fillPorttab (pth : PortTab) (p : BitVec 16) (pr : PortProto) :
    findName (fillPorttab db pth) (pr, p) = (findName pth (pr, p)).or ((scannedEntry db p pr).map Servent.name) := by
  unfold fillPorttab
  induction db generalizing pth with
  | nil => simp [scannedEntry]
  | cons se db ih =>
    rw [foldl_cons, ih, find_fillEntry, Option.or_assoc]
    congr 1
    unfold scannedEntry
    rw [find?_cons, find?_cons]
    split
    · simp
    · simp

theorem Independent.scannedEntry_eq (h : Independent db) (p : BitVec 16) (pr : PortProto) :
    scannedEntry db p pr = getservbyport db p pr := by
  have hnamed := h.named p pr
  unfold scannedEntry getservbyport at *
  generalize hfirst : db.find? (fun se => se.port == p && se.proto == some pr) = first at hnamed
  cases first with
  | none =>
    apply find?_eq_none.mpr
    intro se hse
    have hno := find?_eq_none.mp hfirst se hse
    simp [Bool.eq_false_iff.mpr hno]
  | some se =>
    have hname : se.name.isEmpty = false := by simpa using hnamed se rfl
    rcases find?_eq_some_iff_append.mp hfirst with ⟨hmatch, before, after, hdb, hbefore⟩
    apply find?_eq_some_iff_append.mpr
    refine ⟨by simp [hmatch, hname], before, after, hdb, ?_⟩
    intro other hmem
    have hother := hbefore other hmem
    simp only [Bool.not_eq_true'] at hother
    simp [hother]

variable {st : PortCache}

theorem Independent.inv_fill (h : Independent db) (hst : st.Inv db) :
    PortCache.Inv db { st with pth := fillPorttab db st.pth, ptf := true } where
  cached := by
    intro p pr nm hfind
    rw [find_fillPorttab, h.scannedEntry_eq] at hfind
    cases hbefore : findName st.pth (pr, p) with
    | some nm' =>
      rw [hbefore] at hfind
      cases hfind
      exact hst.cached p pr nm hbefore
    | none =>
      rw [hbefore, Option.none_or] at hfind
      exact Option.map_eq_some_iff.mp hfind
  filled := by
    intro _ p pr hfind
    rw [find_fillPorttab, h.scannedEntry_eq] at hfind
    simpa using (Option.or_eq_none_iff.mp hfind).2
  failed := hst.failed

theorem PortCache.Inv.fail (hst : st.Inv db) (h : getservbyport db p pr = none) :
    PortCache.Inv db
      { st with gsbp := st.gsbp + 1, fl := if st.fl.length < PORTTABTHRESH then st.fl ++ [p] else st.fl } where
  cached := hst.cached
  filled := hst.filled
  failed := by
    intro p' hmem
    dsimp only at hmem
    split at hmem
    · rcases mem_append.mp hmem with hold | hnew
      · exact hst.failed p' hold
      · rw [mem_singleton.mp hnew]
        exact ⟨pr, h⟩
    · exact hst.failed p' hmem

/-- What `lkup_svcnam` finds of a port that is not in the chains. -/
inductive SvcFound (db : List Servent) (p : BitVec 16) (pr : PortProto) : Option Text → Prop where
  | name {se : Servent} (h : getservbyport db p pr = some se) : SvcFound db p pr (some se.name)
  | number (h : portName db (p, pr) = unnamedPort p) : SvcFound db p pr none

theorem Independent.lkupSvcnam_spec (h : Independent db) (hst : st.Inv db) (hmiss : findName st.pth (pr, p) = none) :
    (lkupSvcnam db st p pr).1.Inv db ∧ SvcFound db p pr (lkupSvcnam db st p pr).2 := by
  unfold lkupSvcnam
  by_cases hptf : st.ptf = true
  · -- The whole database is in the chains, and the port is not.
    rw [if_pos hptf]
    exact ⟨hst, .number (portName_of_none (hst.filled hptf p pr hmiss))⟩
  · rw [if_neg hptf]
    by_cases hthresh : st.gsbp < PORTTABTHRESH
    · rw [if_pos hthresh]
      by_cases hfl : p ∈ st.fl
      · rw [if_pos (by simpa using hfl)]
        rcases hst.failed p hfl with ⟨pr', hfailed⟩
        exact ⟨hst, .number (h.portName_of_failed hfailed pr)⟩
      · rw [if_neg (by simpa using hfl)]
        cases hse : getservbyport db p pr with
        | some se => exact ⟨⟨hst.cached, hst.filled, hst.failed⟩, .name hse⟩
        | none => exact ⟨hst.fail hse, .number (portName_of_none hse)⟩
    · rw [if_neg hthresh]
      have hinv := h.inv_fill hst
      constructor
      · exact hinv
      · dsimp only
        cases hfind : findName (fillPorttab db st.pth) (pr, p) with
        | none => exact .number (portName_of_none (hinv.filled rfl p pr hfind))
        | some nm =>
          rcases hinv.cached p pr nm hfind with ⟨se, hse, hname⟩
          rw [← hname]
          exact .name hse

theorem PortCache.Inv.push (hst : st.Inv db) {se : Servent} (h : getservbyport db p pr = some se) :
    PortCache.Inv db { st with pth := pushName st.pth (pr, p) se.name } where
  cached := by
    intro p' pr' nm hfind
    rw [findName_push] at hfind
    split at hfind
    · rename_i hkey
      rw [← (Prod.mk.inj hkey).1, ← (Prod.mk.inj hkey).2]
      exact ⟨se, h, Option.some.inj hfind⟩
    · exact hst.cached p' pr' nm hfind
  filled := by
    intro hptf p' pr' hfind
    rw [findName_push] at hfind
    split at hfind
    · cases hfind
    · exact hst.filled hptf p' pr' hfind
  failed := hst.failed

theorem Independent.lkupPort_spec (h : Independent db) (st : PortCache) (query : BitVec 16 × PortProto)
    (hst : st.Inv db) : (lkupPort db st query).2 = portName db query ∧ (lkupPort db st query).1.Inv db := by
  unfold lkupPort
  cases hfind : findName st.pth (query.2, query.1) with
  | some nm =>
    rcases hst.cached query.1 query.2 nm hfind with ⟨se, hse, hname⟩
    exact ⟨hname.symm.trans (portName_of_some hse).symm, hst⟩
  | none =>
    have hspec := h.lkupSvcnam_spec hst hfind
    dsimp only
    generalize lkupSvcnam db st query.1 query.2 = found at hspec
    rcases found with ⟨st', pn⟩
    rcases hspec with ⟨hinv, hfound⟩
    cases hfound with
    | number hnumber => exact ⟨hnumber.symm, hinv⟩
    | @name se hse =>
      have hname : se.name.isEmpty = false := by simpa using h.named query.1 query.2 se hse
      simp only [hname, Bool.false_eq_true, if_false]
      exact ⟨(portName_of_some hse).symm, hinv.push hse⟩

theorem inv_start (db : List Servent) : PortCache.Inv db {} where
  cached := by
    intro p pr nm hfind
    cases hfind
  filled := by
    intro hptf
    cases hptf
  failed := by
    intro p hmem
    cases hmem

theorem lkupPort_start (db : List Servent) (p : BitVec 16) (pr : PortProto) :
    lkupPort db {} (p, pr) =
      match getservbyport db p pr with
      | none => ({ gsbp := 1, fl := [p] }, unnamedPort p)
      | some se =>
        if se.name.isEmpty then ({ gsbp := 1 }, unnamedPort p)
        else ({ gsbp := 1, pth := pushName (fun _ => []) (pr, p) se.name }, se.name) := by
  cases hse : getservbyport db p pr with
  | none => simp [lkupPort, lkupSvcnam, PORTTABTHRESH, hse]
  | some se => simp [lkupPort, lkupSvcnam, PORTTABTHRESH, hse]

theorem lkupPort_failed (db : List Servent) (p : BitVec 16) (pr : PortProto) :
    (lkupPort db { gsbp := 1, fl := [p] } (p, pr)).2 = unnamedPort p := by
  simp [lkupPort, lkupSvcnam, PORTTABTHRESH]

theorem unnamedPort_ne_nil (p : BitVec 16) : unnamedPort p ≠ [] := by
  unfold unnamedPort
  split
  · simp
  · exact Text.ofNat_ne_nil _

def tftpOnly : List Servent := [{ name := "tftp".toList, port := 69, proto := some .udp }]

end Lsof.Original
