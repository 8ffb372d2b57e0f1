import Lsof.Basis.Firsts
import Lsof.Core.Endpoints

/-! # What the index of ends holds

The index is built row by row in reading order. A keyed row carries the object
it is an end of; one is recorded when no row of its object, PID and FD has come
before. `Holds` says what the state is after any rows, each step keeps it, and
so the finished index is read off the gathered list.
-/

namespace Lsof.Ends

open Lsof.Basis Lsof.Core List

/-- What a row has beside its object: an Internet socket both its ends, a
pseudoterminal its side. -/
def Complete (f : OpenFile) (side : Option Side) : Key → Prop
  | .inet ino => (Index.inetEntryOf ino f).isSome = true
  | .pty _ => side ≠ none
  | _ => True

variable {mqueueDevice : Option (BitVec 64)} {f : OpenFile} {side : Option Side} {k : Key}

theorem namedKey_complete (h : namedKey mqueueDevice f = some (k, side)) : Complete f side k := by
  unfold namedKey at h
  split at h
  · obtain ⟨i, -, hi⟩ := Option.map_eq_some_iff.mp h
    cases hi
    trivial
  · obtain ⟨i, -, hi⟩ := Option.map_eq_some_iff.mp h
    cases hi
    trivial

theorem complete_of_orElse {cell : Option Text} {mk : BitVec 64 → Key} (h : (match (inodeOf cell).map mk with
      | some k => some (k, none) | none => namedKey mqueueDevice f) = some (k, side))
    (hmk : ∀ i, Complete f none (mk i)) : Complete f side k := by
  cases hcell : inodeOf cell with
  | none =>
    simp only [hcell, Option.map_none] at h
    exact namedKey_complete h
  | some i =>
    simp only [hcell, Option.map_some] at h
    cases h
    exact hmk i

variable {p : Process}

theorem rowKey_complete {tables : EndpointTables}
    (h : rowKey tables mqueueDevice p f = some (k, side)) : Complete f side k := by
  unfold rowKey at h
  split at h
  case h_1 | h_4 => exact complete_of_orElse h (fun _ => trivial)
  case h_2 | h_3 =>
    cases hs : f.socket with
    | none =>
      simp only [hs] at h
      cases h
    | some s =>
      simp only [hs] at h
      split at h
      next hends =>
        simp only [Bool.and_eq_true] at hends
        obtain ⟨l, hl⟩ := Option.isSome_iff_exists.mp hends.1.2
        obtain ⟨r, hr⟩ := Option.isSome_iff_exists.mp hends.2
        refine complete_of_orElse h (fun i => ?_)
        simp [Complete, Index.inetEntryOf, hs, hl, hr]
      next => exact namedKey_complete h
  case h_5 =>
    cases hr : f.rdev with
    | none =>
      simp only [hr] at h
      cases h
    | some rdev =>
      simp only [hr] at h
      split at h
      · split at h
        · obtain ⟨i, -, hi⟩ := Option.map_eq_some_iff.mp h
          cases hi
          exact Option.some_ne_none _
        · cases h
      · split at h
        · cases h
          exact Option.some_ne_none _
        · exact namedKey_complete h
  case h_6 => exact namedKey_complete h

/-- A row that is an end of something, with the object it is an end of. -/
structure KeyedRow (tables : EndpointTables) (mqueueDevice : Option (BitVec 64)) where
  entry : Process
  file : OpenFile
  key : Key
  side : Option Side
  keyed : rowKey tables mqueueDevice entry file = some (key, side)
  deriving DecidableEq

variable {tables : EndpointTables} {mqueueDevice : Option (BitVec 64)}

namespace KeyedRow

def id (r : KeyedRow tables mqueueDevice) : Key × Nat × FdType := (r.key, r.entry.pid, r.file.fd)

def holder (host : Host) (width : CommandWidth) (r : KeyedRow tables mqueueDevice) : Holder :=
  Index.holderOf host width r.entry r.file r.side

def inetEntry (r : KeyedRow tables mqueueDevice) : Option InetEntry :=
  match r.key with
  | .inet ino => Index.inetEntryOf ino r.file
  | _ => none

end KeyedRow

variable (tables mqueueDevice)

def keyedRow (p : Process) (f : OpenFile) : Option (KeyedRow tables mqueueDevice) :=
  match h : rowKey tables mqueueDevice p f with
  | none => none
  | some (key, side) => some ⟨p, f, key, side, h⟩

def keyedRows (procs : List Process) : List (KeyedRow tables mqueueDevice) :=
  (readingOrder procs).flatMap (fun p => p.files.filterMap (keyedRow tables mqueueDevice p))

/-- The rows the index records: the first of each object, PID and FD. -/
def recordedRows (procs : List Process) : List (KeyedRow tables mqueueDevice) :=
  firsts KeyedRow.id (keyedRows tables mqueueDevice procs)

variable {tables mqueueDevice}

theorem rowKey_eq_none_of_keyedRow
    (h : keyedRow tables mqueueDevice p f = none) : rowKey tables mqueueDevice p f = none := by
  unfold keyedRow at h
  split at h
  · assumption
  · cases h

variable {r : KeyedRow tables mqueueDevice}

theorem keyedRow_eq_some (h : keyedRow tables mqueueDevice p f = some r) : r.entry = p ∧ r.file = f := by
  unfold keyedRow at h
  split at h
  · cases h
  · cases h
    exact ⟨rfl, rfl⟩

/-- Sockets are kept apart, since they are named last met first. -/
def isSocketKey : Key → Bool
  | .inet _ | .unix _ => true
  | _ => false

theorem KeyedRow.inetEntry_of_not_socket (r : KeyedRow tables mqueueDevice)
    (h : ¬ isSocketKey r.key = true) : r.inetEntry = none := by
  unfold KeyedRow.inetEntry
  cases hk : r.key <;> simp_all [isSocketKey]

theorem pushHolder_congr {m m' : Key → List Holder} (h : m k = m' k) (a : Key)
    (x : Holder) : pushHolder m a x k = pushHolder m' a x k := by
  simp only [pushHolder, h]

theorem pushHolder_of_ne (m : Key → List Holder) {k a : Key} (x : Holder) (h : k ≠ a) :
    pushHolder m a x k = m k := if_neg h

variable (host : Host) (width : CommandWidth)

def holdersAt (rows : List (KeyedRow tables mqueueDevice)) (k : Key) : List Holder :=
  ((firsts KeyedRow.id rows).filter (fun r => r.key = k)).map (KeyedRow.holder host width)

variable {rows : List (KeyedRow tables mqueueDevice)}

theorem mem_holdersAt {h : Holder} :
    h ∈ holdersAt host width rows k ↔ ∃ r ∈ firsts KeyedRow.id rows, r.key = k ∧ r.holder host width = h := by
  simp [holdersAt, and_assoc]

theorem holdersAt_concat_of_mem (h : r.id ∈ rows.map KeyedRow.id) (k : Key) :
    holdersAt host width (rows ++ [r]) k = holdersAt host width rows k := by
  rw [holdersAt, firsts_concat_of_mem _ h, holdersAt]

theorem holdersAt_concat_of_not_mem (h : r.id ∉ rows.map KeyedRow.id) (k : Key) :
    holdersAt host width (rows ++ [r]) k = pushHolder (holdersAt host width rows) r.key (r.holder host width) k := by
  rw [holdersAt, firsts_concat_of_not_mem _ h, pushHolder, filter_append, map_append]
  by_cases hk : k = r.key
  · simp [hk, holdersAt]
  · simp [hk, Ne.symm hk, holdersAt]

theorem holdersAt_isEmpty_iff (rows : List (KeyedRow tables mqueueDevice)) (k : Key) :
    (holdersAt host width rows k).isEmpty = true ↔ k ∉ rows.map KeyedRow.key := by
  rw [List.isEmpty_iff, eq_nil_iff_forall_not_mem]
  constructor
  · intro hnone hk
    obtain ⟨r, hr, hrk⟩ := mem_map.mp hk
    have hid := (mem_map_firsts_iff KeyedRow.id rows r.id).mpr (mem_map_of_mem hr)
    obtain ⟨s, hs, hsr⟩ := mem_map.mp hid
    have hsk : s.key = k := (congrArg Prod.fst hsr).trans hrk
    exact hnone _ ((mem_holdersAt host width).mpr ⟨s, hs, hsk, rfl⟩)
  · intro hk h hmem
    obtain ⟨r, hr, hrk, -⟩ := (mem_holdersAt host width).mp hmem
    exact hk (mem_map.mpr ⟨r, mem_of_mem_firsts _ hr, hrk⟩)

structure Holds (rows : List (KeyedRow tables mqueueDevice)) (st : BuildState) : Prop where
  tables : st.index.tables = tables
  mqueueDevice : st.index.mqueueDevice = mqueueDevice
  seen : ∀ i, st.seen.contains i = true ↔ i ∈ rows.map KeyedRow.id
  sockets : ∀ k, isSocketKey k = true → st.index.sockets k = holdersAt host width rows k
  inOrder : ∀ k, isSocketKey k = false → st.index.inOrder k = holdersAt host width rows k
  inet : st.inet = (firsts KeyedRow.key rows).filterMap KeyedRow.inetEntry

variable {host width} {rows : List (KeyedRow tables mqueueDevice)} {st : BuildState}

theorem Holds.key (h : Holds host width rows st) (p : Process) (f : OpenFile) :
    st.index.key p f = rowKey tables mqueueDevice p f := by
  rw [Index.key, h.tables, h.mqueueDevice]

theorem enterRow_of_fresh (r : KeyedRow tables mqueueDevice)
    (hkey : st.index.key r.entry r.file = some (r.key, r.side)) (hfresh : ¬ st.seen.contains r.id = true) :
    Index.enterRow host width r.entry st r.file =
      { index := { st.index with
          sockets := if isSocketKey r.key then
              pushHolder st.index.sockets r.key (r.holder host width) else st.index.sockets
          inOrder := if isSocketKey r.key then st.index.inOrder else
              pushHolder st.index.inOrder r.key (r.holder host width) }
        seen := r.id :: st.seen
        inet := if (st.index.sockets r.key).isEmpty then st.inet ++ r.inetEntry.toList
          else st.inet } := by
  unfold Index.enterRow
  rw [hkey]
  refine (if_neg hfresh).trans ?_
  obtain ⟨p, f, k, side, hk⟩ := r
  cases k <;> simp [isSocketKey, KeyedRow.inetEntry, KeyedRow.holder, KeyedRow.id]

theorem Holds.inet_step (h : Holds host width rows st) (r : KeyedRow tables mqueueDevice) :
    (firsts KeyedRow.key (rows ++ [r])).filterMap KeyedRow.inetEntry =
      if (st.index.sockets r.key).isEmpty then st.inet ++ r.inetEntry.toList else st.inet := by
  by_cases hr : isSocketKey r.key = true
  · rw [h.sockets _ hr]
    by_cases hmet : r.key ∈ rows.map KeyedRow.key
    · rw [if_neg (mt (holdersAt_isEmpty_iff _ _ _ _).mp (not_not.mpr hmet)), firsts_concat_of_mem _ hmet, h.inet]
    · rw [if_pos ((holdersAt_isEmpty_iff _ _ _ _).mpr hmet), firsts_concat_of_not_mem _ hmet, h.inet,
        filterMap_append]
      cases hadd : r.inetEntry <;> simp [hadd]
  · have hnone := r.inetEntry_of_not_socket hr
    rw [hnone, Option.toList_none, append_nil, ite_self, h.inet]
    by_cases hmet : r.key ∈ rows.map KeyedRow.key
    · rw [firsts_concat_of_mem _ hmet]
    · rw [firsts_concat_of_not_mem _ hmet, filterMap_append]
      simp [hnone]

theorem Holds.enterRow (h : Holds host width rows st) (r : KeyedRow tables mqueueDevice) :
    Holds host width (rows ++ [r]) (Index.enterRow host width r.entry st r.file) := by
  have hkey : st.index.key r.entry r.file = some (r.key, r.side) := (h.key _ _).trans r.keyed
  by_cases hmet : r.id ∈ rows.map KeyedRow.id
  · have hseen : st.seen.contains (r.key, r.entry.pid, r.file.fd) = true := (h.seen r.id).mpr hmet
    have hkeymet : r.key ∈ rows.map KeyedRow.key := by
      obtain ⟨s, hs, hsr⟩ := mem_map.mp hmet
      exact mem_map.mpr ⟨s, hs, congrArg Prod.fst hsr⟩
    have hsame : Index.enterRow host width r.entry st r.file = st := by
      unfold Index.enterRow
      rw [hkey]
      exact if_pos hseen
    rw [hsame]
    refine ⟨h.tables, h.mqueueDevice, fun i => ?_, fun k hk => ?_, fun k hk => ?_, ?_⟩
    · rw [h.seen, map_append, mem_append]
      refine ⟨Or.inl, fun hi => hi.elim (fun hi => hi) fun hi => ?_⟩
      have hir : i = r.id := by simpa using hi
      exact hir ▸ hmet
    · rw [h.sockets k hk, holdersAt_concat_of_mem _ _ hmet]
    · rw [h.inOrder k hk, holdersAt_concat_of_mem _ _ hmet]
    · rw [h.inet, firsts_concat_of_mem _ hkeymet]
  · rw [enterRow_of_fresh r hkey (mt (h.seen r.id).mp hmet)]
    refine ⟨h.tables, h.mqueueDevice, fun i => ?_, fun k hk => ?_, fun k hk => ?_, ?_⟩
    · have hold := h.seen i
      simp only [contains_cons, Bool.or_eq_true, beq_iff_eq, map_append, mem_append, map_cons, map_nil, mem_singleton]
      rw [hold, or_comm]
    · show (if isSocketKey r.key then pushHolder st.index.sockets r.key _ else _) k = _
      rw [holdersAt_concat_of_not_mem _ _ hmet]
      by_cases hr : isSocketKey r.key = true
      · rw [if_pos hr]
        exact pushHolder_congr (h.sockets k hk) _ _
      · have hne : k ≠ r.key := fun hkr => hr (hkr ▸ hk)
        rw [if_neg hr, pushHolder_of_ne _ _ hne, h.sockets k hk]
    · show (if isSocketKey r.key then _ else pushHolder st.index.inOrder r.key _) k = _
      rw [holdersAt_concat_of_not_mem _ _ hmet]
      by_cases hr : isSocketKey r.key = true
      · have hne : k ≠ r.key := fun hkr => by simp [hkr, hr] at hk
        rw [if_pos hr, pushHolder_of_ne _ _ hne, h.inOrder k hk]
      · rw [if_neg hr]
        exact pushHolder_congr (h.inOrder k hk) _ _
    · exact (h.inet_step r).symm

theorem Holds.enterFiles (p : Process) (files : List OpenFile) (h : Holds host width rows st) :
    Holds host width (rows ++ files.filterMap (keyedRow tables mqueueDevice p))
      (files.foldl (Index.enterRow host width p) st) := by
  induction files generalizing rows st with
  | nil => simpa using h
  | cons f files ih =>
    rw [foldl_cons]
    cases hrow : keyedRow tables mqueueDevice p f with
    | none =>
      have hkey : st.index.key p f = none := (h.key p f).trans (rowKey_eq_none_of_keyedRow hrow)
      have hsame : Index.enterRow host width p st f = st := by
        unfold Index.enterRow
        rw [hkey]
      rw [filterMap_cons_none hrow, hsame]
      exact ih h
    | some r =>
      obtain ⟨hp, hf⟩ := keyedRow_eq_some hrow
      have hstep := h.enterRow r
      rw [hp, hf] at hstep
      rw [filterMap_cons_some hrow, append_cons]
      exact ih hstep

theorem Holds.enterProcesses (procs : List Process) (h : Holds host width rows st) :
    Holds host width (rows ++ procs.flatMap (fun p => p.files.filterMap (keyedRow tables mqueueDevice p)))
      (procs.foldl (Index.enterProcess host width) st) := by
  induction procs generalizing rows st with
  | nil => simpa using h
  | cons p procs ih =>
    rw [foldl_cons, flatMap_cons, ← append_assoc]
    exact ih (h.enterFiles p p.files)

variable (host width)

theorem Holds.start : Holds host width ([] : List (KeyedRow tables mqueueDevice))
    { index := { tables, mqueueDevice } } where
  tables := rfl
  mqueueDevice := rfl
  seen := by simp
  sockets := fun _ _ => rfl
  inOrder := fun _ _ => rfl
  inet := rfl

variable (tables mqueueDevice) (procs : List Process)

def inetEntries : List InetEntry :=
  (firsts KeyedRow.key (keyedRows tables mqueueDevice procs)).filterMap KeyedRow.inetEntry

structure Built (index : Index) : Prop where
  key : ∀ p f, index.key p f = rowKey tables mqueueDevice p f
  sockets : ∀ k, isSocketKey k = true →
    index.sockets k = holdersAt host width (keyedRows tables mqueueDevice procs) k
  inOrder : ∀ k, isSocketKey k = false →
    index.inOrder k = holdersAt host width (keyedRows tables mqueueDevice procs) k
  peer : index.peer = (inetEntries tables mqueueDevice procs).foldl
    (Index.pairEntry (inetEntries tables mqueueDevice procs)) (fun _ => none)

theorem buildWith_built :
    Built tables mqueueDevice host width procs (Index.buildWith host width procs tables mqueueDevice) := by
  have h := (@Holds.start tables mqueueDevice host width).enterProcesses (readingOrder procs)
  rw [nil_append] at h
  refine ⟨h.key, h.sockets, h.inOrder, ?_⟩
  have hinet := h.inet
  exact congrArg (fun inet => inet.foldl (Index.pairEntry inet) (fun _ => none)) hinet

end Lsof.Ends
