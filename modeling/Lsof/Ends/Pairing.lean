import Lsof.Basis.Pairing
import Lsof.Ends.Rows

/-! # Internet sockets are matched in pairs

A socket is an inode, with the addresses of the first row read on it. Two face
each other when the local end of each is the foreign end of the other, in one
family and protocol. The peers the index computes are a matching of the sockets
that face each other, and one that leaves no such pair over.
-/

namespace Lsof.Ends

open Lsof.Basis Lsof.Core List

/-- One family and protocol, and each socket's local end is the other's foreign one. -/
structure Mirrors (s t : InetEntry) : Prop where
  v6 : s.v6 = t.v6
  protocol : s.protocol = t.protocol
  here : s.local_ = t.remote
  there : s.remote = t.local_

def facing (e c : InetEntry) : Bool :=
  c.v6 == e.v6 && c.protocol == e.protocol && c.local_ == e.remote && c.remote == e.local_

theorem facing_iff (s t : InetEntry) : facing s t = true ↔ Mirrors s t := by
  simp only [facing, Bool.and_eq_true, beq_iff_eq]
  constructor
  · intro h
    exact ⟨h.1.1.1.symm, h.1.1.2.symm, h.2.symm, h.1.2.symm⟩
  · intro h
    exact ⟨⟨⟨h.v6.symm, h.protocol.symm⟩, h.there.symm⟩, h.here.symm⟩

theorem facing_comm (s t : InetEntry) : facing s t = facing t s := by
  rw [Bool.eq_iff_iff, facing_iff, facing_iff]
  exact ⟨fun h => ⟨h.v6.symm, h.protocol.symm, h.there.symm, h.here.symm⟩,
    fun h => ⟨h.v6.symm, h.protocol.symm, h.there.symm, h.here.symm⟩⟩

theorem pairEntry_eq (inet : List InetEntry) : Index.pairEntry inet = pairStep InetEntry.ino facing inet := by
  funext peer e
  unfold Index.pairEntry pairStep
  by_cases hpaired : (peer e.ino).isSome = true
  · rw [if_pos hpaired, if_pos hpaired]
  · rw [if_neg hpaired, if_neg hpaired]
    cases hfind : ((inet.filter (facing e)).map InetEntry.ino).find? (fun c => (peer c).isNone) with
    | none | some other =>
      unfold facing at hfind
      dsimp only
      rw [hfind]

variable (tables : EndpointTables) (mqueueDevice : Option (BitVec 64)) (procs : List Process)

def inetSocket (ino : BitVec 64) : Option InetEntry :=
  ((keyedRows tables mqueueDevice procs).find? (fun r => r.key = .inet ino)).bind
    KeyedRow.inetEntry

variable {tables mqueueDevice procs}

theorem KeyedRow.key_of_inetEntry {r : KeyedRow tables mqueueDevice} {e : InetEntry}
    (h : r.inetEntry = some e) : r.key = .inet e.ino := by
  unfold KeyedRow.inetEntry at h
  cases hk : r.key <;> simp only [hk] at h
  case inet ino =>
    unfold Index.inetEntryOf at h
    split at h
    · split at h <;> cases h
      rfl
    · cases h
  all_goals cases h

theorem mem_inetEntries_iff (e : InetEntry) :
    e ∈ inetEntries tables mqueueDevice procs ↔ inetSocket tables mqueueDevice procs e.ino = some e := by
  unfold inetEntries inetSocket
  rw [mem_filterMap, Option.bind_eq_some_iff]
  constructor
  · intro ⟨r, hr, he⟩
    rw [mem_firsts_iff, KeyedRow.key_of_inetEntry he] at hr
    exact ⟨r, hr, he⟩
  · intro ⟨r, hr, he⟩
    refine ⟨r, ?_, he⟩
    rw [mem_firsts_iff, KeyedRow.key_of_inetEntry he]
    exact hr

theorem inetSocket_ino {ino : BitVec 64} {e : InetEntry}
    (h : inetSocket tables mqueueDevice procs ino = some e) : e.ino = ino := by
  unfold inetSocket at h
  obtain ⟨r, hr, he⟩ := Option.bind_eq_some_iff.mp h
  have hkey : r.key = .inet ino := by simpa using find?_some hr
  have hsame := (KeyedRow.key_of_inetEntry he).symm.trans hkey
  exact Key.inet.inj hsame

theorem inetSocket_isSome {r : KeyedRow tables mqueueDevice}
    (hr : r ∈ keyedRows tables mqueueDevice procs) {ino : BitVec 64} (hkey : r.key = .inet ino) :
    (inetSocket tables mqueueDevice procs ino).isSome = true := by
  have hfound : (keyedRows tables mqueueDevice procs).find? (fun r => r.key = .inet ino) ≠ none := by
    rw [Ne, find?_eq_none_iff_not_mem_map, not_not]
    exact mem_map.mpr ⟨r, hr, hkey⟩
  obtain ⟨s, hs⟩ := Option.ne_none_iff_exists'.mp hfound
  have hskey : s.key = .inet ino := by simpa using find?_some hs
  have hentry : s.inetEntry = Index.inetEntryOf ino s.file := by
    rw [KeyedRow.inetEntry, hskey]
  rw [inetSocket, hs, Option.bind_some, hentry]
  have hends := rowKey_complete s.keyed
  rw [hskey] at hends
  exact hends

variable (tables mqueueDevice procs) (host : Host) (width : CommandWidth)

theorem peer_eq_pairAll :
    (Index.buildWith host width procs tables mqueueDevice).peer =
      pairAll InetEntry.ino facing (inetEntries tables mqueueDevice procs) := by
  rw [(buildWith_built tables mqueueDevice host width procs).peer, pairEntry_eq, pairAll]

theorem peer_matching :
    Matching InetEntry.ino facing (inetEntries tables mqueueDevice procs)
      (Index.buildWith host width procs tables mqueueDevice).peer := by
  rw [peer_eq_pairAll]
  exact pairAll_matching facing_comm _

end Lsof.Ends
