import Lsof.Ends.Pairing

/-! # Ends name each other

The index names, at a row, the holders recorded under one object: its own for a
pipe, a queue, an eventfd and a pseudoterminal, its peer's for an Internet
socket. `Meets` states the relation between two recorded rows that this comes
to, kind by kind, and it is symmetric.
-/

namespace Lsof.Ends

open Lsof.Basis Lsof.Core List

/-- The object whose holders are named at a row of this one. A UNIX socket's
come from the backend's tables, and may be several sockets'. -/
def endKey (index : Index) : Key → Option Key
  | .inet ino => (index.peer ino).map Key.inet
  | .unix _ => none
  | k => some k

def isUnixKey : Key → Bool
  | .unix _ => true
  | _ => false

def isShared : Key → Bool
  | .inet _ | .unix _ => false
  | _ => true

theorem not_unix_of_endKey {index : Index} {k l : Key} (h : endKey index k = some l) : isUnixKey l = false := by
  cases k with
  | inet ino =>
    obtain ⟨peer, -, hl⟩ := Option.map_eq_some_iff.mp h
    exact hl ▸ rfl
  | unix ino => cases h
  | pipe i | mq i | eventFd i | pty i =>
    cases h
    rfl

theorem not_unix_of_isShared {k : Key} (h : isShared k = true) : isUnixKey k = false := by
  cases k <;> first | rfl | cases h

section Naming

variable {tables : EndpointTables} {mqueueDevice : Option (BitVec 64)}
variable (host : Host) (width : CommandWidth) (index : Index) (forced : Bool)

/-- The first row names the second as an end: the second's object is the one
its ends are found under, and its holder is among those named. -/
def Names (r s : KeyedRow tables mqueueDevice) : Prop :=
  endKey index r.key = some s.key ∧
    ∃ piece ∈ index.ends r.entry r.file forced, piece.holder = some (s.holder host width)

def farSide : Option Side → Side
  | some .master => .slave
  | _ => .master

def Meets (r s : KeyedRow tables mqueueDevice) : Prop :=
  match r.key with
  | .inet ino => ∃ peer, index.peer ino = some peer ∧ s.key = .inet peer
  | .unix _ => False
  | .pty n => s.key = .pty n ∧ s.side = some (farSide r.side)
  | k => s.key = k ∧ s.id ≠ r.id

theorem Meets.symm (hpeer : ∀ a b, index.peer a = some b → index.peer b = some a)
    {r s : KeyedRow tables mqueueDevice} (h : Meets index r s) : Meets index s r := by
  cases hr : r.key with
  | inet ino =>
    simp only [Meets, hr] at h
    obtain ⟨peer, hpair, hs⟩ := h
    simp only [Meets, hs]
    exact ⟨ino, hpeer _ _ hpair, hr⟩
  | unix ino => simp only [Meets, hr] at h
  | pty n =>
    simp only [Meets, hr] at h
    have hside := rowKey_complete r.keyed
    rw [hr] at hside
    simp only [Meets, h.1, hr, h.2, true_and]
    match hm : r.side with
    | none => exact absurd hm hside
    | some .master => rfl
    | some .slave => rfl
  | pipe i | mq i | eventFd i =>
    simp only [Meets, hr] at h
    simp only [Meets, h.1, hr, true_and]
    exact Ne.symm h.2

variable {index} in
theorem Meets.endKey {r s : KeyedRow tables mqueueDevice} (h : Meets index r s) :
    endKey index r.key = some s.key := by
  cases hr : r.key with
  | inet ino =>
    simp only [Meets, hr] at h
    obtain ⟨peer, hpeer, hs⟩ := h
    simp [Ends.endKey, hpeer, hs]
  | unix ino => simp only [Meets, hr] at h
  | pty n | pipe i | mq i | eventFd i =>
    simp only [Meets, hr] at h
    simp [Ends.endKey, h.1]

theorem not_meets_self {r : KeyedRow tables mqueueDevice} (hshared : isShared r.key = true) : ¬ Meets index r r := by
  intro h
  cases hr : r.key with
  | inet ino => simp [hr, isShared] at hshared
  | unix ino => simp [hr, isShared] at hshared
  | pty n =>
    simp only [Meets, hr] at h
    match hm : r.side with
    | none => simp [hm] at h
    | some .master => simp [hm, farSide] at h
    | some .slave => simp [hm, farSide] at h
  | pipe i | mq i | eventFd i =>
    simp only [Meets, hr] at h
    exact h.2 rfl

theorem map_holder_of (hs : List Holder) : (hs.map Index.Piece.of).map Index.Piece.holder = hs.map some := by
  rw [map_map]
  rfl

theorem holder_ptyEnds (k : Key) (n : Nat) (side : Option Side) :
    (index.ptyEnds k n side).map Index.Piece.holder =
      ((index.inOrder k).filter (fun h => h.side == some (farSide side))).map some := by
  rw [← map_holder_of]
  cases side with
  | none => rfl
  | some side =>
    cases side with
    | slave => rfl
    | master =>
      simp only [Index.ptyEnds, farSide]
      cases ((index.inOrder k).filter (fun h => h.side == some Side.slave)).map Index.Piece.of <;> rfl

variable {h : Holder}

theorem mem_otherHolders {k : Key} {p : Process} {f : OpenFile} :
    some h ∈ (index.otherHolders k p f).map Index.Piece.holder ↔
      h ∈ index.inOrder k ∧ (h.pid ≠ p.pid ∨ h.fd ≠ f.fd) := by
  rw [Index.otherHolders, map_holder_of]
  simp

theorem mem_ptyEnds {k : Key} {n : Nat} {side : Option Side} :
    some h ∈ (index.ptyEnds k n side).map Index.Piece.holder ↔
      h ∈ index.inOrder k ∧ h.side = some (farSide side) := by
  rw [holder_ptyEnds]
  simp

theorem mem_inetEnds {ino : BitVec 64} {p : Process} {f : OpenFile} {side : Option Side} :
    some h ∈ (index.endsOf (.inet ino) side p f forced).map Index.Piece.holder ↔
      ∃ peer, index.peer ino = some peer ∧ h ∈ index.sockets (.inet peer) := by
  unfold Index.endsOf
  cases hpeer : index.peer ino with
  | none => simp [hpeer]
  | some peer =>
    simp only [hpeer, map_holder_of]
    simp

end Naming

section Recorded

variable {tables : EndpointTables} {mqueueDevice : Option (BitVec 64)} {procs : List Process}
variable {host : Host} {width : CommandWidth} {index : Index}

theorem id_eq_of_holder {r s : KeyedRow tables mqueueDevice} (hkey : r.key = s.key)
    (h : r.holder host width = s.holder host width) : r.id = s.id := by
  have hpid : r.entry.pid = s.entry.pid := congrArg Holder.pid h
  have hfd : r.file.fd = s.file.fd := congrArg Holder.fd h
  simp only [KeyedRow.id, hkey, hpid, hfd]

theorem ends_of_keyed (hb : Built tables mqueueDevice host width procs index)
    (r : KeyedRow tables mqueueDevice) (forced : Bool) :
    index.ends r.entry r.file forced = index.endsOf r.key r.side r.entry r.file forced := by
  rw [Index.ends, hb.key, r.keyed]

theorem mem_holders_iff (hb : Built tables mqueueDevice host width procs index)
    {r : KeyedRow tables mqueueDevice} (hunix : isUnixKey r.key = false) (forced : Bool) (h : Holder) :
    some h ∈ (index.ends r.entry r.file forced).map Index.Piece.holder ↔
      ∃ s ∈ recordedRows tables mqueueDevice procs, Meets index r s ∧ s.holder host width = h := by
  rw [ends_of_keyed hb]
  cases hr : r.key with
  | unix ino => simp [hr, isUnixKey] at hunix
  | inet ino =>
    rw [mem_inetEnds]
    constructor
    · rintro ⟨peer, hpeer, hmem⟩
      rw [hb.sockets _ rfl, mem_holdersAt] at hmem
      obtain ⟨s, hs, hskey, hsh⟩ := hmem
      exact ⟨s, hs, by simp only [Meets, hr]; exact ⟨peer, hpeer, hskey⟩, hsh⟩
    · rintro ⟨s, hs, hmeets, hsh⟩
      simp only [Meets, hr] at hmeets
      obtain ⟨peer, hpeer, hskey⟩ := hmeets
      refine ⟨peer, hpeer, ?_⟩
      rw [hb.sockets _ rfl, mem_holdersAt]
      exact ⟨s, hs, hskey, hsh⟩
  | pty n =>
    show some h ∈ (index.ptyEnds _ _ _).map _ ↔ _
    rw [mem_ptyEnds, hb.inOrder _ rfl, mem_holdersAt]
    constructor
    · rintro ⟨⟨s, hs, hskey, hsh⟩, hside⟩
      rw [← hsh] at hside
      exact ⟨s, hs, by simp only [Meets, hr]; exact ⟨hskey, hside⟩, hsh⟩
    · rintro ⟨s, hs, hmeets, hsh⟩
      simp only [Meets, hr] at hmeets
      exact ⟨⟨s, hs, hmeets.1, hsh⟩, hsh ▸ hmeets.2⟩
  | pipe i | mq i | eventFd i =>
    show some h ∈ (index.otherHolders _ _ _).map _ ↔ _
    rw [mem_otherHolders, hb.inOrder _ rfl, mem_holdersAt]
    have hid : ∀ s : KeyedRow tables mqueueDevice, s.key = r.key →
        (s.id ≠ r.id ↔ s.entry.pid ≠ r.entry.pid ∨ s.file.fd ≠ r.file.fd) := by
      intro s hs
      simp only [KeyedRow.id, hs, ne_eq, Prod.mk.injEq, true_and, not_and_or]
    rw [hr] at hid
    constructor
    · rintro ⟨⟨s, hs, hskey, hsh⟩, hother⟩
      rw [← hsh] at hother
      exact ⟨s, hs, by simp only [Meets, hr]; exact ⟨hskey, (hid s hskey).mpr hother⟩, hsh⟩
    · rintro ⟨s, hs, hmeets, hsh⟩
      simp only [Meets, hr] at hmeets
      exact ⟨⟨s, hs, hmeets.1, hsh⟩, hsh ▸ (hid s hmeets.1).mp hmeets.2⟩

theorem isSome_of_mem_holders (hb : Built tables mqueueDevice host width procs index)
    {r : KeyedRow tables mqueueDevice} (hunix : isUnixKey r.key = false) {forced : Bool}
    {h : Option Holder} (hmem : h ∈ (index.ends r.entry r.file forced).map Index.Piece.holder) : h.isSome = true := by
  have hsome : ∀ hs : List Holder, h ∈ hs.map some → h.isSome = true := by
    intro hs hmem
    obtain ⟨x, -, rfl⟩ := mem_map.mp hmem
    rfl
  rw [ends_of_keyed hb] at hmem
  cases hr : r.key with
  | unix ino => simp [hr, isUnixKey] at hunix
  | inet ino =>
    rw [hr, Index.endsOf] at hmem
    cases hpeer : index.peer ino with
    | none => simp [hpeer] at hmem
    | some peer =>
      simp only [hpeer, map_holder_of] at hmem
      exact hsome _ hmem
  | pty n =>
    rw [hr, Index.endsOf, holder_ptyEnds] at hmem
    exact hsome _ hmem
  | pipe i | mq i | eventFd i =>
    rw [hr, Index.endsOf, Index.otherHolders, map_holder_of] at hmem
    exact hsome _ hmem

theorem names_iff_meets (hb : Built tables mqueueDevice host width procs index)
    {r s : KeyedRow tables mqueueDevice} (hunix : isUnixKey r.key = false)
    (hs : s ∈ recordedRows tables mqueueDevice procs) (forced : Bool) :
    Names host width index forced r s ↔ Meets index r s := by
  have hholders := mem_holders_iff hb hunix forced (s.holder host width)
  rw [mem_map] at hholders
  unfold Names
  rw [hholders]
  constructor
  · intro ⟨hkey, s', hs', hmeets, hsame⟩
    -- one object and one holder: it is the row itself that is met
    have hkeys : s'.key = s.key := Option.some.inj (hmeets.endKey.symm.trans hkey)
    have hrow : s' = s := eq_of_mem_firsts _ hs' hs (id_eq_of_holder hkeys hsame)
    exact hrow ▸ hmeets
  · intro hmeets
    exact ⟨hmeets.endKey, s, hs, hmeets, rfl⟩

end Recorded

/-- Each end named at a recorded row is a recorded row, which names it back,
and none is the row itself where its ends share its object. -/
theorem buildWith_names_symmetric (tables : EndpointTables) (mqueueDevice : Option (BitVec 64))
    (procs : List Process) (host : Host) (width : CommandWidth) (forced : Bool) :
    let index := Index.buildWith host width procs tables mqueueDevice
    let recorded := recordedRows tables mqueueDevice procs
    (∀ r ∈ recorded, isUnixKey r.key = false → ∀ piece ∈ index.ends r.entry r.file forced,
      ∃ s ∈ recorded, piece.holder = some (s.holder host width) ∧
        Names host width index forced r s) ∧
    (∀ r ∈ recorded, ∀ s ∈ recorded, isUnixKey r.key = false →
      Names host width index forced r s → Names host width index forced s r) ∧
    (∀ r ∈ recorded, isShared r.key = true → ¬ Names host width index forced r r) := by
  intro index recorded
  have hb := buildWith_built tables mqueueDevice host width procs
  have hmatch := peer_matching tables mqueueDevice procs host width
  refine ⟨fun r hr hunix piece hpiece => ?_, fun r hr s hs hunix hnames => ?_, fun r hr hshared => ?_⟩
  · have hmem := mem_map_of_mem (f := Index.Piece.holder) hpiece
    obtain ⟨h, hh⟩ := Option.isSome_iff_exists.mp (isSome_of_mem_holders hb hunix hmem)
    rw [hh, mem_holders_iff hb hunix] at hmem
    obtain ⟨s, hs, hmeets, rfl⟩ := hmem
    exact ⟨s, hs, hh, (names_iff_meets hb hunix hs forced).mpr hmeets⟩
  · rw [names_iff_meets hb hunix hs] at hnames
    have hback := hnames.symm _ (fun _ _ => hmatch.symm)
    exact (names_iff_meets hb (not_unix_of_endKey hnames.endKey) hr forced).mpr hback
  · rw [names_iff_meets hb (not_unix_of_isShared hshared) hr]
    exact not_meets_self index hshared

end Lsof.Ends
