import Lsof.Linux.Diag
import Lsof.Original.UnixEnds

/-! # The ends of a UNIX socket, and the C's

The C links its records by pointers and follows them; the index keeps inodes and
remembers the sockets it has met. `Represents` says when the two hold the same
sockets and links, which filling both in from the kernel's dump comes to. Where
the C's walk ends, both name the same ends.
-/

namespace Lsof.Ends

open Lsof.Basis Lsof.Core Lsof.Original List

section Links

variable {ρ : Type}

/-- A pointer to the record of an inode, or none of either. -/
def PointsTo (table : List (UxsinEnds ρ)) (ptr : Option Nat) : Option (BitVec 64) → Prop
  | none => ptr = none
  | some n => ∃ p, ptr = some p ∧ checkUnix table n = some p

/-- The records link sockets as `ends` does. -/
structure Linked (table : List (UxsinEnds ρ)) (ends : BitVec 64 → UnixEnds) : Prop where
  unlisted : ∀ n, checkUnix table n = none → ends n = {}
  peer : ∀ n p u, checkUnix table n = some p → table[p]? = some u → PointsTo table u.peer (ends n).peer
  icons : ∀ n p u, checkUnix table n = some p → table[p]? = some u → PointsTo table u.icons (ends n).incoming
  icstat : ∀ n p u, checkUnix table n = some p → table[p]? = some u → u.icstat = u.icons.isSome

variable {table : List (UxsinEnds ρ)} {ends : BitVec 64 → UnixEnds}

theorem PointsTo.isSome {ptr : Option Nat} {ino : Option (BitVec 64)} (h : PointsTo table ptr ino) :
    ptr.isSome = ino.isSome := by
  cases ino with
  | none => exact congrArg Option.isSome h
  | some n =>
    rcases h with ⟨p, hp, _⟩
    rw [hp]
    rfl

def endsIn (found : Linux.Diag.Found) (n : BitVec 64) : UnixEnds := (found n).getD {}

/-- The records of sockets that no link is known of yet, with the rows on them. -/
def listed (rows : BitVec 64 → List ρ) (inodes : List (BitVec 64)) : List (UxsinEnds ρ) :=
  inodes.map fun n => { inode := n, pxinfo := rows n }

def HasRows (rows : BitVec 64 → List ρ) (table : List (UxsinEnds ρ)) : Prop := ∀ u ∈ table, u.pxinfo = rows u.inode

theorem hasRows_listed (rows : BitVec 64 → List ρ) (inodes : List (BitVec 64)) : HasRows rows (listed rows inodes) := by
  intro u hu
  rcases mem_map.mp hu with ⟨n, _, hn⟩
  rw [← hn]

theorem linked_listed (rows : BitVec 64 → List ρ) (inodes : List (BitVec 64)) :
    Linked (listed rows inodes) (endsIn fun _ => none) := by
  have hrecord : ∀ (p : Nat) (u : UxsinEnds ρ), (listed rows inodes)[p]? = some u →
      u.peer = none ∧ u.icons = none ∧ u.icstat = false := by
    intro p u hu
    unfold listed at hu
    rw [getElem?_map] at hu
    rcases Option.map_eq_some_iff.mp hu with ⟨n, _, hn⟩
    rw [← hn]
    exact ⟨rfl, rfl, rfl⟩
  constructor
  · intro n _
    rfl
  · intro n p u _ hu
    exact (hrecord p u hu).1
  · intro n p u _ hu
    exact (hrecord p u hu).2.1
  · intro n p u _ hu
    rw [(hrecord p u hu).2.1, (hrecord p u hu).2.2]
    rfl

theorem Linked.modify (h : Linked table ends) {si : BitVec 64} {up : Nat} {u : UxsinEnds ρ}
    (hsi : checkUnix table si = some up) (hu : table[up]? = some u) {f : UxsinEnds ρ → UxsinEnds ρ}
    (hf : ∀ v, (f v).inode = v.inode) {e : UnixEnds} (hpeer : PointsTo table (f u).peer e.peer)
    (hicons : PointsTo table (f u).icons e.incoming) (hicstat : (f u).icstat = (f u).icons.isSome) :
    Linked (table.modify up f) fun n => if n = si then e else ends n := by
  have hcheck : ∀ n, checkUnix (table.modify up f) n = checkUnix table n := checkUnix_modify up hf
  have hpoints : ∀ ptr ino, PointsTo table ptr ino → PointsTo (table.modify up f) ptr ino := by
    intro ptr ino hptr
    cases ino with
    | none => exact hptr
    | some n =>
      rcases hptr with ⟨p, hp, hn⟩
      exact ⟨p, hp, (hcheck n).trans hn⟩
  have hself : (table.modify up f)[up]? = some (f u) := by simp [hu]
  -- the record of another inode stands elsewhere and is as it was
  have hother : ∀ n p v, n ≠ si → checkUnix (table.modify up f) n = some p → (table.modify up f)[p]? = some v →
      checkUnix table n = some p ∧ table[p]? = some v := by
    intro n p v hne hn hv
    rw [hcheck] at hn
    have hp : ¬ up = p := fun heq => hne (checkUnix_injective hn (heq ▸ hsi))
    rw [getElem?_modify_ne _ _ hp] at hv
    exact ⟨hn, hv⟩
  have hsame : ∀ p v, checkUnix (table.modify up f) si = some p → (table.modify up f)[p]? = some v → v = f u := by
    intro p v hp hv
    rw [hcheck, hsi] at hp
    rw [← Option.some.inj hp, hself] at hv
    exact (Option.some.inj hv).symm
  constructor
  · intro n hn
    rw [hcheck] at hn
    have hne : n ≠ si := by
      intro heq
      rw [heq, hsi] at hn
      cases hn
    rw [if_neg hne]
    exact h.unlisted n hn
  · intro n p v hn hv
    apply hpoints
    by_cases heq : n = si
    · rw [if_pos heq, hsame p v (heq ▸ hn) hv]
      exact hpeer
    · rw [if_neg heq]
      exact h.peer n p v (hother n p v heq hn hv).1 (hother n p v heq hn hv).2
  · intro n p v hn hv
    apply hpoints
    by_cases heq : n = si
    · rw [if_pos heq, hsame p v (heq ▸ hn) hv]
      exact hicons
    · rw [if_neg heq]
      exact h.icons n p v (hother n p v heq hn hv).1 (hother n p v heq hn hv).2
  · intro n p v hn hv
    by_cases heq : n = si
    · rw [hsame p v (heq ▸ hn) hv]
      exact hicstat
    · exact h.icstat n p v (hother n p v heq hn hv).1 (hother n p v heq hn hv).2

inductive UnixLink where
  | peer (si pi : BitVec 64)
  | incoming (si ic : BitVec 64)
  deriving DecidableEq, Repr

def fillLink (table : List (UxsinEnds ρ)) : UnixLink → List (UxsinEnds ρ)
  | .peer si pi => fillUxpino table si pi
  | .incoming si ic => fillUxicino table si ic

def foundLink (known : BitVec 64 → Bool) (found : Linux.Diag.Found) : UnixLink → Linux.Diag.Found
  | .peer si pi => Linux.Diag.peer known found si pi
  | .incoming si ic => Linux.Diag.incoming known found si ic

theorem endsIn_update (found : Linux.Diag.Found) (si : BitVec 64) (e : UnixEnds) :
    endsIn (update found si e) = fun n => if n = si then e else endsIn found n := by
  funext n
  unfold endsIn update
  by_cases h : n = si
  · rw [if_pos h, if_pos h]
    rfl
  · rw [if_neg h, if_neg h]

section Filling

variable {known : BitVec 64 → Bool} {found : Linux.Diag.Found}

theorem Linked.keeps_fillUxpino (hknown : ∀ n, known n = (checkUnix table n).isSome) (h : Linked table (endsIn found))
    (si pi : BitVec 64) : Linked (fillUxpino table si pi) (endsIn (Linux.Diag.peer known found si pi)) := by
  unfold fillUxpino Linux.Diag.peer
  rw [hknown, hknown]
  cases hsi : checkUnix table si with
  | none => exact h
  | some up =>
    rcases checkUnix_lt hsi with ⟨u, hu, _⟩
    have hpeer := h.peer si up u hsi hu
    have hnone := hpeer.isSome
    cases hpi : checkUnix table pi with
    | none => simpa using h
    | some pp =>
      simp only [hu, Option.any_some, Option.isSome_some, Bool.not_true, Bool.or_self, Bool.false_eq_true, if_false,
        hnone]
      rw [endsIn_update]
      by_cases hset : (endsIn found si).peer.isSome = true
      · have hold : (fun n => if n = si then endsIn found si else endsIn found n) = endsIn found := by
          funext n
          by_cases hn : n = si
          · rw [if_pos hn, hn]
          · rw [if_neg hn]
        have hkeep : ((found si).getD {}).peer.isNone = false := by
          rw [← Option.not_isSome]
          exact congrArg (! ·) hset
        rw [if_pos hset, hkeep]
        exact hold.symm ▸ h
      · have hkeep : ((found si).getD {}).peer.isNone = true := by
          rw [← Option.not_isSome]
          exact congrArg (! ·) (Bool.eq_false_of_not_eq_true hset)
        rw [if_neg hset, hkeep]
        have hpoints : PointsTo table (some pp) (some pi) := ⟨pp, rfl, hpi⟩
        exact h.modify (f := fun u => { u with peer := some pp }) (e := { endsIn found si with peer := some pi }) hsi hu
          (fun _ => rfl) hpoints (h.icons si up u hsi hu) (h.icstat si up u hsi hu)

theorem Linked.keeps_fillUxicino (hknown : ∀ n, known n = (checkUnix table n).isSome) (h : Linked table (endsIn found))
    (si ic : BitVec 64) : Linked (fillUxicino table si ic) (endsIn (Linux.Diag.incoming known found si ic)) := by
  unfold fillUxicino Linux.Diag.incoming
  rw [hknown, hknown]
  cases hsi : checkUnix table si with
  | none => exact h
  | some psi =>
    rcases checkUnix_lt hsi with ⟨u, hu, _⟩
    have hicons := (h.icons si psi u hsi hu).isSome
    have hany : (found si).any (·.incoming.isSome) = (endsIn found si).incoming.isSome := by
      unfold endsIn
      cases found si with
      | none => rfl
      | some e => rfl
    simp only [hu, Option.any_some, Option.isSome_some, Bool.not_true, Bool.false_eq_true, if_false,
      h.icstat si psi u hsi hu, Bool.or_self, hicons, hany]
    by_cases hset : (endsIn found si).incoming.isSome = true
    · rw [if_pos hset, if_pos hset]
      exact h
    · rw [if_neg hset, if_neg hset]
      cases hic : checkUnix table ic with
      | none => exact h
      | some pic =>
        rw [Option.isSome_some, if_pos rfl, endsIn_update]
        have hpoints : PointsTo table (some pic) (some ic) := ⟨pic, rfl, hic⟩
        exact h.modify (f := fun u => { u with icstat := true, icons := some pic })
          (e := { endsIn found si with incoming := some ic }) hsi hu (fun _ => rfl) (h.peer si psi u hsi hu) hpoints rfl

theorem checkUnix_fillLink (table : List (UxsinEnds ρ)) (link : UnixLink) (n : BitVec 64) :
    checkUnix (fillLink table link) n = checkUnix table n := by
  cases link with
  | peer si pi => exact checkUnix_fillUxpino si pi n
  | incoming si ic => exact checkUnix_fillUxicino si ic n

theorem HasRows.keeps_fillLink {rows : BitVec 64 → List ρ} (h : HasRows rows table) (link : UnixLink) :
    HasRows rows (fillLink table link) := by
  have hmodify : ∀ (p : Nat) (f : UxsinEnds ρ → UxsinEnds ρ), (∀ u, (f u).pxinfo = u.pxinfo ∧ (f u).inode = u.inode) →
      HasRows rows (table.modify p f) := by
    intro p f hf u hu
    rcases mem_iff_getElem?.mp hu with ⟨i, hi⟩
    rw [getElem?_modify] at hi
    rcases Option.map_eq_some_iff.mp hi with ⟨v, hv, hvu⟩
    have hrow := h v (mem_of_getElem? hv)
    by_cases hpi : p = i
    · rw [if_pos hpi] at hvu
      rw [← hvu, (hf v).1, (hf v).2, hrow]
    · rw [if_neg hpi] at hvu
      rw [← hvu]
      exact hrow
  cases link with
  | peer si pi =>
    simp only [fillLink, fillUxpino]
    split
    · exact h
    · split
      · exact h
      · split
        · exact h
        · exact hmodify _ _ fun _ => ⟨rfl, rfl⟩
  | incoming si ic =>
    simp only [fillLink, fillUxicino]
    split
    · exact h
    · split
      · exact h
      · split
        · exact h
        · exact hmodify _ _ fun _ => ⟨rfl, rfl⟩

theorem HasRows.keeps_fillLinks {rows : BitVec 64 → List ρ} (h : HasRows rows table) (links : List UnixLink) :
    HasRows rows (links.foldl fillLink table) := by
  induction links generalizing table with
  | nil => exact h
  | cons link links ih => exact ih (h.keeps_fillLink link)

theorem Linked.keeps_fillLink (hknown : ∀ n, known n = (checkUnix table n).isSome) (h : Linked table (endsIn found))
    (link : UnixLink) : Linked (fillLink table link) (endsIn (foundLink known found link)) := by
  cases link with
  | peer si pi => exact h.keeps_fillUxpino hknown si pi
  | incoming si ic => exact h.keeps_fillUxicino hknown si ic

theorem Linked.keeps_fillLinks (hknown : ∀ n, known n = (checkUnix table n).isSome) (h : Linked table (endsIn found))
    (links : List UnixLink) : Linked (links.foldl fillLink table) (endsIn (links.foldl (foundLink known) found)) := by
  induction links generalizing table found with
  | nil => exact h
  | cons link links ih =>
    apply ih
    · intro n
      rw [checkUnix_fillLink]
      exact hknown n
    · exact h.keeps_fillLink hknown link

end Filling

end Links

section Walking

variable (index : Index)

def incomingOf (n : BitVec 64) : Option (BitVec 64) := (index.tables.unix.lookup n).bind UnixEnds.incoming

def nameSocket (n : BitVec 64) : List Index.Piece := if n ≠ 0 then index.unixSocket n else []

/-- The ends of a socket as the index names them, its loop given so many turns. None
where they are not enough. -/
def unixEndsWithin (turns : Nat) (ino : BitVec 64) (forced : Bool) : Option (List Index.Piece) :=
  let ends := (index.tables.unix.lookup ino).getD {}
  let incoming := (guardedWalk (incomingOf index) ino turns ends.incoming []).map fun ns => ns.flatMap (nameSocket index)
  match ends.peer.filter (fun p => p != 0) with
  | some peer =>
    if forced then some (index.unixSocket peer) else incoming.map fun rest => index.unixSocket peer ++ rest
  | none => incoming

variable {index}

variable {turns : Nat}

theorem unixIncoming_of_guardedWalk {ino : BitVec 64} {cur : Option (BitVec 64)} {walked ns : List (BitVec 64)}
    (h : guardedWalk (incomingOf index) ino turns cur walked = some ns) :
    index.unixIncoming ino turns cur walked = ns.flatMap (nameSocket index) := by
  induction turns generalizing cur walked ns with
  | zero => exact absurd h nofun
  | succ turns ih =>
    cases cur with
    | none =>
      rw [← Option.some.inj h]
      rfl
    | some n =>
      rw [guardedWalk] at h
      rw [Index.unixIncoming]
      by_cases hend : n = ino ∨ n ∈ walked
      · rw [if_pos hend] at h ⊢
        rw [← Option.some.inj h]
        rfl
      · rw [if_neg hend] at h ⊢
        rcases Option.map_eq_some_iff.mp h with ⟨rest, hrest, hns⟩
        have htail : index.unixIncoming ino turns ((index.tables.unix.lookup n).bind UnixEnds.incoming) (n :: walked) =
            rest.flatMap (nameSocket index) := ih hrest
        rw [htail, ← hns, flatMap_cons]
        rfl

theorem incoming_walk_ends (ino : BitVec 64) (hturns : index.tables.unix.length + 2 ≤ turns)
    (cur : Option (BitVec 64)) : (guardedWalk (incomingOf index) ino turns cur []).isSome = true := by
  have hkeys : ∀ n, (incomingOf index n).isSome = true → n ∈ index.tables.unix.map Prod.fst := by
    intro n hn
    unfold incomingOf at hn
    cases hlook : index.tables.unix.lookup n with
    | none =>
      rw [hlook] at hn
      cases hn
    | some e =>
      have hmem := lookup_eq_some_iff.mp hlook
      rcases hmem with ⟨before, after, heq, _⟩
      rw [heq]
      simp
  apply guardedWalk_isSome hkeys nodup_nil
  · intro _
    exact nil_subset _
  · exact Nat.zero_le _
  · rw [length_map]
    exact hturns

theorem unixEndsWithin_eq (ino : BitVec 64) (forced : Bool) (hturns : index.tables.unix.length + 2 ≤ turns) :
    unixEndsWithin index turns ino forced = some (index.unixEnds ino forced) := by
  rcases Option.isSome_iff_exists.mp (incoming_walk_ends ino hturns ((index.tables.unix.lookup ino).getD {}).incoming)
    with ⟨ns, hns⟩
  rcases Option.isSome_iff_exists.mp
    (incoming_walk_ends ino (Nat.le_refl _) ((index.tables.unix.lookup ino).getD {}).incoming) with ⟨ms, hms⟩
  have hsame := guardedWalk_unique hns hms
  unfold unixEndsWithin Index.unixEnds
  simp only [hns, unixIncoming_of_guardedWalk hms, hsame]
  cases (((index.tables.unix.lookup ino).getD {}).peer.filter (fun p => p != 0)) with
  | none => rfl
  | some peer =>
    cases forced with
    | false => rfl
    | true => exact congrArg some (append_nil _).symm

end Walking

structure Represents (table : List (UxsinEnds Holder)) (index : Index) : Prop where
  linked : Linked table (endsIn fun n => index.tables.unix.lookup n)
  rows : ∀ n p u, checkUnix table n = some p → table[p]? = some u → u.pxinfo = (index.sockets (.unix n)).reverse

def pieceOf : NamedEnd Holder → Index.Piece
  | .socket n => { text := "->INO=".toList ++ Text.ofNat n.toNat, holder := none }
  | .row h => Index.Piece.of h

section Naming

variable {table : List (UxsinEnds Holder)} {index : Index}

def inodeAt (table : List (UxsinEnds Holder)) (p : Nat) : BitVec 64 := (table[p]?.map UxsinEnds.inode).getD 0

variable {p : Nat} {n : BitVec 64}

theorem inodeAt_of_checkUnix (h : checkUnix table n = some p) : inodeAt table p = n := by
  rcases checkUnix_lt h with ⟨u, hu, hn⟩
  unfold inodeAt
  rw [hu]
  exact hn

/-- The record that is found for its inode. Pointers lead to no other. -/
def IsFirst (table : List (UxsinEnds Holder)) (p : Nat) : Prop := checkUnix table (inodeAt table p) = some p

theorem isFirst_of_checkUnix (h : checkUnix table n = some p) : IsFirst table p := by
  unfold IsFirst
  rw [inodeAt_of_checkUnix h]
  exact h

theorem PointsTo.map_inodeAt {ptr : Option Nat} {ino : Option (BitVec 64)} (h : PointsTo table ptr ino) :
    ptr.map (inodeAt table) = ino := by
  cases ino with
  | none =>
    have hptr : ptr = none := h
    rw [hptr]
    rfl
  | some n =>
    rcases h with ⟨p, hp, hn⟩
    rw [hp, Option.map_some, inodeAt_of_checkUnix hn]

theorem PointsTo.isFirst {ptr : Option Nat} {ino : Option (BitVec 64)} (h : PointsTo table ptr ino)
    (hp : ptr = some p) : IsFirst table p := by
  cases ino with
  | none =>
    have hptr : ptr = none := h
    rw [hp] at hptr
    cases hptr
  | some n =>
    rcases h with ⟨q, hq, hn⟩
    have hpq : p = q := Option.some.inj (hp.symm.trans hq)
    exact hpq ▸ isFirst_of_checkUnix hn

theorem Represents.prtUxs_eq (h : Represents table index) (hp : checkUnix table n = some p) :
    (prtUxs table p).map pieceOf = index.unixSocket n := by
  rcases checkUnix_lt hp with ⟨u, hu, hn⟩
  unfold prtUxs Index.unixSocket
  simp only [hu, h.rows n p u hp hu, map_cons, map_map, hn]
  rfl

theorem hasInode_of_checkUnix (hp : checkUnix table n = some p) : hasInode table p = (n != 0) := by
  rcases checkUnix_lt hp with ⟨u, hu, hn⟩
  unfold hasInode
  rw [hu, Option.any_some, hn]

theorem Represents.prtInode_eq (h : Represents table index) (hp : IsFirst table p) :
    (prtInode table p).map pieceOf = nameSocket index (inodeAt table p) := by
  unfold prtInode nameSocket
  rw [hasInode_of_checkUnix hp]
  by_cases hzero : inodeAt table p = 0
  · rw [hzero]
    rfl
  · have hne : (inodeAt table p != 0) = true := bne_iff_ne.mpr hzero
    rw [if_pos hne, if_pos hzero]
    exact h.prtUxs_eq hp

theorem Represents.iconsOf_points (h : Represents table index) (hp : IsFirst table p) :
    PointsTo table (iconsOf table p) (incomingOf index (inodeAt table p)) := by
  rcases checkUnix_lt hp with ⟨u, hu, _⟩
  have hicons := h.linked.icons (inodeAt table p) p u hp hu
  have hends : (endsIn (fun n => index.tables.unix.lookup n) (inodeAt table p)).incoming =
      incomingOf index (inodeAt table p) := by
    unfold endsIn incomingOf
    cases hlook : index.tables.unix.lookup (inodeAt table p) with
    | none => simp only [hlook, Option.getD_none, Option.bind_none]
    | some e => simp only [hlook, Option.getD_some, Option.bind_some]
  rw [hends] at hicons
  unfold iconsOf
  rw [hu]
  exact hicons

variable {ino : BitVec 64} {turns : Nat}

theorem unixIncoming_eq {cur : Option (BitVec 64)} {ns : List (BitVec 64)}
    (h : guardedWalk (incomingOf index) ino turns cur [] = some ns) :
    index.unixIncoming ino (index.tables.unix.length + 2) cur [] = ns.flatMap (nameSocket index) := by
  rcases Option.isSome_iff_exists.mp (incoming_walk_ends ino (Nat.le_refl _) cur) with ⟨ms, hms⟩
  rw [unixIncoming_of_guardedWalk hms, guardedWalk_unique hms h]

theorem Represents.walk_eq (h : Represents table index) {tp : Nat} (htp : checkUnix table ino = some tp)
    {cur : Option Nat} (hcur : ∀ p ∈ cur, IsFirst table p) {ps : List Nat}
    (hwalk : plainWalk (iconsOf table) tp turns cur = some ps) :
    index.unixIncoming ino (index.tables.unix.length + 2) (cur.map (inodeAt table)) [] =
      (ps.flatMap (prtInode table)).map pieceOf := by
  have hnext : ∀ p, IsFirst table p → ∀ q ∈ iconsOf table p, IsFirst table q := by
    intro p hp q hq
    exact (h.iconsOf_points hp).isFirst hq
  have hmap : ∀ p, IsFirst table p →
      incomingOf index (inodeAt table p) = (iconsOf table p).map (inodeAt table) := by
    intro p hp
    exact (h.iconsOf_points hp).map_inodeAt.symm
  have hinj : ∀ p q, IsFirst table p → IsFirst table q → inodeAt table p = inodeAt table q → p = q := by
    intro p q hp hq heq
    have hp' : checkUnix table (inodeAt table q) = some p := heq ▸ hp
    exact Option.some.inj (hp'.symm.trans hq)
  have hinodes := plainWalk_map hmap hnext hinj (isFirst_of_checkUnix htp) hcur hwalk
  rw [inodeAt_of_checkUnix htp] at hinodes
  have hnew : ∀ m ∈ ps.map (inodeAt table), m ∉ [] := fun _ _ => not_mem_nil
  have hguarded := plainWalk_guarded hinodes hnew
  have hfirst := plainWalk_forall hnext hcur hwalk
  rw [unixIncoming_eq hguarded, flatMap_map, map_flatMap]
  apply flatMap_congr
  intro p hp
  exact (h.prtInode_eq (hfirst p hp)).symm

theorem Represents.unixIcons_eq (h : Represents table index) {out : List (NamedEnd Holder)}
    (hout : unixIcons table turns ino = some out) :
    index.unixIncoming ino (index.tables.unix.length + 2) ((index.tables.unix.lookup ino).getD {}).incoming [] =
      out.map pieceOf := by
  unfold unixIcons at hout
  cases hino : checkUnix table ino with
  | none =>
    have hends : (index.tables.unix.lookup ino).getD {} = {} := h.linked.unlisted ino hino
    rw [hino] at hout
    rw [hends, ← Option.some.inj hout]
    rfl
  | some tp =>
    rcases checkUnix_lt hino with ⟨u, hu, _⟩
    have hicons : PointsTo table u.icons ((index.tables.unix.lookup ino).getD {}).incoming :=
      h.linked.icons ino tp u hino hu
    have hptr : iconsOf table tp = u.icons := by
      unfold iconsOf
      rw [hu, Option.bind_some]
    rw [hino] at hout
    simp only [prtIcons, hptr, hu, Option.any_some, h.linked.icstat ino tp u hino hu] at hout
    rw [← hicons.map_inodeAt]
    cases hcase : u.icons with
    | none =>
      rw [hcase] at hout
      rw [← Option.some.inj hout]
      rfl
    | some first =>
      rw [hcase] at hout
      rcases Option.map_eq_some_iff.mp hout with ⟨ps, hps, hflat⟩
      rw [← hflat]
      exact h.walk_eq hino (fun p hp => hicons.isFirst (hcase.trans hp)) hps

theorem Represents.findUxepti_points (h : Represents table index) (ino : BitVec 64) :
    PointsTo table (findUxepti table ino) ((index.tables.unix.lookup ino).getD {}).peer := by
  unfold findUxepti
  cases hino : checkUnix table ino with
  | none =>
    have hends : (index.tables.unix.lookup ino).getD {} = {} := h.linked.unlisted ino hino
    rw [hends]
    rfl
  | some tp =>
    rcases checkUnix_lt hino with ⟨u, hu, _⟩
    rw [Option.bind_some, hu]
    exact h.linked.peer ino tp u hino hu

end Naming

theorem represents_filled {index : Index} {inodes : List (BitVec 64)} {links : List UnixLink}
    (hfound : (fun n => index.tables.unix.lookup n) = links.foldl (foundLink fun n => inodes.contains n) fun _ => none) :
    Represents (links.foldl fillLink (listed (fun n => (index.sockets (.unix n)).reverse) inodes)) index := by
  have hknown : ∀ n, inodes.contains n =
      (checkUnix (listed (fun n => (index.sockets (.unix n)).reverse) inodes) n).isSome := by
    intro n
    rw [Bool.eq_iff_iff, contains_iff_mem]
    unfold checkUnix listed
    simp
  constructor
  · rw [hfound]
    exact (linked_listed _ inodes).keeps_fillLinks hknown links
  · intro n p u hn hu
    rcases checkUnix_lt hn with ⟨v, hv, hvn⟩
    have huv : u = v := Option.some.inj (hu.symm.trans hv)
    have hrows := (hasRows_listed (fun n => (index.sockets (.unix n)).reverse) inodes).keeps_fillLinks links
    rw [hrows u (mem_of_getElem? hu), huv, hvn]

/-- The index's walk always ends, and where the C's does, both name the same ends of a
socket, in the same order, on a row that was selected and on one forced into the
listing. -/
theorem unixEnds_as_original :
    (∀ (index : Index) (ino : BitVec 64) (forced : Bool) (turns : Nat), index.tables.unix.length + 2 ≤ turns →
      unixEndsWithin index turns ino forced = some (index.unixEnds ino forced)) ∧
    ∀ (table : List (UxsinEnds Holder)) (index : Index), Represents table index →
      ∀ (ino : BitVec 64) (forced : Bool) (turns : Nat) (out : List (NamedEnd Holder)),
        processUxsinfo table turns ino forced = some out → index.unixEnds ino forced = out.map pieceOf := by
  constructor
  · intro index ino forced turns hturns
    exact unixEndsWithin_eq ino forced hturns
  · intro table index h ino forced turns out hout
    have hpeer := h.findUxepti_points ino
    unfold processUxsinfo at hout
    unfold Index.unixEnds
    dsimp only
    cases hends : ((index.tables.unix.lookup ino).getD {}).peer with
    | none =>
      rw [hends] at hpeer
      have hnone : findUxepti table ino = none := hpeer
      rw [hnone] at hout
      exact h.unixIcons_eq hout
    | some m =>
      rw [hends] at hpeer
      rcases hpeer with ⟨q, hq, hm⟩
      rw [hq, Option.filter_some, hasInode_of_checkUnix hm] at hout
      rw [Option.filter_some]
      by_cases hzero : (m != 0) = true
      · rw [if_pos hzero] at hout ⊢
        cases forced with
        | true =>
          simp only [if_true] at hout ⊢
          rw [← Option.some.inj hout, h.prtUxs_eq hm, append_nil]
        | false =>
          simp only [Bool.false_eq_true, if_false] at hout ⊢
          rcases Option.map_eq_some_iff.mp hout with ⟨rest, hrest, hcons⟩
          rw [← hcons, map_append, h.prtUxs_eq hm, h.unixIcons_eq hrest]
      · rw [if_neg hzero] at hout ⊢
        exact h.unixIcons_eq hout

/-- Sockets 10 and 20 are connected, and 20 waits to be accepted by 30. -/
def pairAndListener : Index :=
  { tables := { unix := [(20, { peer := some 10 }), (10, { peer := some 20 }), (30, { incoming := some 20 })] } }

def pairAndListenerLinks : List UnixLink := [.incoming 30 20, .incoming 30 10, .peer 10 20, .peer 20 10]

theorem unixEnds_as_original_listener :
    pairAndListener.unixEnds 30 false = [{ text := "->INO=20".toList, holder := none }] ∧
      pairAndListener.unixEnds 10 true = [{ text := "->INO=20".toList, holder := none }] := by
  have hfound : (fun n => pairAndListener.tables.unix.lookup n) =
      pairAndListenerLinks.foldl (foundLink fun n => [10, 20, 30].contains n) fun _ => none := by
    funext n
    by_cases h20 : n = 20#64
    · subst h20
      rfl
    · by_cases h10 : n = 10#64
      · subst h10
        rfl
      · by_cases h30 : n = 30#64
        · subst h30
          rfl
        · simp [pairAndListener, pairAndListenerLinks, foundLink, Linux.Diag.incoming, Linux.Diag.peer, update, List.lookup,
            beq_false_of_ne h10, beq_false_of_ne h20, beq_false_of_ne h30, h10, h20, h30]
  have hrep := represents_filled hfound
  constructor
  · exact unixEnds_as_original.2 _ _ hrep 30 false 3 [.socket 20] rfl
  · exact unixEnds_as_original.2 _ _ hrep 10 true 3 [.socket 20] rfl

end Lsof.Ends
