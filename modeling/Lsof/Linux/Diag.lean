import Lsof.Basis.Views
import Lsof.Core.Endpoints

/-! # The kernel's dump of UNIX sockets

A dump comes in buffers of records: a header with the record's length, its kind and
the number of the request it answers, then a socket and its attributes, each with
its own length. What is kept is each known socket's peer and a listener's first
pending connection.
-/

namespace Lsof.Linux.Diag

open Lsof.Basis Lsof.Core List

def NLMSG_HDRLEN : Nat := 16

def NLMSG_ERROR : Nat := 2

def NLMSG_DONE : Nat := 3

def AF_UNIX : UInt8 := 1

def UNIX_DIAG_PEER : Nat := 2

def UNIX_DIAG_ICONS : Nat := 3

def UNIX_DIAG_MSG_LEN : Nat := 16

def RTA_HDRLEN : Nat := 4

inductive Step where
  | more
  | done
  | error
  deriving DecidableEq, Repr

abbrev Found := BitVec 64 → Option UnixEnds

/-- Up to a multiple of four, where that is a `usize`. -/
def align4 (n : Nat) : Option Nat := if n + 3 < 2 ^ 64 then some ((n + 3) / 4 * 4) else none

def nextView (header len : Nat) (v : View) : Option View := (align4 (max len header)).bind v.after

section Parsing

variable (order : ByteOrder) (known : BitVec 64 → Bool) (seq : BitVec 32)

def u16At (v : View) (i : Nat) : Reading (Option Nat) := v.number order 2 i

def u32At (v : View) (i : Nat) : Reading (Option Nat) := v.number order 4 i

/-- A socket's peer, unless it has one; both must be known. -/
def peer (found : Found) (si pi : BitVec 64) : Found :=
  if !known si || !known pi then found
  else
    let e := (found si).getD {}
    update found si (if e.peer.isNone then { e with peer := some pi } else e)

/-- A listener's pending connection, unless it has one; both must be known. -/
def incoming (found : Found) (si ic : BitVec 64) : Found :=
  if !known si then found
  else if (found si).any (·.incoming.isSome) then found
  else if known ic then update found si { (found si).getD {} with incoming := some ic }
  else found

/-- The stretches of `n` bytes, without what is left over. -/
def chunksExact (n : Nat) (v : View) : List View :=
  (List.range (v.length / n)).filterMap fun k => v.slice (n * k) (n * k + n)

def icons (ino : BitVec 64) : List View → Found → Reading Found
  | [], found => pure found
  | chunk :: chunks, found => do
      let ic ← u32At order chunk 0
      icons ino chunks (match ic with
        | some ic => incoming known found ino (BitVec.ofNat 64 ic)
        | none => found)

def parseAttr (ino : BitVec 64) (type : Option Nat) (payload : View) (found : Found) : Reading Found :=
  if type = some UNIX_DIAG_PEER then do
    let p ← u32At order payload 0
    match p with
    | none => pure found
    | some p =>
      if p = 0 then pure found
      else pure (peer known (peer known found ino (BitVec.ofNat 64 p)) (BitVec.ofNat 64 p) ino)
  else if type = some UNIX_DIAG_ICONS then icons order known ino (chunksExact 4 payload) found
  else pure found

def attrTurn (ino : BitVec 64) (attrs : View) (found : Found) : Reading (Found × Option View) :=
  if attrs.length < RTA_HDRLEN then pure (found, none)
  else do
    let len ← u16At order attrs 0
    match len with
    | none => pure (found, none)
    | some len =>
      if len < RTA_HDRLEN ∨ attrs.length < len then pure (found, none)
      else do
        let payload := (attrs.slice RTA_HDRLEN len).getD ⟨attrs.base, []⟩
        let type ← u16At order attrs 2
        let found ← parseAttr order known ino type payload found
        pure (found, nextView RTA_HDRLEN len attrs)

def parseDiag (body : View) (found : Found) : Reading (Option Found) :=
  if body.length ≤ UNIX_DIAG_MSG_LEN then pure (some found)
  else do
    let family ← body.first
    if family ≠ some AF_UNIX then pure (some found)
    else do
      let ino ← u32At order body 4
      match ino with
      | none => pure (some found)
      | some ino =>
        if ino = 0 then pure (some found)
        else
          let attrs := (body.after UNIX_DIAG_MSG_LEN).getD ⟨body.base, []⟩
          turns (attrTurn order known (BitVec.ofNat 64 ino)) (attrs.length + 1) attrs found

/-- What a record comes to, its length known to be in the buffer. -/
def parseRecord (rest : View) (len : Nat) (found : Found) : Reading (Option (Step × Found)) := do
  let number ← u32At order rest 8
  if number = some seq.toNat then do
    let type ← u16At order rest 4
    if type = some NLMSG_DONE then pure (some (.done, found))
    else if type = some NLMSG_ERROR then pure (some (.error, found))
    else
      match rest.slice NLMSG_HDRLEN len with
      | none => pure (some (.more, found))
      | some body => do
          let found ← parseDiag order known body found
          pure (found.map fun found => (.more, found))
  else pure (some (.more, found))

def replyTurn (rest : View) (state : Option (Step × Found)) : Reading (Option (Step × Found) × Option View) :=
  match state with
  | some (.more, found) =>
    if rest.length < NLMSG_HDRLEN then pure (state, none)
    else do
      let len ← u32At order rest 0
      match len with
      | none => pure (state, none)
      | some len =>
        if len < NLMSG_HDRLEN ∨ rest.length < len then pure (state, none)
        else do
          let result ← parseRecord order known seq rest len found
          match result with
          | some (.more, found) => pure (some (.more, found), nextView NLMSG_HDRLEN len rest)
          | result => pure (result, none)
  | state => pure (state, none)

/-- One buffer of the dump. None would be a loop that has not come to its end. -/
def parseReply (buf : Bytes) (found : Found) : Reading (Option (Step × Found)) := do
  let result ← turns (replyTurn order known seq) (buf.length + 1) (View.whole buf) (some (.more, found))
  pure result.join

/-- The buffers of a dump, one after another, until one ends it. -/
def parseReplies : List Bytes → Found → Option (Step × Found)
  | [], found => some (.more, found)
  | buf :: bufs, found =>
    match (parseReply order known seq buf found).value with
    | some (.more, found) => parseReplies bufs found
    | result => result

theorem le_align4 {n a : Nat} (h : align4 n = some a) : n ≤ a := by
  unfold align4 at h
  split at h
  next => 
    rw [← Option.some.inj h]
    omega
  next => exact absurd h nofun

variable {v u : View}

theorem nextView_less {header len : Nat} (hheader : 0 < header) (h : nextView header len v = some u) :
    u.length < v.length := by
  rcases Option.bind_eq_some_iff.mp h with ⟨a, ha, hu⟩
  have hpos : header ≤ a := Nat.le_trans (Nat.le_max_right len header) (le_align4 ha)
  have hlength := View.length_of_slice hu
  unfold View.after View.slice at hu
  split at hu
  next hfits => omega
  next => exact absurd hu nofun

theorem nextView_of {header len : Nat} {buf : Bytes} (hv : v.Of buf) (h : nextView header len v = some u) :
    u.Of buf := by
  rcases Option.bind_eq_some_iff.mp h with ⟨a, -, hu⟩
  exact hv.after hu

theorem nextView_congr (header len : Nat) (h : v.bytes = u.bytes) :
    (nextView header len v).map View.bytes = (nextView header len u).map View.bytes := by
  unfold nextView
  cases align4 (max len header) with
  | none => rfl
  | some a =>
    have hlength : v.length = u.length := congrArg List.length h
    rw [Option.bind_some, Option.bind_some, View.after, View.after, hlength]
    exact View.slice_congr h a u.length

theorem getD_slice_congr (h : v.bytes = u.bytes) (a b : Nat) :
    ((v.slice a b).getD ⟨v.base, []⟩).bytes = ((u.slice a b).getD ⟨u.base, []⟩).bytes := by
  have hsame := View.slice_congr h a b
  cases hv : v.slice a b with
  | none =>
    cases hu : u.slice a b with
    | none => rfl
    | some w => simp [hv, hu] at hsame
  | some w =>
    cases hu : u.slice a b with
    | none => simp [hv, hu] at hsame
    | some w' => simpa [hv, hu] using hsame

theorem getD_slice_of {buf : Bytes} {v : View} (hv : v.Of buf) (a b : Nat) :
    ((v.slice a b).getD ⟨v.base, []⟩).Of buf := by
  cases hs : v.slice a b with
  | none =>
    rcases hv with ⟨front, back, hbuf, hbase⟩
    exact ⟨front, v.bytes ++ back, by simp [hbuf], hbase⟩
  | some w => exact hv.slice hs

theorem chunksExact_congr (h : v.bytes = u.bytes) (n : Nat) :
    (chunksExact n v).map View.bytes = (chunksExact n u).map View.bytes := by
  have hlength : v.length = u.length := congrArg List.length h
  rw [chunksExact, chunksExact, map_filterMap, map_filterMap, hlength]
  exact filterMap_congr fun k _ => View.slice_congr h _ _

theorem icons_congr (ino : BitVec 64) {vs us : List View} (h : vs.map View.bytes = us.map View.bytes) (found : Found) :
    (icons order known ino vs found).value = (icons order known ino us found).value := by
  induction vs generalizing us found with
  | nil =>
    cases us with
    | nil => rfl
    | cons u us => exact absurd h nofun
  | cons v vs ih =>
    cases us with
    | nil => exact absurd h nofun
    | cons u us =>
      rw [map_cons, map_cons, List.cons.injEq] at h
      have hread : (u32At order v 0).value = (u32At order u 0).value := View.value_number_congr h.1 order 4 0
      rw [icons, icons, Reading.value_bind, Reading.value_bind, hread]
      exact ih h.2 _

theorem parseAttr_congr (ino : BitVec 64) (type : Option Nat) (h : v.bytes = u.bytes) (found : Found) :
    (parseAttr order known ino type v found).value = (parseAttr order known ino type u found).value := by
  have hread : (u32At order v 0).value = (u32At order u 0).value := View.value_number_congr h order 4 0
  unfold parseAttr
  by_cases hpeer : type = some UNIX_DIAG_PEER
  · rw [if_pos hpeer, if_pos hpeer, Reading.value_bind, Reading.value_bind, hread]
  · rw [if_neg hpeer, if_neg hpeer]
    by_cases hicons : type = some UNIX_DIAG_ICONS
    · rw [if_pos hicons, if_pos hicons]
      exact icons_congr order known ino (chunksExact_congr h 4) found
    · rw [if_neg hicons, if_neg hicons]

theorem attrTurn_congr (ino : BitVec 64) (h : v.bytes = u.bytes) (found : Found) :
    (attrTurn order known ino v found).value.1 = (attrTurn order known ino u found).value.1 ∧
      (attrTurn order known ino v found).value.2.map View.bytes =
        (attrTurn order known ino u found).value.2.map View.bytes := by
  have hlength : v.length = u.length := congrArg List.length h
  have hlen : (u16At order v 0).value = (u16At order u 0).value := View.value_number_congr h order 2 0
  have htype : (u16At order v 2).value = (u16At order u 2).value := View.value_number_congr h order 2 2
  unfold attrTurn
  rw [hlength]
  by_cases hshort : u.length < RTA_HDRLEN
  · rw [if_pos hshort, if_pos hshort]
    exact ⟨rfl, rfl⟩
  · rw [if_neg hshort, if_neg hshort, Reading.value_bind, Reading.value_bind, hlen]
    cases (u16At order u 0).value with
    | none => exact ⟨rfl, rfl⟩
    | some len =>
      dsimp only
      by_cases hbad : len < RTA_HDRLEN ∨ u.length < len
      · rw [if_pos hbad, if_pos hbad]
        exact ⟨rfl, rfl⟩
      · simp only [if_neg hbad, Reading.value_bind, Reading.value_pure, htype]
        exact ⟨parseAttr_congr order known ino _ (getD_slice_congr h _ _) found, nextView_congr _ _ h⟩

theorem attrTurn_less (ino : BitVec 64) {v next : View} {found : Found}
    (h : (attrTurn order known ino v found).value.2 = some next) : next.length < v.length := by
  unfold attrTurn at h
  by_cases hshort : v.length < RTA_HDRLEN
  · rw [if_pos hshort] at h
    exact absurd h nofun
  · rw [if_neg hshort, Reading.value_bind] at h
    cases hlen : (u16At order v 0).value with
    | none =>
      rw [hlen] at h
      exact absurd h nofun
    | some len =>
      rw [hlen] at h
      dsimp only at h
      split at h
      next => exact absurd h nofun
      next => exact nextView_less (by decide) h

theorem attributes_value (ino : BitVec 64) (h : v.bytes = u.bytes) (found : Found) :
    ∃ found', (turns (attrTurn order known ino) (v.length + 1) v found).value = some found' ∧
      (turns (attrTurn order known ino) (u.length + 1) u found).value = some found' :=
  turns_value (fun _ _ _ => attrTurn_less order known ino) (fun _ _ found h => attrTurn_congr order known ino h found)
    (Nat.lt_succ_self _) (Nat.lt_succ_self _) h found

theorem parseDiag_value (h : v.bytes = u.bytes) (found : Found) :
    ∃ found', (parseDiag order known v found).value = some found' ∧ (parseDiag order known u found).value = some found' := by
  have hlength : v.length = u.length := congrArg List.length h
  have hfamily : v.first.value = u.first.value := View.value_first_congr h
  have hino : (u32At order v 4).value = (u32At order u 4).value := View.value_number_congr h order 4 4
  unfold parseDiag
  rw [hlength]
  by_cases hshort : u.length ≤ UNIX_DIAG_MSG_LEN
  · rw [if_pos hshort, if_pos hshort]
    exact ⟨found, rfl, rfl⟩
  · rw [if_neg hshort, if_neg hshort, Reading.value_bind, Reading.value_bind, hfamily]
    by_cases hunix : u.first.value ≠ some AF_UNIX
    · rw [if_pos hunix, if_pos hunix]
      exact ⟨found, rfl, rfl⟩
    · rw [if_neg hunix, if_neg hunix, Reading.value_bind, Reading.value_bind, hino]
      cases (u32At order u 4).value with
      | none => exact ⟨found, rfl, rfl⟩
      | some ino =>
        dsimp only
        by_cases hzero : ino = 0
        · rw [if_pos hzero, if_pos hzero]
          exact ⟨found, rfl, rfl⟩
        · rw [if_neg hzero, if_neg hzero]
          have hattrs := getD_slice_congr h UNIX_DIAG_MSG_LEN u.length
          rw [View.after, View.after, hlength]
          exact attributes_value order known _ hattrs found

theorem parseRecord_value (h : v.bytes = u.bytes) (len : Nat) (found : Found) :
    ∃ result, (parseRecord order known seq v len found).value = some result ∧
      (parseRecord order known seq u len found).value = some result := by
  have hnumber : (u32At order v 8).value = (u32At order u 8).value := View.value_number_congr h order 4 8
  have htype : (u16At order v 4).value = (u16At order u 4).value := View.value_number_congr h order 2 4
  have hbody := View.slice_congr h NLMSG_HDRLEN len
  unfold parseRecord
  rw [Reading.value_bind, Reading.value_bind, hnumber]
  by_cases hours : (u32At order u 8).value = some seq.toNat
  · rw [if_pos hours, if_pos hours, Reading.value_bind, Reading.value_bind, htype]
    by_cases hdone : (u16At order u 4).value = some NLMSG_DONE
    · rw [if_pos hdone, if_pos hdone]
      exact ⟨_, rfl, rfl⟩
    · rw [if_neg hdone, if_neg hdone]
      by_cases herror : (u16At order u 4).value = some NLMSG_ERROR
      · rw [if_pos herror, if_pos herror]
        exact ⟨_, rfl, rfl⟩
      · rw [if_neg herror, if_neg herror]
        cases hv : v.slice NLMSG_HDRLEN len with
        | none =>
          cases hu : u.slice NLMSG_HDRLEN len with
          | none => exact ⟨_, rfl, rfl⟩
          | some body => simp [hv, hu] at hbody
        | some body =>
          cases hu : u.slice NLMSG_HDRLEN len with
          | none => simp [hv, hu] at hbody
          | some body' =>
            have hbytes : body.bytes = body'.bytes := by simpa [hv, hu] using hbody
            rcases parseDiag_value order known hbytes found with ⟨found', hleft, hright⟩
            refine ⟨(.more, found'), ?_, ?_⟩
            · rw [Reading.value_bind, hleft]
              rfl
            · rw [Reading.value_bind, hright]
              rfl
  · rw [if_neg hours, if_neg hours]
    exact ⟨_, rfl, rfl⟩

theorem replyTurn_value (v : View) (found : Found) :
    (replyTurn order known seq v (some (.more, found))).value = (some (.more, found), none) ∨
      ∃ len step found', NLMSG_HDRLEN ≤ v.length ∧ (u32At order v 0).value = some len ∧ NLMSG_HDRLEN ≤ len ∧ len ≤ v.length ∧
        (parseRecord order known seq v len found).value = some (step, found') ∧
        (replyTurn order known seq v (some (.more, found))).value =
          (some (step, found'), if step = .more then nextView NLMSG_HDRLEN len v else none) := by
  unfold replyTurn
  dsimp only
  by_cases hshort : v.length < NLMSG_HDRLEN
  · rw [if_pos hshort]
    exact Or.inl rfl
  · rw [if_neg hshort, Reading.value_bind]
    cases hlen : (u32At order v 0).value with
    | none => exact Or.inl rfl
    | some len =>
      dsimp only
      by_cases hbad : len < NLMSG_HDRLEN ∨ v.length < len
      · rw [if_pos hbad]
        exact Or.inl rfl
      · rw [if_neg hbad, Reading.value_bind]
        rcases parseRecord_value order known seq (rfl : v.bytes = v.bytes) len found with ⟨⟨step, found'⟩, hresult, -⟩
        rw [hresult]
        refine Or.inr ⟨len, step, found', by omega, rfl, by omega, by omega, hresult, ?_⟩
        cases step <;> rfl

theorem replyTurn_stopped {state : Option (Step × Found)} (h : ∀ found, state ≠ some (.more, found)) (v : View) :
    (replyTurn order known seq v state).value = (state, none) := by
  unfold replyTurn
  split
  next found => exact absurd rfl (h found)
  next => rfl

theorem replyTurn_less {v next : View} {state : Option (Step × Found)}
    (h : (replyTurn order known seq v state).value.2 = some next) : next.length < v.length := by
  by_cases hmore : ∃ found, state = some (.more, found)
  · rcases hmore with ⟨found, hstate⟩
    rw [hstate] at h
    rcases replyTurn_value order known seq v found with hstop | ⟨len, step, found', -, -, -, -, -, hgo⟩
    · rw [hstop] at h
      exact absurd h nofun
    · rw [hgo] at h
      dsimp only at h
      split at h
      next => exact nextView_less (by decide) h
      next => exact absurd h nofun
  · rw [replyTurn_stopped order known seq fun found hstate => hmore ⟨found, hstate⟩] at h
    exact absurd h nofun

theorem replyTurn_congr (h : v.bytes = u.bytes) (state : Option (Step × Found)) :
    (replyTurn order known seq v state).value.1 = (replyTurn order known seq u state).value.1 ∧
      (replyTurn order known seq v state).value.2.map View.bytes =
        (replyTurn order known seq u state).value.2.map View.bytes := by
  have hlength : v.length = u.length := congrArg List.length h
  have hlen : (u32At order v 0).value = (u32At order u 0).value := View.value_number_congr h order 4 0
  unfold replyTurn
  split
  next found =>
    rw [hlength]
    by_cases hshort : u.length < NLMSG_HDRLEN
    · rw [if_pos hshort, if_pos hshort]
      exact ⟨rfl, rfl⟩
    · rw [if_neg hshort, if_neg hshort, Reading.value_bind, Reading.value_bind, hlen]
      cases (u32At order u 0).value with
      | none => exact ⟨rfl, rfl⟩
      | some len =>
        dsimp only
        by_cases hbad : len < NLMSG_HDRLEN ∨ u.length < len
        · rw [if_pos hbad, if_pos hbad]
          exact ⟨rfl, rfl⟩
        · rcases parseRecord_value order known seq h len found with ⟨⟨step, found'⟩, hleft, hright⟩
          rw [if_neg hbad, if_neg hbad, Reading.value_bind, Reading.value_bind, hleft, hright]
          cases step with
          | more => exact ⟨rfl, nextView_congr _ _ h⟩
          | done => exact ⟨rfl, rfl⟩
          | error => exact ⟨rfl, rfl⟩
  next => exact ⟨rfl, rfl⟩

theorem records_value (h : v.bytes = u.bytes) (found : Found) {n m : Nat} (hn : v.length < n) (hm : u.length < m) :
    ∃ result, (turns (replyTurn order known seq) n v (some (.more, found))).value = some (some result) ∧
      (turns (replyTurn order known seq) m u (some (.more, found))).value = some (some result) := by
  rcases turns_value (fun _ _ _ => replyTurn_less order known seq) (fun _ _ state h => replyTurn_congr order known seq h state)
    hn hm h (some (.more, found)) with ⟨state, hleft, hright⟩
  have hkeeps : state.isSome = true := by
    apply turns_keeps (P := fun state => state.isSome = true) _ n (rfl : (some (Step.more, found)).isSome = true) hleft
    intro v state hstate
    by_cases hmore : ∃ found, state = some (.more, found)
    · rcases hmore with ⟨found, hstate⟩
      rw [hstate]
      rcases replyTurn_value order known seq v found with hstop | ⟨len, step, found', -, -, -, -, -, hgo⟩
      · rw [hstop]
        rfl
      · rw [hgo]
        rfl
    · rw [replyTurn_stopped order known seq fun found hstate => hmore ⟨found, hstate⟩]
      exact hstate
  rcases Option.isSome_iff_exists.mp hkeeps with ⟨result, hresult⟩
  rw [hresult] at hleft hright
  exact ⟨result, hleft, hright⟩

theorem parseReply_value (buf : Bytes) (found : Found) :
    ∃ result, (parseReply order known seq buf found).value = some result ∧
      ∀ v : View, v.bytes = buf → ∀ n, v.length < n →
        (turns (replyTurn order known seq) n v (some (.more, found))).value = some (some result) := by
  have hfuel : (View.whole buf).length < buf.length + 1 := Nat.lt_succ_self _
  rcases records_value order known seq (rfl : (View.whole buf).bytes = (View.whole buf).bytes) found hfuel hfuel with
    ⟨result, hresult, -⟩
  refine ⟨result, ?_, ?_⟩
  · rw [parseReply, Reading.value_bind, hresult]
    rfl
  · intro v hv n hn
    rcases records_value order known seq (hv : v.bytes = (View.whole buf).bytes) found hn hfuel with ⟨other, hleft, hright⟩
    rw [hresult] at hright
    rw [hleft, hright]

section Bounds

variable {buf : Bytes} {v : View} (hv : v.Of buf)

include hv

theorem within_u16At (i : Nat) : (u16At order v i).Within buf.length := hv.within_number order 2 i

theorem within_u32At (i : Nat) : (u32At order v i).Within buf.length := hv.within_number order 4 i

theorem chunksExact_of (n : Nat) : ∀ u ∈ chunksExact n v, u.Of buf := by
  intro u hu
  rcases mem_filterMap.mp hu with ⟨k, -, hk⟩
  exact hv.slice hk

omit hv in
theorem within_icons (ino : BitVec 64) {us : List View} (hus : ∀ u ∈ us, u.Of buf) (found : Found) :
    (icons order known ino us found).Within buf.length := by
  induction us generalizing found with
  | nil => exact .pure _ _
  | cons u us ih =>
    apply Reading.Within.bind (within_u32At order (hus u mem_cons_self) 0)
    exact ih (fun w hw => hus w (mem_cons_of_mem u hw)) _

theorem within_parseAttr (ino : BitVec 64) (type : Option Nat) (found : Found) :
    (parseAttr order known ino type v found).Within buf.length := by
  unfold parseAttr
  split
  next =>
    apply Reading.Within.bind (within_u32At order hv 0)
    split
    next => exact .pure _ _
    next =>
      split
      · exact .pure _ _
      · exact .pure _ _
  next =>
    split
    · exact within_icons order known ino (chunksExact_of hv 4) found
    · exact .pure _ _

theorem within_attrTurn (ino : BitVec 64) (found : Found) :
    (attrTurn order known ino v found).Within buf.length ∧
      ∀ next, (attrTurn order known ino v found).value.2 = some next → next.Of buf := by
  unfold attrTurn
  by_cases hshort : v.length < RTA_HDRLEN
  · rw [if_pos hshort]
    exact ⟨.pure _ _, fun _ h => absurd h nofun⟩
  · rw [if_neg hshort]
    constructor
    · apply Reading.Within.bind (within_u16At order hv 0)
      split
      next => exact .pure _ _
      next len _ =>
        split
        next => exact .pure _ _
        next =>
          apply Reading.Within.bind (within_u16At order hv 2)
          apply Reading.Within.bind (within_parseAttr order known (getD_slice_of hv _ _) ino _ found)
          exact .pure _ _
    · intro next h
      rw [Reading.value_bind] at h
      split at h
      next => exact absurd h nofun
      next len _ =>
        split at h
        next => exact absurd h nofun
        next => exact nextView_of hv h

theorem within_parseDiag (found : Found) : (parseDiag order known v found).Within buf.length := by
  unfold parseDiag
  split
  next => exact .pure _ _
  next =>
    apply Reading.Within.bind hv.within_first
    split
    next => exact .pure _ _
    next =>
      apply Reading.Within.bind (within_u32At order hv 4)
      split
      next => exact .pure _ _
      next ino _ =>
        split
        next => exact .pure _ _
        next => exact turns_within (fun u found hu => within_attrTurn order known hu _ found) _ (getD_slice_of hv _ _) found

theorem within_parseRecord (len : Nat) (found : Found) : (parseRecord order known seq v len found).Within buf.length := by
  unfold parseRecord
  apply Reading.Within.bind (within_u32At order hv 8)
  split
  next =>
    apply Reading.Within.bind (within_u16At order hv 4)
    split
    next => exact .pure _ _
    next =>
      split
      next => exact .pure _ _
      next =>
        split
        next => exact .pure _ _
        next body hbody =>
          apply Reading.Within.bind (within_parseDiag order known (hv.slice hbody) found)
          exact .pure _ _
  next => exact .pure _ _

theorem within_replyTurn (state : Option (Step × Found)) :
    (replyTurn order known seq v state).Within buf.length ∧
      ∀ next, (replyTurn order known seq v state).value.2 = some next → next.Of buf := by
  by_cases hmore : ∃ found, state = some (.more, found)
  · rcases hmore with ⟨found, hstate⟩
    rw [hstate]
    constructor
    · unfold replyTurn
      dsimp only
      split
      next => exact .pure _ _
      next =>
        apply Reading.Within.bind (within_u32At order hv 0)
        split
        next => exact .pure _ _
        next len _ =>
          split
          next => exact .pure _ _
          next =>
            apply Reading.Within.bind (within_parseRecord order known seq hv len found)
            split
            next => exact .pure _ _
            next => exact .pure _ _
    · intro next h
      rcases replyTurn_value order known seq v found with hstop | ⟨len, step, found', -, -, -, -, -, hgo⟩
      · rw [hstop] at h
        exact absurd h nofun
      · rw [hgo] at h
        dsimp only at h
        split at h
        next => exact nextView_of hv h
        next => exact absurd h nofun
  · have hstopped := replyTurn_stopped order known seq fun found hstate => hmore ⟨found, hstate⟩
    constructor
    · unfold replyTurn
      split
      next found => exact absurd ⟨found, rfl⟩ hmore
      next => exact .pure _ _
    · intro next h
      rw [hstopped v] at h
      exact absurd h nofun

end Bounds

theorem within_parseReply (buf : Bytes) (found : Found) : (parseReply order known seq buf found).Within buf.length := by
  apply Reading.Within.bind (turns_within (fun _ state hv => within_replyTurn order known seq hv state) _ (View.Of.whole buf) _)
  exact .pure _ _

structure Keeps (P : Found → Prop) : Prop where
  peer : ∀ found si pi, P found → P (Diag.peer known found si pi)
  incoming : ∀ found si ic, P found → P (Diag.incoming known found si ic)

theorem found_eq {step step' : Step} {found found' : Found} (h : some (step, found) = some (step', found')) :
    found = found' := congrArg Prod.snd (Option.some.inj h)

section Keeping

variable {known} {P : Found → Prop} (h : Keeps known P)

include h

theorem Keeps.icons (ino : BitVec 64) (vs : List View) {found : Found} (hfound : P found) :
    P (Diag.icons order known ino vs found).value := by
  induction vs generalizing found with
  | nil => exact hfound
  | cons v vs ih =>
    rw [Diag.icons, Reading.value_bind]
    apply ih
    cases (u32At order v 0).value with
    | none => exact hfound
    | some ic => exact h.incoming found ino _ hfound

theorem Keeps.parseAttr (ino : BitVec 64) (type : Option Nat) (payload : View) {found : Found} (hfound : P found) :
    P (Diag.parseAttr order known ino type payload found).value := by
  unfold Diag.parseAttr
  split
  next =>
    rw [Reading.value_bind]
    cases (u32At order payload 0).value with
    | none => exact hfound
    | some p =>
      dsimp only
      split
      · exact hfound
      · exact h.peer _ _ _ (h.peer _ _ _ hfound)
  next =>
    split
    · exact h.icons order ino _ hfound
    · exact hfound

theorem Keeps.attrTurn (ino : BitVec 64) (attrs : View) {found : Found} (hfound : P found) :
    P (Diag.attrTurn order known ino attrs found).value.1 := by
  unfold Diag.attrTurn
  split
  next => exact hfound
  next =>
    rw [Reading.value_bind]
    cases (u16At order attrs 0).value with
    | none => exact hfound
    | some len =>
      dsimp only
      split
      · exact hfound
      · exact h.parseAttr order ino _ _ hfound

variable {found found' : Found}

theorem Keeps.parseDiag (body : View) (hfound : P found)
    (hresult : (Diag.parseDiag order known body found).value = some found') : P found' := by
  have hsame : ∀ {x : Reading (Option Found)}, x.value = some found' → x = pure (some found) → P found' := by
    intro x hx hpure
    rw [hpure] at hx
    exact Option.some.inj hx ▸ hfound
  unfold Diag.parseDiag at hresult
  split at hresult
  next => exact hsame hresult rfl
  next =>
    rw [Reading.value_bind] at hresult
    split at hresult
    next => exact hsame hresult rfl
    next =>
      rw [Reading.value_bind] at hresult
      cases hino : (u32At order body 4).value with
      | none =>
        rw [hino] at hresult
        exact hsame hresult rfl
      | some ino =>
        rw [hino] at hresult
        dsimp only at hresult
        split at hresult
        next => exact hsame hresult rfl
        next => exact turns_keeps (fun v found hfound => h.attrTurn order _ v hfound) _ hfound hresult

variable {step : Step}

theorem Keeps.parseRecord (rest : View) (len : Nat) (hfound : P found)
    (hresult : (Diag.parseRecord order known seq rest len found).value = some (step, found')) : P found' := by
  have hsame : ∀ {step' : Step} {x : Reading (Option (Step × Found))}, x.value = some (step, found') →
      x = pure (some (step', found)) → P found' := by
    intro step' x hx hpure
    rw [hpure] at hx
    exact found_eq hx ▸ hfound
  unfold Diag.parseRecord at hresult
  rw [Reading.value_bind] at hresult
  split at hresult
  next =>
    rw [Reading.value_bind] at hresult
    split at hresult
    next => exact hsame hresult rfl
    next =>
      split at hresult
      next => exact hsame hresult rfl
      next =>
        cases hbody : rest.slice NLMSG_HDRLEN len with
        | none =>
          rw [hbody] at hresult
          exact hsame hresult rfl
        | some body =>
          rw [hbody] at hresult
          rcases Option.map_eq_some_iff.mp hresult with ⟨found'', hdiag, hpair⟩
          rw [← found_eq (congrArg some hpair)]
          exact h.parseDiag order body hfound hdiag
  next => exact hsame hresult rfl

theorem Keeps.parseReply {buf : Bytes} (hfound : P found)
    (hresult : (Diag.parseReply order known seq buf found).value = some (step, found')) : P found' := by
  rcases parseReply_value order known seq buf found with ⟨result, hvalue, hturns⟩
  have hloop := hturns (View.whole buf) rfl (buf.length + 1) (Nat.lt_succ_self _)
  rw [hresult] at hvalue
  rw [← Option.some.inj hvalue] at hloop
  -- the state of the loop holds ends that have the property
  have hstate : ∀ r ∈ some (step, found'), P r.2 := by
    apply turns_keeps (P := fun state : Option (Step × Found) => ∀ r ∈ state, P r.2) _ _ _ hloop
    · intro v state hold
      by_cases hmore : ∃ found, state = some (.more, found)
      · rcases hmore with ⟨found, hsome⟩
        have hthere : P found := hold (.more, found) hsome
        rw [hsome]
        rcases replyTurn_value order known seq v found with hstop | ⟨len, step, found', -, -, -, -, hrecord, hgo⟩
        · rw [hstop]
          intro r hr
          rw [← Option.some.inj hr]
          exact hthere
        · rw [hgo]
          intro r hr
          rw [← Option.some.inj hr]
          exact h.parseRecord order seq v len hthere hrecord
      · rw [replyTurn_stopped order known seq fun found hstate => hmore ⟨found, hstate⟩]
        exact hold
    · intro r hr
      rw [← Option.some.inj hr]
      exact hfound
  exact hstate _ rfl

theorem Keeps.parseReplies {bufs : List Bytes} (hfound : P found)
    (hresult : Diag.parseReplies order known seq bufs found = some (step, found')) : P found' := by
  induction bufs generalizing found with
  | nil =>
    rw [Diag.parseReplies] at hresult
    exact found_eq hresult ▸ hfound
  | cons buf bufs ih =>
    rcases parseReply_value order known seq buf found with ⟨⟨step', found''⟩, hvalue, -⟩
    have hkept := h.parseReply order seq hfound hvalue
    rw [Diag.parseReplies, hvalue] at hresult
    cases step' with
    | more => exact ih hkept hresult
    | done => exact found_eq hresult ▸ hkept
    | error => exact found_eq hresult ▸ hkept

end Keeping

end Parsing

end Lsof.Linux.Diag
