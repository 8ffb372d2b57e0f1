import Lsof.Linux.Diag

/-! # A dump cut into buffers

The records of a dump as the kernel writes them, and what is made of them however
they are cut into buffers.
-/

namespace Lsof.Linux.Diag

open Lsof.Basis Lsof.Core List

/-- A record: its header, its body, and the bytes that bring it to a multiple of
four. -/
structure DiagRecord where
  type : BitVec 16
  flags : BitVec 16
  seq : BitVec 32
  pid : BitVec 32
  body : Bytes
  pad : Bytes
  fits : NLMSG_HDRLEN + body.length < 2 ^ 32
  aligned : align4 (NLMSG_HDRLEN + body.length) = some (NLMSG_HDRLEN + body.length + pad.length)

namespace DiagRecord

variable (order : ByteOrder) (r : DiagRecord)

def header : Bytes :=
  order.bytes 4 (NLMSG_HDRLEN + r.body.length) ++ (order.bytes 2 r.type.toNat ++ (order.bytes 2 r.flags.toNat ++
    (order.bytes 4 r.seq.toNat ++ order.bytes 4 r.pid.toNat)))

def bytes : Bytes := r.header order ++ (r.body ++ r.pad)

theorem length_header : (r.header order).length = NLMSG_HDRLEN := by
  simp only [header, length_append, ByteOrder.length_bytes]
  rfl

theorem length_bytes : (r.bytes order).length = NLMSG_HDRLEN + r.body.length + r.pad.length := by
  rw [bytes, length_append, length_header, length_append, Nat.add_assoc]

section Reading

variable {order} {r} {v : View} {rest : Bytes} (h : v.bytes = r.bytes order ++ rest)

include h

theorem value_len : (u32At order v 0).value = some (NLMSG_HDRLEN + r.body.length) := by
  have hsplit : v.bytes = [] ++ (order.bytes 4 (NLMSG_HDRLEN + r.body.length) ++ (order.bytes 2 r.type.toNat ++
      (order.bytes 2 r.flags.toNat ++ (order.bytes 4 r.seq.toNat ++ (order.bytes 4 r.pid.toNat ++
        (r.body ++ (r.pad ++ rest))))))) := by
    simp only [h, bytes, header, append_assoc, nil_append]
  exact View.value_number_bytes hsplit rfl r.fits

theorem value_type : (u16At order v 4).value = some r.type.toNat := by
  have hlt : r.type.toNat < 256 ^ 2 := r.type.isLt
  have hsplit : v.bytes = order.bytes 4 (NLMSG_HDRLEN + r.body.length) ++ (order.bytes 2 r.type.toNat ++
      (order.bytes 2 r.flags.toNat ++ (order.bytes 4 r.seq.toNat ++ (order.bytes 4 r.pid.toNat ++
        (r.body ++ (r.pad ++ rest)))))) := by
    simp only [h, bytes, header, append_assoc]
  exact View.value_number_bytes hsplit (order.length_bytes _ _) hlt

theorem value_seq : (u32At order v 8).value = some r.seq.toNat := by
  have hlt : r.seq.toNat < 256 ^ 4 := r.seq.isLt
  have hfront : (order.bytes 4 (NLMSG_HDRLEN + r.body.length) ++
      (order.bytes 2 r.type.toNat ++ order.bytes 2 r.flags.toNat)).length = 8 := by
    simp only [length_append, ByteOrder.length_bytes]
  have hsplit : v.bytes = (order.bytes 4 (NLMSG_HDRLEN + r.body.length) ++
      (order.bytes 2 r.type.toNat ++ order.bytes 2 r.flags.toNat)) ++ (order.bytes 4 r.seq.toNat ++
        (order.bytes 4 r.pid.toNat ++ (r.body ++ (r.pad ++ rest)))) := by
    simp only [h, bytes, header, append_assoc]
  exact View.value_number_bytes hsplit hfront hlt

theorem slice_body : v.slice NLMSG_HDRLEN (NLMSG_HDRLEN + r.body.length) = some ⟨v.base + NLMSG_HDRLEN, r.body⟩ := by
  have hslice : v.slice (r.header order).length ((r.header order).length + r.body.length) =
      some ⟨v.base + (r.header order).length, r.body⟩ := by
    apply View.slice_bytes
    rw [h, bytes, append_assoc, append_assoc]
  rw [length_header] at hslice
  exact hslice

theorem next_bytes : ∃ base, nextView NLMSG_HDRLEN (NLMSG_HDRLEN + r.body.length) v = some ⟨base, rest⟩ := by
  have hmax : max (NLMSG_HDRLEN + r.body.length) NLMSG_HDRLEN = NLMSG_HDRLEN + r.body.length :=
    Nat.max_eq_left (Nat.le_add_right _ _)
  have hafter := View.after_bytes h
  rw [length_bytes] at hafter
  rw [nextView, hmax, r.aligned, Option.bind_some, hafter]
  exact ⟨_, rfl⟩

end Reading

end DiagRecord

def encode (order : ByteOrder) (rs : List DiagRecord) : Bytes := rs.flatMap (DiagRecord.bytes order)

section Records

variable (order : ByteOrder) (known : BitVec 64 → Bool) (seq : BitVec 32)

def readRecord (r : DiagRecord) (found : Found) : Step × Found :=
  if r.seq = seq then
    if r.type.toNat = NLMSG_DONE then (.done, found)
    else if r.type.toNat = NLMSG_ERROR then (.error, found)
    else (.more, (parseDiag order known ⟨0, r.body⟩ found).value.getD found)
  else (.more, found)

def readRecords : List DiagRecord → Found → Step × Found
  | [], found => (.more, found)
  | r :: rs, found =>
    match readRecord order known seq r found with
    | (.more, found) => readRecords rs found
    | stop => stop

theorem readRecords_append (rs qs : List DiagRecord) (found : Found) :
    readRecords order known seq (rs ++ qs) found =
      match readRecords order known seq rs found with
      | (.more, found) => readRecords order known seq qs found
      | stop => stop := by
  induction rs generalizing found with
  | nil => rfl
  | cons r rs ih =>
    rw [cons_append, readRecords, readRecords]
    rcases readRecord order known seq r found with ⟨step, found'⟩
    cases step with
    | more => exact ih found'
    | done => rfl
    | error => rfl

theorem parseRecord_bytes {r : DiagRecord} {v : View} {rest : Bytes} (h : v.bytes = r.bytes order ++ rest) (found : Found) :
    (parseRecord order known seq v (NLMSG_HDRLEN + r.body.length) found).value =
      some (readRecord order known seq r found) := by
  have hseq : some r.seq.toNat = some seq.toNat ↔ r.seq = seq := by
    rw [Option.some.injEq, BitVec.toNat_inj]
  unfold parseRecord readRecord
  rw [Reading.value_bind, DiagRecord.value_seq h]
  by_cases hours : r.seq = seq
  · rw [if_pos (hseq.mpr hours), if_pos hours, Reading.value_bind, DiagRecord.value_type h]
    simp only [Option.some.injEq]
    by_cases hdone : r.type.toNat = NLMSG_DONE
    · rw [if_pos hdone, if_pos hdone]
      rfl
    · rw [if_neg hdone, if_neg hdone]
      by_cases herror : r.type.toNat = NLMSG_ERROR
      · rw [if_pos herror, if_pos herror]
        rfl
      · rw [if_neg herror, if_neg herror, DiagRecord.slice_body h]
        have hbytes : (⟨v.base + NLMSG_HDRLEN, r.body⟩ : View).bytes = (⟨0, r.body⟩ : View).bytes := rfl
        rcases parseDiag_value order known hbytes found with ⟨found', hleft, hright⟩
        rw [hright]
        dsimp only
        rw [Reading.value_bind, hleft]
        rfl
  · rw [if_neg (fun heq => hours (hseq.mp heq)), if_neg hours]
    rfl

theorem turns_encode (rs : List DiagRecord) {v : View} (hv : v.bytes = encode order rs) {n : Nat} (hn : v.length < n)
    (found : Found) :
    (turns (replyTurn order known seq) n v (some (.more, found))).value =
      some (some (readRecords order known seq rs found)) := by
  induction rs generalizing v n found with
  | nil =>
    cases n with
    | zero => exact absurd hn (Nat.not_lt_zero _)
    | succ n =>
      have hshort : v.length < NLMSG_HDRLEN := by
        rw [View.length, hv]
        exact Nat.zero_lt_succ 15
      rw [turns, Reading.value_bind, replyTurn, if_pos hshort]
      rfl
  | cons r rs ih =>
    cases n with
    | zero => exact absurd hn (Nat.not_lt_zero _)
    | succ n =>
      have hbytes : v.bytes = r.bytes order ++ encode order rs := hv
      have hlong : NLMSG_HDRLEN + r.body.length ≤ v.length := by
        rw [View.length, hbytes, length_append, r.length_bytes]
        omega
      have hturn : (replyTurn order known seq v (some (.more, found))).value =
          ((some (readRecord order known seq r found)),
            if (readRecord order known seq r found).1 = .more then
              nextView NLMSG_HDRLEN (NLMSG_HDRLEN + r.body.length) v else none) := by
        have hheader : ¬ v.length < NLMSG_HDRLEN := by omega
        have hgood : ¬ (NLMSG_HDRLEN + r.body.length < NLMSG_HDRLEN ∨ v.length < NLMSG_HDRLEN + r.body.length) := by
          omega
        rw [replyTurn, if_neg hheader, Reading.value_bind, DiagRecord.value_len hbytes]
        dsimp only
        rw [if_neg hgood, Reading.value_bind, parseRecord_bytes order known seq hbytes]
        rcases readRecord order known seq r found with ⟨step, found'⟩
        cases step <;> rfl
      rw [turns, Reading.value_bind, hturn, readRecords]
      rcases readRecord order known seq r found with ⟨step, found'⟩
      cases step with
      | done => rfl
      | error => rfl
      | more =>
        rcases DiagRecord.next_bytes hbytes with ⟨base, hnext⟩
        have hless := nextView_less (by decide) hnext
        dsimp only
        rw [if_pos rfl, hnext]
        exact ih rfl (by omega) found'

theorem parseReply_encode (rs : List DiagRecord) (found : Found) :
    (parseReply order known seq (encode order rs) found).value = some (readRecords order known seq rs found) := by
  have hlength : (View.whole (encode order rs)).length < (encode order rs).length + 1 := Nat.lt_succ_self _
  have hturns := turns_encode order known seq rs (rfl : (View.whole (encode order rs)).bytes = _) hlength found
  rw [parseReply, Reading.value_bind, hturns]
  rfl

theorem parseReplies_encode (chunks : List (List DiagRecord)) (found : Found) :
    parseReplies order known seq (chunks.map (encode order)) found =
      some (readRecords order known seq chunks.flatten found) := by
  induction chunks generalizing found with
  | nil => rfl
  | cons rs chunks ih =>
    rw [map_cons, parseReplies, parseReply_encode, flatten_cons, readRecords_append]
    rcases readRecords order known seq rs found with ⟨step, found'⟩
    cases step with
    | more => exact ih found'
    | done => rfl
    | error => rfl

/-- Every socket with an end, and every end, is a known one. -/
def AllKnown (found : Found) : Prop :=
  ∀ si e, found si = some e → known si = true ∧ (∀ p ∈ e.peer, known p = true) ∧ ∀ ic ∈ e.incoming, known ic = true

theorem allKnown_none : AllKnown known fun _ => none := fun _ _ h => nomatch h

variable {found : Found}

theorem AllKnown.getD (h : AllKnown known found) (si : BitVec 64) :
    (∀ p ∈ ((found si).getD {}).peer, known p = true) ∧ ∀ ic ∈ ((found si).getD {}).incoming, known ic = true := by
  cases hsi : found si with
  | none => exact ⟨fun _ hp => absurd hp nofun, fun _ hic => absurd hic nofun⟩
  | some e => exact (h si e hsi).2

theorem AllKnown.update (h : AllKnown known found) {si : BitVec 64} (hsi : known si = true) {e : UnixEnds}
    (hpeer : ∀ p ∈ e.peer, known p = true) (hincoming : ∀ ic ∈ e.incoming, known ic = true) :
    AllKnown known (Basis.update found si e) := by
  intro k d hd
  by_cases hk : k = si
  · rw [hk, update_self] at hd
    rw [hk, ← Option.some.inj hd]
    exact ⟨hsi, hpeer, hincoming⟩
  · rw [update_of_ne _ _ hk] at hd
    exact h k d hd

theorem keeps_allKnown : Keeps known (AllKnown known) := by
  constructor
  · intro found si pi h
    have hold := h.getD known si
    unfold peer
    split
    next => exact h
    next hboth =>
      have hknown : known si = true ∧ known pi = true := by simpa using hboth
      apply h.update known hknown.1
      · intro p hp
        split at hp
        next => exact Option.some.inj hp ▸ hknown.2
        next => exact hold.1 p hp
      · intro ic hic
        split at hic
        next => exact hold.2 ic hic
        next => exact hold.2 ic hic
  · intro found si ic h
    have hold := h.getD known si
    unfold incoming
    split
    next => exact h
    next hsi =>
      split
      next => exact h
      next =>
        split
        next hic =>
          have hlistener : known si = true := by simpa using hsi
          apply h.update known hlistener
          · exact hold.1
          · intro i hi
            exact Option.some.inj hi ▸ hic
        next => exact h

theorem peer_update {si k p : BitVec 64} {e : UnixEnds} (h : (found k).bind UnixEnds.peer = some p)
    (he : ∀ q, ((found si).getD {}).peer = some q → e.peer = some q) :
    (update found si e k).bind UnixEnds.peer = some p := by
  by_cases hk : k = si
  · rw [hk, update_self, Option.bind_some]
    rw [hk] at h
    apply he
    rcases Option.bind_eq_some_iff.mp h with ⟨d, hd, hp⟩
    rw [hd]
    exact hp
  · rw [update_of_ne _ _ hk]
    exact h

theorem keeps_peer (k p : BitVec 64) : Keeps known fun found => (found k).bind UnixEnds.peer = some p := by
  constructor
  · intro found si pi h
    unfold peer
    split
    next => exact h
    next =>
      apply peer_update h
      intro q hq
      rw [hq]
      exact hq
  · intro found si ic h
    unfold incoming
    split
    next => exact h
    next =>
      split
      next => exact h
      next =>
        split
        next => exact peer_update h fun q hq => hq
        next => exact h

/-- However a dump is cut into buffers, the same ends are found. A socket keeps the
first peer recorded for it, only known sockets are recorded, and whatever the bytes
are, they are read to an end within the buffer. -/
theorem parseReply_of_any_cut :
    (∀ (chunks : List (List DiagRecord)) (found : Found),
      parseReplies order known seq (chunks.map (encode order)) found =
        (parseReply order known seq (encode order chunks.flatten) found).value) ∧
    (∀ (bufs : List Bytes) (found found' : Found) (step : Step) (si p : BitVec 64),
      parseReplies order known seq bufs found = some (step, found') → (found si).bind UnixEnds.peer = some p →
        (found' si).bind UnixEnds.peer = some p) ∧
    (∀ (bufs : List Bytes) (found' : Found) (step : Step),
      parseReplies order known seq bufs (fun _ => none) = some (step, found') → AllKnown known found') ∧
    ∀ (buf : Bytes) (found : Found), (parseReply order known seq buf found).Within buf.length ∧
      (parseReply order known seq buf found).value.isSome = true := by
  refine ⟨?_, ?_, ?_, ?_⟩
  · intro chunks found
    rw [parseReplies_encode, parseReply_encode]
  · intro bufs found found' step si p hresult hpeer
    exact (keeps_peer known si p).parseReplies order seq hpeer hresult
  · intro bufs found' step hresult
    exact (keeps_allKnown known).parseReplies order seq (allKnown_none known) hresult
  · intro buf found
    rcases parseReply_value order known seq buf found with ⟨result, hvalue, -⟩
    rw [hvalue]
    exact ⟨within_parseReply order known seq buf found, rfl⟩

end Records

end Lsof.Linux.Diag
