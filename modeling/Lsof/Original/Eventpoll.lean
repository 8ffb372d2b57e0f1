import Lsof.Basis.KindSet
import Lsof.Basis.Stopping
import Lsof.Linux.Fdinfo
import Lsof.Original.Locks

/-! # The C's name of an eventpoll

The C reads the watched descriptors into an array of fixed size and writes them
over the end of the link's text, in a buffer: each number with `...` after it,
which the next one rewrites to a comma. The name ends in `...]` wherever the
array is full, so also where it has just taken the last descriptor.
-/

namespace Lsof.Original

open Lsof.Basis Lsof.Linux.Fdinfo List

inductive FdinfoKey where
  | flags
  | pos
  | eventfdId
  | ttyIndex
  | pid
  | tfd
  deriving DecidableEq, Repr

instance : BitIndexed FdinfoKey 6 where
  bit
    | .flags => 0
    | .pos => 1
    | .eventfdId => 2
    | .ttyIndex => 3
    | .pid => 4
    | .tfd => 5
  bit_injective := by
    intro a b h
    cases a <;> cases b <;> first | rfl | exact absurd h (by decide)

abbrev FdinfoMask := KindSet FdinfoKey

/-- `struct l_fdinfo`; the flags and the position are not set until they are read. -/
structure LFdinfo where
  flags : Option (BitVec 32) := none
  pos : Option (BitVec 64) := none
  eventfdId : Int := -1
  ttyIndex : Int := -1
  pid : Int := -1
  tfds : List Int := []

/-- What is asked for and stands first in a line. -/
def fdinfoKey (msk : FdinfoMask) (field : Text) : Option FdinfoKey :=
  if .flags ∈ msk ∧ field = "flags:".toList then some .flags
  else if .pos ∈ msk ∧ field = "pos:".toList then some .pos
  else if .pid ∈ msk ∧ field = "Pid:".toList then some .pid
  else if .tfd ∈ msk ∧ field = "tfd:".toList then some .tfd
  else if .eventfdId ∈ msk ∧ field = "eventfd-id:".toList then some .eventfdId
  else if .ttyIndex ∈ msk ∧ field = "tty-index:".toList then some .ttyIndex
  else none

/-- An `int`, -1 where the number does not fit one. -/
def fdinfoInt (ul : Nat) : Int :=
  let val := (BitVec.ofNat 32 ul).toInt
  if val < 0 then -1 else val

def LFdinfo.set (fi : LFdinfo) (ul : Nat) : FdinfoKey → LFdinfo
  | .flags => { fi with flags := some (BitVec.ofNat 32 ul) }
  | .pos => { fi with pos := some (BitVec.ofNat 64 ul) }
  | .eventfdId => { fi with eventfdId := fdinfoInt ul }
  | .ttyIndex => { fi with ttyIndex := fdinfoInt ul }
  | .pid => { fi with pid := fdinfoInt ul }
  | .tfd => if fi.tfds.length < EPOLL_MAX_TFDS then { fi with tfds := fi.tfds ++ [fdinfoInt ul] } else fi

def fdinfoDone (msk rv : FdinfoMask) (fi : LFdinfo) : FdinfoKey → Bool
  | .flags => rv = msk
  | .pos => rv = msk
  | .tfd => rv = msk && fi.tfds.length = EPOLL_MAX_TFDS
  | _ => rv = msk || .tfd ∈ rv

def fdinfoLine (msk : FdinfoMask) (st : FdinfoMask × LFdinfo) (line : Text) : (FdinfoMask × LFdinfo) × Option Unit :=
  match getFields line [] with
  | key :: value :: _ =>
    match fdinfoKey msk key with
    | none => (st, none)
    | some key =>
      match wholeNumber (strtoul 0) (fun v => v == ULONG_MAX) value with
      | none => (st, none)
      | some ul =>
        let rv := st.1.union (KindSet.single key)
        let fi := st.2.set ul key
        ((rv, fi), if fdinfoDone msk rv fi key then some () else none)
  | _ => (st, none)

def fdinfoRoom : Nat := MAXPATHLEN

def getFdinfo (text : Text) (msk : FdinfoMask) : FdinfoMask × LFdinfo :=
  (foldUntil (fdinfoLine msk) (Text.gets fdinfoRoom text) (KindSet.none, {})).1

def calOrder (n : Int) : Nat :=
  if h : n.tdiv 10 = 0 then 1 else calOrder (n.tdiv 10) + 1
termination_by n.natAbs
decreasing_by
  have hne : n ≠ 0 := by
    intro hzero
    rw [hzero] at h
    exact h rfl
  rw [Int.natAbs_tdiv]
  exact Nat.div_lt_self (Int.natAbs_pos.mpr hne) (by decide)

/-- `snprintf()` into what is left of a buffer, and the length it has by then. -/
def snpfAt (p : Text) (wl len : Nat) (s : Text) : Text × Nat := (p.take wl ++ s.take (len - wl - 1), wl + s.length)

/-- The numbers, over the string `p` of which `wl` characters are written. -/
def snpEventpollFds (len : Nat) : Text × Nat → List Int → Text × Nat
  | st, [] => st
  | (p, wl), fd :: fds =>
    let needs : Int := calOrder fd + (if fds.isEmpty then 0 else 3)
    if (len : Int) - wl + (if wl = 0 then 0 else 2) ≤ needs then (p, wl)
    else
      let cut := if wl = 0 then (p, wl) else (p.take (wl - 3) ++ [','], wl - 2)
      snpEventpollFds len
        (snpfAt cut.1 cut.2 len (Json.ofInt fd ++ (if fds.isEmpty then [] else "...".toList))) fds

def fdCompare (ia ib : Int) : Int := ia - ib

def eventpollPostfix (fds : Text × Nat) (count : Nat) : Text :=
  if 3 < fds.2 ∧ fds.1[fds.2 - 1]? = some '.' then "]".toList
  else if count = EPOLL_MAX_TFDS then "...]".toList
  else "]".toList

def snpEventpoll (p : Text) (len : Nat) (tfds : List Int) : Text :=
  let left : Int := len - 11 - ((if tfds.length = EPOLL_MAX_TFDS then 4 else 1) + 1)
  if 1 < left then
    let sorted := tfds.mergeSort fun ia ib => fdCompare ia ib ≤ 0
    let fds := snpEventpollFds left.toNat ([], 0) sorted
    p.take 10 ++ ':' :: (fds.1.take fds.2 ++ eventpollPostfix fds tfds.length)
  else p

/-- What is asked for of a descriptor, by the text that follows `anon_inode:`. -/
def fdinfoMask (rest : Text) : FdinfoMask :=
  let base := (KindSet.single .flags).union (KindSet.single .pos)
  let event := if "[eventf".toList.isPrefixOf rest then base.union (KindSet.single .eventfdId)
    else if "[eventp".toList.isPrefixOf rest then base.union (KindSet.single .tfd) else base
  let pty := event.union (KindSet.single .ttyIndex)
  if "[p".toList.isPrefixOf rest then pty.union (KindSet.single .pid) else pty

/-- NAME of an anonymous inode, in a buffer with `size` characters from `rest` on. -/
def anonInodeName (rest : Text) (size : Nat) (fi : LFdinfo) : Text :=
  if fi.eventfdId ≠ -1 ∧ rest = "[eventfd]".toList then
    ("[eventfd:".toList ++ Json.ofInt fi.eventfdId ++ [']']).take (size - 1)
  else if fi.pid ≠ -1 ∧ rest = "[pidfd]".toList then
    ("[pidfd:".toList ++ Json.ofInt fi.pid ++ [']']).take (size - 1)
  else if 0 < fi.tfds.length ∧ rest = "[eventpoll]".toList then snpEventpoll rest size fi.tfds
  else rest

/-- NAME of a descriptor whose link is `anon_inode:` and `rest`. -/
def nameOfFdinfo (rest text : Text) (size : Nat) : Text :=
  anonInodeName rest size (getFdinfo text (fdinfoMask rest)).2

theorem calOrder_ofNat (n : Nat) : calOrder n = (Text.ofNat n).length := by
  induction n using Nat.strong_induction_on with
  | _ n ih =>
    have htdiv : (n : Int).tdiv 10 = ((n / 10 : Nat) : Int) := rfl
    rw [calOrder, htdiv]
    by_cases hsmall : n < 10
    · have hzero : ((n / 10 : Nat) : Int) = 0 := by omega
      rw [dif_pos hzero, Text.ofNat, Nat.toDigits_of_lt_base hsmall]
      rfl
    · have hne : ¬ ((n / 10 : Nat) : Int) = 0 := by omega
      have hdigits := Nat.toDigits_append_toDigits (b := 10) (n := n / 10) (d := n % 10) (by decide) (by omega)
        (Nat.mod_lt n (by decide))
      rw [Nat.div_add_mod] at hdigits
      rw [dif_neg hne, ih (n / 10) (by omega), Text.ofNat, Text.ofNat, ← hdigits, length_append,
        Nat.toDigits_of_lt_base (Nat.mod_lt n (by decide))]
      rfl

def AreFds (fds : List Int) : Prop := ∀ fd ∈ fds, ∃ n : Nat, fd = n ∧ n < 2 ^ 31

/-- What follows a number: `...`, but for the last one. -/
def dots (fds : List Int) : Text := if fds.isEmpty then [] else "...".toList

theorem snpEventpollFds_cons {len wl : Nat} {p front : Text} {fd : Nat} {fds : List Int}
    (hcut : (if wl = 0 then (p, wl) else (p.take (wl - 3) ++ [','], wl - 2)) = (front, front.length))
    (hwl : front.length + (if wl = 0 then 0 else 2) = wl)
    (hroom : front.length + (Text.ofNat fd ++ dots fds).length < len) :
    snpEventpollFds len (p, wl) ((fd : Int) :: fds) =
      snpEventpollFds len (front ++ (Text.ofNat fd ++ dots fds), (front ++ (Text.ofNat fd ++ dots fds)).length) fds := by
  have hneeds : (calOrder fd : Int) + (if fds.isEmpty then 0 else 3) = ((Text.ofNat fd ++ dots fds).length : Int) := by
    rw [calOrder_ofNat, length_append, dots]
    cases fds.isEmpty <;> simp
  have hspace : ¬ (len : Int) - wl + (if wl = 0 then 0 else 2) ≤
      (calOrder fd : Int) + (if fds.isEmpty then 0 else 3) := by
    rw [hneeds]
    by_cases hzero : wl = 0
    · rw [if_pos hzero] at hwl ⊢
      omega
    · rw [if_neg hzero] at hwl ⊢
      omega
  rw [snpEventpollFds]
  dsimp only
  rw [if_neg hspace, hcut]
  dsimp only
  have htext : Json.ofInt (fd : Int) ++ (if fds.isEmpty then [] else "...".toList) = Text.ofNat fd ++ dots fds := rfl
  rw [htext, snpfAt, take_length, take_of_length_le (by omega), ← length_append]

theorem length_ofNat_le {n : Nat} (h : n < 2 ^ 31) : (Text.ofNat n).length ≤ 10 :=
  Nat.toDigits_length 10 n 10 (by decide) (by omega)

/-- The numbers, while there is room for eleven characters each, after those in
`front`: the `...` behind a number becomes the comma before the next one. -/
theorem snpEventpollFds_all {len wl : Nat} {p front : Text} {fds : List Int} (hfds : AreFds fds) (hne : fds ≠ [])
    (hcut : (if wl = 0 then (p, wl) else (p.take (wl - 3) ++ [','], wl - 2)) = (front, front.length))
    (hwl : front.length + (if wl = 0 then 0 else 2) = wl) (hroom : front.length + 11 * fds.length ≤ len) :
    snpEventpollFds len (p, wl) fds =
      (front ++ [','].intercalate (fds.map Json.ofInt), (front ++ [','].intercalate (fds.map Json.ofInt)).length) := by
  induction fds generalizing p wl front with
  | nil => exact absurd rfl hne
  | cons fd fds ih =>
    obtain ⟨n, rfl, hn⟩ := hfds fd mem_cons_self
    have hdigits := length_ofNat_le hn
    rw [length_cons] at hroom
    cases fds with
    | nil =>
      rw [snpEventpollFds_cons hcut hwl (by simp [dots] at hroom ⊢; omega), snpEventpollFds]
      simp [dots, List.intercalate, Json.ofInt]
    | cons next fds =>
      have hdone : front ++ (Text.ofNat n ++ dots (next :: fds)) = front ++ Text.ofNat n ++ "...".toList := by
        simp [dots]
      have hlen : (front ++ Text.ofNat n ++ "...".toList).length = (front ++ Text.ofNat n).length + 3 := length_append
      have hnext := @ih ((front ++ Text.ofNat n).length + 3) (front ++ Text.ofNat n ++ "...".toList)
        (front ++ Text.ofNat n ++ [',']) (fun fd h => hfds fd (mem_cons_of_mem _ h)) (by simp)
        (by rw [if_neg (by omega), Nat.add_sub_cancel, take_left, @List.length_append _ _ [',']]; rfl)
        (by rw [if_neg (by omega), @List.length_append _ _ [',']]; rfl)
        (by simp at hroom ⊢; omega)
      rw [snpEventpollFds_cons hcut hwl (by simp [dots] at hroom ⊢; omega), hdone, hlen, hnext]
      simp [List.intercalate, Json.ofInt]

theorem getLast?_numbers {fds : List Int} (hfds : AreFds fds) :
    ([','].intercalate (fds.map Json.ofInt)).getLast? ≠ some '.' := by
  intro h
  have hmem := mem_of_getLast? h
  have hall : ∀ c ∈ [','].intercalate (fds.map Json.ofInt), c ≠ '.' := by
    apply Text.forall_mem_intercalate
    · intro c hc
      rw [mem_singleton.mp hc]
      decide
    · intro t ht c hc hdot
      obtain ⟨fd, hfd, rfl⟩ := mem_map.mp ht
      obtain ⟨n, rfl, -⟩ := hfds fd hfd
      exact absurd (hdot ▸ Text.isDigit_of_mem_ofNat hc) (by decide)
  exact hall '.' hmem rfl

theorem snpEventpoll_eq {size : Nat} {tfds : List Int} (hfds : AreFds tfds) (hne : tfds ≠ [])
    (hcount : tfds.length ≤ EPOLL_MAX_TFDS) (hsize : 11 + 11 * EPOLL_MAX_TFDS + 5 ≤ size) :
    snpEventpoll "[eventpoll]".toList size tfds =
      "[eventpoll:".toList ++ [','].intercalate ((tfds.mergeSort (· ≤ ·)).map Json.ofInt) ++
        (if tfds.length = EPOLL_MAX_TFDS then "...".toList else []) ++ [']'] := by
  have hsort : (tfds.mergeSort fun ia ib => fdCompare ia ib ≤ 0) = tfds.mergeSort (· ≤ ·) := by
    congr 1
    funext ia ib
    rw [decide_eq_decide, fdCompare]
    omega
  generalize hsorted : tfds.mergeSort (· ≤ ·) = sorted
  have hlength : sorted.length = tfds.length := by rw [← hsorted, length_mergeSort]
  have hsortedFds : AreFds sorted := by
    intro fd hfd
    rw [← hsorted, mem_mergeSort] at hfd
    exact hfds fd hfd
  have hsortedNe : sorted ≠ [] := by
    intro hnil
    rw [hnil, length_nil] at hlength
    exact hne (length_eq_zero_iff.mp hlength.symm)
  unfold snpEventpoll
  dsimp only
  rw [hsort, hsorted]
  have hleft : (1 : Int) < size - 11 - ((if tfds.length = EPOLL_MAX_TFDS then 4 else 1) + 1) := by
    unfold EPOLL_MAX_TFDS at hsize ⊢
    split <;> omega
  have hroom : 11 * sorted.length ≤ ((size : Int) - 11 - ((if tfds.length = EPOLL_MAX_TFDS then 4 else 1) + 1)).toNat := by
    unfold EPOLL_MAX_TFDS at hsize hcount ⊢
    split <;> omega
  rw [if_pos hleft, @snpEventpollFds_all _ 0 [] [] _ hsortedFds hsortedNe rfl rfl (by simpa using hroom), nil_append]
  have hlast : ([','].intercalate (sorted.map Json.ofInt))[([','].intercalate (sorted.map Json.ofInt)).length - 1]? ≠ some '.' := by
    rw [← getLast?_eq_getElem?]
    exact getLast?_numbers hsortedFds
  rw [eventpollPostfix, if_neg (fun h => hlast h.2), take_length]
  by_cases hfull : tfds.length = EPOLL_MAX_TFDS
  · rw [if_pos hfull, if_pos hfull, append_assoc _ "...".toList]
    rfl
  · rw [if_neg hfull, if_neg hfull, append_nil]
    rfl

/-- What is asked for of an eventpoll, which never tells a terminal's index. -/
def eventpollMask : FdinfoMask := fdinfoMask "[eventpoll]".toList

theorem mem_eventpollMask (key : FdinfoKey) :
    key ∈ eventpollMask ↔ key = .flags ∨ key = .pos ∨ key = .tfd ∨ key = .ttyIndex := by
  have hmask : eventpollMask = ((((KindSet.single .flags).union (KindSet.single .pos)).union (KindSet.single .tfd)).union
      (KindSet.single .ttyIndex)) := rfl
  rw [hmask]
  cases key <;> simp

theorem fdinfoDone_eq_false {rv : FdinfoMask} (hrv : .ttyIndex ∉ rv) (fi : LFdinfo) {key : FdinfoKey}
    (hkey : key = .flags ∨ key = .pos ∨ key = .tfd) : fdinfoDone eventpollMask rv fi key = false := by
  have hne : rv ≠ eventpollMask := by
    intro heq
    rw [heq, mem_eventpollMask] at hrv
    exact hrv (.inr (.inr (.inr rfl)))
  rcases hkey with rfl | rfl | rfl <;> simp [fdinfoDone, hne]

theorem fdinfoLine_of_fields {st : FdinfoMask × LFdinfo} {line value : Text} {fields : List Text} {key : FdinfoKey}
    {field : Text} {ul : Nat} (hfields : getFields line [] = field :: value :: fields)
    (hkey : fdinfoKey eventpollMask field = some key) (hread : key = .flags ∨ key = .pos ∨ key = .tfd)
    (hvalue : wholeNumber (strtoul 0) (fun v => v == ULONG_MAX) value = some ul) (hrv : .ttyIndex ∉ st.1) :
    fdinfoLine eventpollMask st line = ((st.1.union (KindSet.single key), st.2.set ul key), none) := by
  have hnext : .ttyIndex ∉ st.1.union (KindSet.single key) := by
    rcases hread with rfl | rfl | rfl <;> simp [hrv]
  unfold fdinfoLine
  rw [hfields]
  dsimp only
  rw [hkey]
  dsimp only
  rw [hvalue]
  dsimp only
  rw [fdinfoDone_eq_false hnext _ hread]
  rfl

theorem inField_of_visible {c : Char} (h : 0x21 ≤ c.toNat) : InField [] c := by
  have hother : ∀ d : Char, d.toNat < 0x21 → c ≠ d := by
    intro d hd heq
    rw [heq] at h
    omega
  exact ⟨hother ' ' (by decide), hother '\t' (by decide), hother '\n' (by decide), not_mem_nil⟩

theorem not_mem_of_plain {t : Text} (h : t.Plain) {c : Char} (hc : c.toNat < 0x20) : c ∉ t := by
  intro hmem
  have hlow := (h c hmem).1
  omega

theorem visible_key (key : HeaderKey) : ∀ c ∈ key.text, 0x21 ≤ c.toNat := by
  have hall : key.text.all (fun c => 0x21 ≤ c.toNat) = true := by
    cases key <;> decide
  intro c hc
  exact of_decide_eq_true (all_eq_true.mp hall c hc)

theorem getFields_header (h : HeaderLine) : ∃ fields, getFields (h.line ++ ['\n']) [] = h.key.text :: fields := by
  have hvisible := visible_key h.key
  have hnul : '\x00' ∉ h.line ++ ['\n'] := by
    have hkey : '\x00' ∉ h.key.text := fun hmem => absurd (hvisible _ hmem) (by decide)
    have hvalue : '\x00' ∉ h.value := not_mem_of_plain h.plain (by decide)
    rw [HeaderLine.line]
    simp only [mem_append, mem_cons, not_mem_nil, or_false, not_or]
    exact ⟨⟨hkey, by decide, hvalue⟩, by decide⟩
  have hne : h.key.text ≠ [] := by
    cases h.key <;> decide
  refine ⟨scanFields [] none (h.value ++ ['\n']), ?_⟩
  rw [getFields_of_not_mem hnul, HeaderLine.line, append_assoc,
    scanFields_append hne fun c hc => inField_of_visible (hvisible c hc)]
  rfl

theorem getFields_watched (w : Watched) :
    ∃ fields, getFields (w.line ++ ['\n']) [] = "tfd:".toList :: Text.ofNat w.fd :: fields := by
  have hnul : '\x00' ∉ w.line ++ ['\n'] := by
    rw [mem_append, not_or]
    exact ⟨not_mem_of_plain w.plain_line (by decide), by decide⟩
  have hdigits : ∀ c ∈ Text.ofNat w.fd, InField [] c := by
    intro c hc
    have hrange := Text.digit_range (Text.isDigit_of_mem_ofNat hc)
    exact inField_of_visible (by omega)
  refine ⟨scanFields [] none (w.detail ++ ['\n']), ?_⟩
  have hkey : ∀ rest, scanFields [] none ("tfd:".toList ++ ' ' :: rest) = "tfd:".toList :: scanFields [] none rest :=
    fun rest => rfl
  rw [getFields_of_not_mem hnul, Watched.line, append_assoc, cons_append, hkey, Text.padLeft,
    append_assoc, append_assoc, scanFields_blanks, scanFields_append (Text.ofNat_ne_nil w.fd) hdigits]
  rfl

/-- The state while an eventpoll is read: nothing else was found, and the first of
the descriptors are kept. -/
structure EpollRead (st : FdinfoMask × LFdinfo) (fds : List Int) : Prop where
  unindexed : .ttyIndex ∉ st.1
  noIds : st.2.eventfdId = -1 ∧ st.2.pid = -1
  kept : st.2.tfds = fds.take EPOLL_MAX_TFDS

theorem EpollRead.header {st : FdinfoMask × LFdinfo} {fds : List Int} (hst : EpollRead st fds) (h : HeaderLine) :
    ∃ next, fdinfoLine eventpollMask st (h.line ++ ['\n']) = (next, none) ∧ EpollRead next fds := by
  obtain ⟨fields, hfields⟩ := getFields_header h
  have hkeys : fdinfoKey eventpollMask h.key.text = none ∨ fdinfoKey eventpollMask h.key.text = some .flags ∨
      fdinfoKey eventpollMask h.key.text = some .pos := by
    cases h.key <;> decide
  have hskip : fdinfoLine eventpollMask st (h.line ++ ['\n']) = (st, none) ∨ ∃ key ul, (key = .flags ∨ key = .pos) ∧
      fdinfoLine eventpollMask st (h.line ++ ['\n']) = ((st.1.union (KindSet.single key), st.2.set ul key), none) := by
    cases fields with
    | nil => exact .inl (by rw [fdinfoLine, hfields])
    | cons value fields =>
      cases hvalue : wholeNumber (strtoul 0) (fun v => v == ULONG_MAX) value with
      | none =>
        left
        rw [fdinfoLine, hfields]
        dsimp only
        rw [hvalue]
        split <;> rfl
      | some ul =>
        rcases hkeys with hkey | hkey | hkey
        · left
          rw [fdinfoLine, hfields]
          dsimp only
          rw [hkey]
        · exact .inr ⟨.flags, ul, .inl rfl, fdinfoLine_of_fields hfields hkey (.inl rfl) hvalue hst.unindexed⟩
        · exact .inr ⟨.pos, ul, .inr rfl, fdinfoLine_of_fields hfields hkey (.inr (.inl rfl)) hvalue hst.unindexed⟩
  obtain hskip | ⟨key, ul, rfl | rfl, hread⟩ := hskip
  · exact ⟨st, hskip, hst⟩
  · exact ⟨_, hread, by simp [hst.unindexed], hst.noIds, hst.kept⟩
  · exact ⟨_, hread, by simp [hst.unindexed], hst.noIds, hst.kept⟩

theorem fdinfoInt_ofNat {n : Nat} (h : n < 2 ^ 31) : fdinfoInt n = n := by
  have hval : (BitVec.ofNat 32 n).toInt = n := by
    rw [BitVec.toInt_ofNat', Int.bmod_eq_of_le (by omega) (by omega)]
  rw [fdinfoInt, hval]
  exact if_neg (by omega)

theorem EpollRead.watched {st : FdinfoMask × LFdinfo} {fds : List Int} (hst : EpollRead st fds) (w : Watched) :
    ∃ next, fdinfoLine eventpollMask st (w.line ++ ['\n']) = (next, none) ∧ EpollRead next (fds ++ [(w.fd : Int)]) := by
  obtain ⟨fields, hfields⟩ := getFields_watched w
  have hlt := w.fd_lt
  have hvalue : wholeNumber (strtoul 0) (fun v => v == ULONG_MAX) (Text.ofNat w.fd) = some w.fd := by
    have hempty : (Text.ofNat w.fd).isEmpty = false := by
      have hne := Text.ofNat_ne_nil w.fd
      simpa using hne
    have hmax : (w.fd == ULONG_MAX) = false := beq_eq_false_iff_ne.mpr (by unfold ULONG_MAX; omega)
    rw [wholeNumber, strtoul_ofNat (by omega), hempty]
    dsimp only
    rw [hmax]
    rfl
  refine ⟨_, fdinfoLine_of_fields hfields (by decide) (.inr (.inr rfl)) hvalue hst.unindexed, ?_⟩
  have hset : (st.2.set w.fd .tfd).tfds = (fds ++ [(w.fd : Int)]).take EPOLL_MAX_TFDS ∧
      (st.2.set w.fd .tfd).eventfdId = st.2.eventfdId ∧ (st.2.set w.fd .tfd).pid = st.2.pid := by
    have hkept := hst.kept
    unfold LFdinfo.set
    dsimp only
    by_cases hroom : st.2.tfds.length < EPOLL_MAX_TFDS
    · rw [if_pos hroom, fdinfoInt_ofNat hlt]
      rw [hkept, length_take] at hroom
      refine ⟨?_, rfl, rfl⟩
      dsimp only
      rw [hkept, take_of_length_le (by omega), take_of_length_le (by simp; omega)]
    · rw [if_neg hroom]
      rw [hkept, length_take] at hroom
      exact ⟨by rw [hkept, take_append_of_le_length (by omega)], rfl, rfl⟩
  exact ⟨by simp [hst.unindexed], ⟨hset.2.1.trans hst.noIds.1, hset.2.2.trans hst.noIds.2⟩, hset.1⟩

theorem EpollRead.lines {α : Type} {line : α → Text} {adds : α → List Int}
    (hline : ∀ (a : α) {st : FdinfoMask × LFdinfo} {fds : List Int}, EpollRead st fds →
      ∃ next, fdinfoLine eventpollMask st (line a ++ ['\n']) = (next, none) ∧ EpollRead next (fds ++ adds a))
    (as : List α) (rest : List Text) {st : FdinfoMask × LFdinfo} {fds : List Int} (hst : EpollRead st fds) :
    ∃ next, foldUntil (fdinfoLine eventpollMask) (as.map (fun a => line a ++ ['\n']) ++ rest) st =
        foldUntil (fdinfoLine eventpollMask) rest next ∧ EpollRead next (fds ++ as.flatMap adds) := by
  induction as generalizing st fds with
  | nil => exact ⟨st, rfl, by simpa using hst⟩
  | cons a as ih =>
    obtain ⟨next, hstep, hnext⟩ := hline a hst
    obtain ⟨last, hrest, hlast⟩ := ih hnext
    refine ⟨last, ?_, by simpa using hlast⟩
    rw [map_cons, cons_append, foldUntil, hstep]
    exact hrest

theorem getFdinfo_text (k : EpollInfo) : EpollRead (getFdinfo k.text eventpollMask) k.fds := by
  have hroom : ∀ line ∈ k.printedLines, '\n' ∉ line ∧ line.length < fdinfoRoom := by
    intro line hline
    refine ⟨(EpollInfo.isLine hline).1, ?_⟩
    rcases mem_append.mp hline with hline | hline
    · obtain ⟨h, -, rfl⟩ := mem_map.mp hline
      have hshort := h.short
      have hkey : h.key.text.length ≤ 7 := by
        cases h.key <;> decide
      unfold HeaderLine.line fdinfoRoom MAXPATHLEN
      rw [length_append, length_cons]
      omega
    · obtain ⟨w, -, rfl⟩ := mem_map.mp hline
      have hshort := w.short
      have hdigits := length_ofNat_le w.fd_lt
      have hkey : "tfd:".toList.length = 4 := rfl
      unfold Watched.line fdinfoRoom MAXPATHLEN Text.padLeft
      simp only [length_append, length_cons, length_replicate, hkey]
      omega
  have hstart : EpollRead (KindSet.none, {}) [] := ⟨KindSet.mem_none _, ⟨rfl, rfl⟩, rfl⟩
  have hnothing : ∀ (h : HeaderLine) {st : FdinfoMask × LFdinfo} {fds : List Int}, EpollRead st fds →
      ∃ next, fdinfoLine eventpollMask st (h.line ++ ['\n']) = (next, none) ∧ EpollRead next (fds ++ []) := by
    intro h st fds hst
    rw [append_nil]
    exact hst.header h
  obtain ⟨mid, hheader, hmid⟩ := EpollRead.lines hnothing k.header (k.watched.map fun w => w.line ++ ['\n']) hstart
  obtain ⟨last, hwatched, hlast⟩ := EpollRead.lines (fun w _ _ hst => EpollRead.watched hst w) k.watched [] hmid
  have hfds : [] ++ k.header.flatMap (fun _ => []) ++ k.watched.flatMap (fun w => [(w.fd : Int)]) = k.fds := by
    rw [flatMap_eq_nil_iff.mpr fun _ _ => rfl, EpollInfo.fds, map_eq_flatMap]
    rfl
  rw [hfds] at hlast
  rw [append_nil] at hwatched
  have hlines : k.printedLines.map (· ++ ['\n']) =
      k.header.map (fun h => h.line ++ ['\n']) ++ k.watched.map fun w => w.line ++ ['\n'] := by
    rw [EpollInfo.printedLines, map_append, map_map, map_map]
    rfl
  rw [getFdinfo, EpollInfo.text, Text.gets_printed hroom, hlines, hheader, hwatched]
  exact hlast

theorem nameOfFdinfo_eventpoll (k : EpollInfo) {size : Nat} (hsize : 11 + 11 * EPOLL_MAX_TFDS + 5 ≤ size) :
    nameOfFdinfo "[eventpoll]".toList k.text size =
      if k.fds = [] then "[eventpoll]".toList
      else "[eventpoll:".toList ++
        [','].intercalate (((k.fds.take EPOLL_MAX_TFDS).mergeSort (· ≤ ·)).map Json.ofInt) ++
        (if EPOLL_MAX_TFDS ≤ k.fds.length then "...".toList else []) ++ [']'] := by
  have hread := getFdinfo_text k
  have hkept := hread.kept
  have hids := hread.noIds
  change anonInodeName _ size (getFdinfo k.text eventpollMask).2 = _
  rw [anonInodeName, if_neg (fun h => h.1 hids.1), if_neg (fun h => h.1 hids.2), hkept]
  have hcount : (k.fds.take EPOLL_MAX_TFDS).length = min EPOLL_MAX_TFDS k.fds.length := length_take
  by_cases hnone : k.fds = []
  · rw [if_pos hnone, hnone]
    rfl
  · have hpos := length_pos_of_ne_nil hnone
    have hfds : AreFds (k.fds.take EPOLL_MAX_TFDS) := by
      intro fd hfd
      obtain ⟨w, -, rfl⟩ := mem_map.mp (mem_of_mem_take hfd)
      exact ⟨w.fd, rfl, w.fd_lt⟩
    have hsome : 0 < (k.fds.take EPOLL_MAX_TFDS).length := by
      rw [hcount]
      exact Nat.lt_min.mpr ⟨by decide, hpos⟩
    rw [if_neg hnone, if_pos ⟨hsome, rfl⟩, snpEventpoll_eq hfds (ne_nil_of_length_pos hsome) (by omega) hsize, hcount]
    simp only [min_eq_left_iff]

/-- An eventpoll has the name the C gives it, unless it watches as many
descriptors as the C keeps: there the C's name ends in `...]` although none is
left out. -/
theorem eventpoll_named_alike_iff (k : EpollInfo) {size : Nat} (hsize : 11 + 11 * EPOLL_MAX_TFDS + 5 ≤ size) :
    nameForTarget (anonInode ++ "[eventpoll]".toList) (parseFdinfo k.text) =
        nameOfFdinfo "[eventpoll]".toList k.text size ↔ k.watched.length ≠ EPOLL_MAX_TFDS := by
  have hlength : k.fds.length = k.watched.length := length_map _
  rw [nameForTarget_eventpoll, nameOfFdinfo_eventpoll k hsize, ← hlength]
  by_cases hnone : k.fds = []
  · rw [if_pos hnone, if_pos hnone, hnone]
    exact ⟨fun _ => by decide, fun _ => rfl⟩
  · rw [if_neg hnone, if_neg hnone, append_cancel_right_eq, append_cancel_left_eq]
    by_cases hmore : EPOLL_MAX_TFDS < k.fds.length
    · rw [if_pos hmore, if_pos (by omega)]
      exact ⟨fun _ => by omega, fun _ => rfl⟩
    · rw [if_neg hmore]
      by_cases hfull : EPOLL_MAX_TFDS ≤ k.fds.length
      · rw [if_pos hfull]
        exact ⟨fun h => absurd h (by decide), fun h => absurd (by omega) h⟩
      · rw [if_neg hfull]
        exact ⟨fun _ => by omega, fun _ => rfl⟩

/-- An eventpoll that watches the descriptors below `n`. -/
def watching (n : Nat) (h : n < 2 ^ 31) : EpollInfo where
  header := [⟨.pos, "0".toList, by decide, by decide⟩, ⟨.flags, "02".toList, by decide, by decide⟩]
  watched := (List.finRange n).map fun fd : Fin n =>
    ⟨fd, "events: 19 data: 0".toList, Nat.lt_trans fd.isLt h, by decide, by decide⟩

theorem eventpoll_named_alike_two :
    nameForTarget (anonInode ++ "[eventpoll]".toList) (parseFdinfo (watching 2 (by decide)).text) =
      nameOfFdinfo "[eventpoll]".toList (watching 2 (by decide)).text 4086 :=
  (eventpoll_named_alike_iff (watching 2 (by decide)) (by decide)).mpr (by decide)

/-- Thirty-two descriptors: the same numbers, and another end of the name. -/
theorem eventpoll_thirtyTwo :
    ∃ numbers, nameForTarget (anonInode ++ "[eventpoll]".toList) (parseFdinfo (watching 32 (by decide)).text) =
        "[eventpoll:".toList ++ numbers ++ "]".toList ∧
      nameOfFdinfo "[eventpoll]".toList (watching 32 (by decide)).text 4086 =
        "[eventpoll:".toList ++ numbers ++ "...]".toList := by
  have hlength : (watching 32 (by decide)).fds.length = 32 := by simp [EpollInfo.fds, watching]
  have hne : (watching 32 (by decide)).fds ≠ [] := ne_nil_of_length_pos (by omega)
  rw [nameForTarget_eventpoll, nameOfFdinfo_eventpoll _ (by decide), if_neg hne, if_neg hne, hlength]
  refine ⟨[','].intercalate ((((watching 32 (by decide)).fds.take EPOLL_MAX_TFDS).mergeSort (· ≤ ·)).map Json.ofInt),
    ?_, ?_⟩
  · rw [if_neg (by decide), append_nil]
    rfl
  · rw [if_pos (by decide), append_assoc _ "...".toList]
    rfl

end Lsof.Original
