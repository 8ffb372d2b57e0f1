import Lsof.Basis.Fields
import Lsof.Basis.Json
import Lsof.Basis.Printed
import Lsof.Core.Model
import Lsof.Linux.Status

/-! # What the kernel says of a descriptor

`/proc/PID/fdinfo/FD` gives the flags and position of every descriptor, and of
some anonymous inodes what tells them apart, which lsof puts in NAME: an event
counter's id, the process of a pidfd, and the descriptors an eventpoll watches.
-/

namespace Lsof.Linux.Fdinfo

open Lsof.Basis Lsof.Core List

def signAndDigits : Text → Bool × Text
  | '+' :: digits => (false, digits)
  | '-' :: digits => (true, digits)
  | digits => (false, digits)

def parseSigned (w : Nat) (t : Text) : Option Int :=
  let parts := signAndDigits t
  let value : Int := if parts.1 then -(Text.digitsValue parts.2 : Int) else Text.digitsValue parts.2
  if parts.2.isEmpty || !Text.isDigits parts.2 then none
  else if -(2 ^ (w - 1) : Int) ≤ value ∧ value < 2 ^ (w - 1) then some value else none

def isOctal (c : Char) : Bool := '0' ≤ c && c ≤ '7'

def octalValue (t : Text) : Nat := t.foldl (fun v c => 8 * v + (c.toNat - '0'.toNat)) 0

/-- An unsigned number of `w` bits in octal; one `+` may lead. -/
def parseOctal (w : Nat) (t : Text) : Option (BitVec w) :=
  let digits := match t with
    | '+' :: rest => rest
    | _ => t
  if digits.isEmpty || !digits.all isOctal then none
  else if octalValue digits < 2 ^ w then some (BitVec.ofNat w (octalValue digits)) else none

def O_PATH : BitVec 32 := 0o10000000

def EPOLL_MAX_TFDS : Nat := 32

structure FdInfo where
  access : Option AccessMode := none
  pos : Option (BitVec 64) := none
  eventfdId : Option Int := none
  pidfdPid : Option Int := none
  flags : Option (BitVec 32) := none
  tfds : List Int := []
  tfdsTruncated : Bool := false
  ttyIndex : Option (BitVec 32) := none
  deriving DecidableEq, Repr

def accessFromFlags (flags : BitVec 32) : AccessMode :=
  if flags &&& O_PATH ≠ 0 then .readWrite
  else if flags &&& 3 = 0 then .read
  else if flags &&& 3 = 1 then .write
  else .readWrite

namespace FdInfo

def setFlags (out : FdInfo) (v : Text) : FdInfo :=
  match parseOctal 32 (trim v) with
  | some flags => { out with flags := some flags, access := some (accessFromFlags flags) }
  | none => out

/-- One more watched descriptor, or the note that there was one more. -/
def addTfd (out : FdInfo) (v : Text) : FdInfo :=
  match (splitWhitespace v).head?.bind (parseSigned 64) with
  | some fd =>
    if out.tfds.length < EPOLL_MAX_TFDS then { out with tfds := out.tfds ++ [fd] }
    else { out with tfdsTruncated := true }
  | none => out

def line (out : FdInfo) (line : Text) : FdInfo :=
  match "flags:".toList.isPrefixOf? line with
  | some v => out.setFlags v
  | none =>
  match "pos:".toList.isPrefixOf? line with
  | some v => { out with pos := Text.parseUnsigned 64 (trim v) }
  | none =>
  match "eventfd-id:".toList.isPrefixOf? line with
  | some v => { out with eventfdId := parseSigned 64 (trim v) }
  | none =>
  match "tty-index:".toList.isPrefixOf? line with
  | some v => { out with ttyIndex := (Text.parseUnsigned 32 (trim v)).filter fun n => n.toNat < 2 ^ 31 }
  | none =>
  match "Pid:".toList.isPrefixOf? line with
  | some v => { out with pidfdPid := parseSigned 64 (trim v) }
  | none =>
  match "tfd:".toList.isPrefixOf? line with
  | some v => out.addTfd v
  | none => out

end FdInfo

def parseFdinfo (info : Text) : FdInfo :=
  let out := info.lines.foldl FdInfo.line {}
  { out with tfds := out.tfds.mergeSort (· ≤ ·) }

def anonInode : Text := "anon_inode:".toList

def nameForKind (kind : Text) (info : FdInfo) : Text :=
  if kind = "[eventfd]".toList then
    match info.eventfdId with
    | some id => "[eventfd:".toList ++ Json.ofInt id ++ [']']
    | none => kind
  else if kind = "[pidfd]".toList then
    match info.pidfdPid with
    | some pid => "[pidfd:".toList ++ Json.ofInt pid ++ [']']
    | none => kind
  else if kind = "[eventpoll]".toList ∧ info.tfds ≠ [] then
    "[eventpoll:".toList ++ [','].intercalate (info.tfds.map Json.ofInt) ++
      (if info.tfdsTruncated then "...".toList else []) ++ [']']
  else kind

def nameForTarget (target : Text) (info : FdInfo) : Text :=
  if "pipe:[".toList.isPrefixOf target && target.getLast? == some ']' then "pipe".toList
  else match anonInode.isPrefixOf? target with
    | some kind => nameForKind kind info
    | none => target

/-! ## What the kernel prints of an eventpoll

First what it prints of every descriptor, `pos:`, `flags:`, `mnt_id:` and, by its
release, `ino:` and a `lock:` for each lock; then for each watched descriptor
`tfd: %8d events: %8x data: %16llx`, with its position, inode and device in later
releases. No number but the descriptor is read, so the rest is any plain text that
is not too long for the C's buffer.
-/

inductive HeaderKey where
  | pos
  | flags
  | mntId
  | ino
  | lock

def HeaderKey.text : HeaderKey → Text
  | pos => "pos:".toList
  | flags => "flags:".toList
  | mntId => "mnt_id:".toList
  | ino => "ino:".toList
  | lock => "lock:".toList

structure HeaderLine where
  key : HeaderKey
  value : Text
  plain : value.Plain
  short : value.length ≤ 1000

structure Watched where
  fd : Nat
  detail : Text
  fd_lt : fd < 2 ^ 31
  plain : detail.Plain
  short : detail.length ≤ 1000

structure EpollInfo where
  header : List HeaderLine
  watched : List Watched

def HeaderLine.line (h : HeaderLine) : Text := h.key.text ++ '\t' :: h.value

def Watched.line (w : Watched) : Text :=
  "tfd:".toList ++ ' ' :: (Text.padLeft 8 (Text.ofNat w.fd) ++ ' ' :: w.detail)

namespace EpollInfo

variable (k : EpollInfo)

def printedLines : List Text := k.header.map HeaderLine.line ++ k.watched.map Watched.line

def text : Text := Text.printed k.printedLines

def fds : List Int := k.watched.map fun w => (w.fd : Int)

end EpollInfo

theorem HeaderLine.isLine (h : HeaderLine) : h.line.IsLine := by
  have hkey : h.key.text.IsLine := by
    cases h.key <;> constructor <;> decide
  exact Text.isLine_append hkey (Text.isLine_append (s := ['\t']) ⟨by decide, by decide⟩ (Text.isLine_of_plain h.plain))

theorem Watched.plain_line (w : Watched) : w.line.Plain := by
  have hkey : Text.Plain "tfd:".toList := by
    intro c hc
    have hall : "tfd:".toList.all (fun c => 0x20 ≤ c.toNat && c.toNat < 0x7F) = true := by decide
    simpa using all_eq_true.mp hall c hc
  have hblank : 0x20 ≤ ' '.toNat ∧ ' '.toNat < 0x7F := by decide
  have hnumber := Text.Plain.padLeft (Text.plain_ofNat w.fd) 8
  have hrest := Text.plain_append.mpr ⟨hnumber, Text.plain_cons.mpr ⟨hblank, w.plain⟩⟩
  exact Text.plain_append.mpr ⟨hkey, Text.plain_cons.mpr ⟨hblank, hrest⟩⟩

theorem EpollInfo.isLine {k : EpollInfo} {line : Text} (h : line ∈ k.printedLines) : line.IsLine := by
  rcases mem_append.mp h with h | h
  · obtain ⟨header, -, rfl⟩ := mem_map.mp h
    exact header.isLine
  · obtain ⟨w, -, rfl⟩ := mem_map.mp h
    exact Text.isLine_of_plain w.plain_line

theorem parseSigned_ofNat {w n : Nat} (h : n < 2 ^ (w - 1)) : parseSigned w (Text.ofNat n) = some (n : Int) := by
  have hdigit : ∀ c ∈ Text.ofNat n, c.isDigit = true := fun c hc => Text.isDigit_of_mem_ofNat hc
  have hvalue : Text.digitsValue (Text.ofNat n) = n := by
    rw [Text.digitsValue_eq]
    exact Nat.ofDigitChars_ten_toDigits
  have hsign : signAndDigits (Text.ofNat n) = (false, Text.ofNat n) := by
    unfold signAndDigits
    split
    next heq => exact absurd (hdigit '+' (by rw [heq]; exact mem_cons_self)) (by decide)
    next heq => exact absurd (hdigit '-' (by rw [heq]; exact mem_cons_self)) (by decide)
    next => rfl
  have hempty : (Text.ofNat n).isEmpty = false := by
    have hne := Text.ofNat_ne_nil n
    simpa using hne
  have hall : Text.isDigits (Text.ofNat n) = true := all_eq_true.mpr hdigit
  have hlt : (n : Int) < 2 ^ (w - 1) := by exact_mod_cast h
  have hge : -(2 ^ (w - 1) : Int) ≤ n := by
    have hpos : (0 : Int) ≤ 2 ^ (w - 1) := by exact_mod_cast Nat.zero_le (2 ^ (w - 1))
    omega
  unfold parseSigned
  rw [hsign]
  dsimp only
  rw [hempty, hall, hvalue, if_neg (by decide), if_neg Bool.false_ne_true, if_pos (And.intro hge hlt)]

theorem splitWhitespace_watched (w : Watched) :
    (splitWhitespace (' ' :: (Text.padLeft 8 (Text.ofNat w.fd) ++ ' ' :: w.detail))).head? = some (Text.ofNat w.fd) := by
  have hsolid := Text.solid_ofNat w.fd
  have hend : AtEnd Text.isWhitespace (' ' :: w.detail) := by
    intro c hc
    obtain rfl : ' ' = c := by simpa using hc
    decide
  change (words Text.isWhitespace _).head? = _
  rw [words_separator (by decide), Text.padLeft, append_assoc, words_replicate (by decide),
    words_append (Text.ofNat_ne_nil w.fd) hsolid hend]
  rfl

namespace FdInfo

theorem line_header (out : FdInfo) (h : HeaderLine) :
    (out.line h.line).tfds = out.tfds ∧ (out.line h.line).tfdsTruncated = out.tfdsTruncated := by
  obtain ⟨key, value, -, -⟩ := h
  cases key with
  | flags =>
    change (out.setFlags _).tfds = _ ∧ (out.setFlags _).tfdsTruncated = _
    unfold setFlags
    split <;> exact ⟨rfl, rfl⟩
  | pos => exact ⟨rfl, rfl⟩
  | mntId => exact ⟨rfl, rfl⟩
  | ino => exact ⟨rfl, rfl⟩
  | lock => exact ⟨rfl, rfl⟩

theorem line_watched (out : FdInfo) (w : Watched) :
    out.line w.line =
      if out.tfds.length < EPOLL_MAX_TFDS then { out with tfds := out.tfds ++ [(w.fd : Int)] }
      else { out with tfdsTruncated := true } := by
  have hfd := w.fd_lt
  change out.addTfd (' ' :: (Text.padLeft 8 (Text.ofNat w.fd) ++ ' ' :: w.detail)) = _
  rw [addTfd, splitWhitespace_watched, Option.bind_some, parseSigned_ofNat (by omega)]

theorem foldl_watched (ws : List Watched) (out : FdInfo) (hfits : out.tfds.length ≤ EPOLL_MAX_TFDS) :
    ((ws.map Watched.line).foldl line out).tfds =
        (out.tfds ++ ws.map fun w => (w.fd : Int)).take EPOLL_MAX_TFDS ∧
      ((ws.map Watched.line).foldl line out).tfdsTruncated =
        (out.tfdsTruncated || decide (EPOLL_MAX_TFDS < out.tfds.length + ws.length)) := by
  induction ws generalizing out with
  | nil =>
    have hno : decide (EPOLL_MAX_TFDS < out.tfds.length + 0) = false := by simpa using hfits
    rw [map_nil, map_nil, append_nil, take_of_length_le hfits, length_nil, hno, Bool.or_false]
    exact ⟨rfl, rfl⟩
  | cons w ws ih =>
    rw [map_cons, foldl_cons, line_watched]
    by_cases hroom : out.tfds.length < EPOLL_MAX_TFDS
    · rw [if_pos hroom]
      have hnext := ih { out with tfds := out.tfds ++ [(w.fd : Int)] } (by simp; omega)
      rw [hnext.1, hnext.2]
      constructor
      · simp
      · simp only [length_append, length_cons, length_nil]
        congr 2
        simp only [eq_iff_iff]
        omega
    · rw [if_neg hroom]
      have hnext := ih { out with tfdsTruncated := true } hfits
      dsimp only at hnext
      rw [hnext.1, hnext.2]
      have hmore : decide (EPOLL_MAX_TFDS < out.tfds.length + (w :: ws).length) = true := by
        rw [length_cons, decide_eq_true_eq]
        omega
      have hfull : out.tfds.length = EPOLL_MAX_TFDS := by omega
      rw [hmore, Bool.or_true, Bool.true_or, take_append_of_le_length (by omega), take_append_of_le_length (by omega)]
      exact ⟨rfl, rfl⟩

theorem foldl_header (hs : List HeaderLine) (out : FdInfo) :
    ((hs.map HeaderLine.line).foldl line out).tfds = out.tfds ∧
      ((hs.map HeaderLine.line).foldl line out).tfdsTruncated = out.tfdsTruncated := by
  induction hs generalizing out with
  | nil => exact ⟨rfl, rfl⟩
  | cons h hs ih =>
    obtain ⟨htfds, htruncated⟩ := line_header out h
    obtain ⟨hrest, hrestTruncated⟩ := ih (out.line h.line)
    exact ⟨hrest.trans htfds, hrestTruncated.trans htruncated⟩

end FdInfo

theorem parseFdinfo_text (k : EpollInfo) :
    (parseFdinfo k.text).tfds = (k.fds.take EPOLL_MAX_TFDS).mergeSort (· ≤ ·) ∧
      (parseFdinfo k.text).tfdsTruncated = decide (EPOLL_MAX_TFDS < k.fds.length) := by
  obtain ⟨hheader, hheaderTruncated⟩ := FdInfo.foldl_header k.header {}
  obtain ⟨htfds, htruncated⟩ := FdInfo.foldl_watched k.watched ((k.header.map HeaderLine.line).foldl FdInfo.line {})
    (by rw [hheader]; exact Nat.zero_le _)
  rw [hheader, nil_append] at htfds
  rw [hheader, hheaderTruncated, Bool.false_or, length_nil, Nat.zero_add] at htruncated
  have hlines : k.text.lines = k.printedLines := Text.lines_printed fun line hline => EpollInfo.isLine hline
  unfold parseFdinfo
  dsimp only
  rw [hlines, EpollInfo.printedLines, foldl_append, htfds, htruncated, EpollInfo.fds, length_map]
  exact ⟨rfl, rfl⟩

theorem nameForTarget_eventpoll (k : EpollInfo) :
    nameForTarget (anonInode ++ "[eventpoll]".toList) (parseFdinfo k.text) =
      if k.fds = [] then "[eventpoll]".toList
      else "[eventpoll:".toList ++
        [','].intercalate (((k.fds.take EPOLL_MAX_TFDS).mergeSort (· ≤ ·)).map Json.ofInt) ++
        (if EPOLL_MAX_TFDS < k.fds.length then "...".toList else []) ++ [']'] := by
  obtain ⟨htfds, htruncated⟩ := parseFdinfo_text k
  change nameForKind "[eventpoll]".toList (parseFdinfo k.text) = _
  unfold nameForKind
  rw [if_neg (by decide), if_neg (by decide), htfds, htruncated]
  have hempty : (k.fds.take EPOLL_MAX_TFDS).mergeSort (fun a b : Int => decide (a ≤ b)) = [] ↔ k.fds = [] := by
    rw [← length_eq_zero_iff, length_mergeSort, length_eq_zero_iff, take_eq_nil_iff]
    simp [EPOLL_MAX_TFDS]
  by_cases hnone : k.fds = []
  · rw [if_pos hnone, if_neg (fun h => h.2 (hempty.mpr hnone))]
  · rw [if_neg hnone, if_pos ⟨rfl, fun h => hnone (hempty.mp h)⟩]
    simp only [decide_eq_true_eq]

end Lsof.Linux.Fdinfo
