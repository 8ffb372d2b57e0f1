import Lsof.Basis.Framing
import Lsof.Linux.Locks
import Lsof.Original.Locks

/-! # The lock a file is shown with

The kernel's list of locks as it prints it, and what the two readings of it have
in common: for every file the lock found is the latest of a kind new to the file.
-/

namespace Lsof.Linux

open Lsof.Basis Lsof.Core List

/-- A word of a line: visible ASCII but for the colon. -/
def isWord (t : Text) : Bool := !t.isEmpty && t.all fun c => 0x21 ≤ c.toNat && c.toNat < 0x7F && c != ':'

/-- A word and what stands between it and the next. -/
structure Cell where
  word : Text
  colon : Bool := false
  /-- The blanks beyond the first character. -/
  blanks : Nat := 0
  plain : isWord word = true

namespace Cell

def separator (c : Cell) : Char := if c.colon then ':' else ' '

def text (c : Cell) : Text := c.word ++ c.separator :: List.replicate c.blanks ' '

end Cell

theorem isWord_ofNat (n : Nat) : isWord (Text.ofNat n) = true := by
  rw [isWord, Bool.and_eq_true, all_eq_true]
  constructor
  · simp [Text.ofNat_ne_nil]
  · intro c hc
    have hrange := Text.digit_range (Text.isDigit_of_mem_ofNat hc)
    have hcolon : c ≠ ':' := fun heq => by
      have hnat : c.toNat = 0x3A := by rw [heq]; rfl
      omega
    simp only [Bool.and_eq_true, decide_eq_true_eq, bne_iff_ne]
    exact ⟨⟨by omega, by omega⟩, hcolon⟩

theorem isWord_hexAtLeast (w n : Nat) : isWord (Text.hexAtLeast w n) = true := by
  rw [isWord, Bool.and_eq_true, all_eq_true]
  constructor
  · simp [Text.hexAtLeast_ne_nil]
  · intro c hc
    have hdigit := Text.hexDigit_of_mem_hexAtLeast hc
    have hrange := Text.hexDigit_range hdigit
    have hcolon : c ≠ ':' := fun heq => by
      rw [heq] at hdigit
      exact absurd hdigit (by decide)
    simp only [Bool.and_eq_true, decide_eq_true_eq, bne_iff_ne]
    exact ⟨⟨by omega, by omega⟩, hcolon⟩

inductive LockClass where
  | posix
  | access
  | ofdlck
  | flock
  | lease
  | deleg
  deriving DecidableEq, Repr

def LockClass.text : LockClass → Text
  | posix => "POSIX".toList
  | access => "ACCESS".toList
  | ofdlck => "OFDLCK".toList
  | flock => "FLOCK".toList
  | lease => "LEASE".toList
  | deleg => "DELEG".toList

def LockClass.cell (k : LockClass) : Cell where
  word := k.text
  blanks := 6 - k.text.length
  plain := by cases k <;> rfl

inductive LockStanding where
  | advisory
  | mandatory
  | noInode
  | active
  | breaking
  | breaker
  deriving DecidableEq, Repr

def LockStanding.text : LockStanding → Text
  | advisory => "ADVISORY".toList
  | mandatory => "MANDATORY".toList
  | noInode => "*NOINODE*".toList
  | active => "ACTIVE".toList
  | breaking => "BREAKING".toList
  | breaker => "BREAKER".toList

def LockStanding.cell (s : LockStanding) : Cell where
  word := s.text
  blanks := 9 - s.text.length
  plain := by cases s <;> rfl

inductive LockType where
  | read
  | write
  | unlock
  deriving DecidableEq, Repr

def LockType.text : LockType → Text
  | read => "READ".toList
  | write => "WRITE".toList
  | unlock => "UNLCK".toList

def LockType.cell (t : LockType) : Cell where
  word := t.text
  plain := by cases t <;> rfl

def LockType.writes : LockType → Option Bool
  | read => some false
  | write => some true
  | unlock => none

/-- A record of the kernel's list. No process has a PID below zero; the widths
are those of the kernel's numbers. -/
structure KernelLock where
  id : Nat
  /-- How far a waiter stands in. -/
  waits : Option Nat := none
  cls : LockClass
  standing : LockStanding
  type : LockType
  pid : Nat
  /-- The device, in its two parts, and the inode. -/
  file : Option (Nat × Nat × Nat)
  start : Nat
  /-- None for the end of the file. -/
  stop : Option Nat
  pid_lt : pid < 2 ^ 31
  file_lt : ∀ f ∈ file, f.1 < 2 ^ 12 ∧ f.2.1 < 2 ^ 20 ∧ f.2.2 < 2 ^ 64
  start_lt : start < 2 ^ 63
  stop_lt : ∀ e ∈ stop, e < 2 ^ 63 - 1

namespace KernelLock

variable (r : KernelLock)

def fileCells : List Cell :=
  match r.file with
  | some (major, minor, inode) =>
    [{ word := Text.hexAtLeast 2 major, colon := true, plain := isWord_hexAtLeast 2 major },
      { word := Text.hexAtLeast 2 minor, colon := true, plain := isWord_hexAtLeast 2 minor },
      { word := Text.ofNat inode, plain := isWord_ofNat inode }]
  | none => [{ word := "<none>".toList, colon := true, plain := rfl }, { word := ['0'], plain := rfl }]

def frontCells : List Cell :=
  match r.waits with
  | none => [{ word := Text.ofNat r.id, colon := true, blanks := 1, plain := isWord_ofNat r.id }]
  | some depth =>
    [{ word := Text.ofNat r.id, colon := true, blanks := 1 + depth, plain := isWord_ofNat r.id },
      { word := "->".toList, plain := rfl }]

def cells : List Cell :=
  r.frontCells ++ [r.cls.cell, r.standing.cell, r.type.cell, { word := Text.ofNat r.pid, plain := isWord_ofNat r.pid }] ++
    r.fileCells ++ [{ word := Text.ofNat r.start, plain := isWord_ofNat r.start }]

def lastWord : Text :=
  match r.stop with
  | none => "EOF".toList
  | some e => Text.ofNat e

def line : Text := r.cells.flatMap Cell.text ++ r.lastWord

def words : List Text := r.cells.map Cell.word ++ [r.lastWord]

end KernelLock

def printLocks (rs : List KernelLock) : Text := rs.flatMap fun r => r.line ++ ['\n']

theorem isWord_lastWord (r : KernelLock) : isWord r.lastWord = true := by
  unfold KernelLock.lastWord
  cases r.stop with
  | none => rfl
  | some e => exact isWord_ofNat e

theorem ne_nil_of_isWord {t : Text} (h : isWord t = true) : t ≠ [] := by
  intro hnil
  rw [hnil] at h
  exact absurd h (by decide)

variable {c : Char}

theorem visible_of_isWord {t : Text} (h : isWord t = true) (hc : c ∈ t) :
    0x21 ≤ c.toNat ∧ c.toNat < 0x7F ∧ c ≠ ':' := by
  rw [isWord, Bool.and_eq_true, all_eq_true] at h
  have hplain := h.2 c hc
  simp only [Bool.and_eq_true, decide_eq_true_eq, bne_iff_ne] at hplain
  exact ⟨hplain.1.1, hplain.1.2, hplain.2⟩

def betweenFields (c : Char) : Bool := c == ':' || Text.isWhitespace c

theorem betweenFields_of_isWord {t : Text} (h : isWord t = true) : ∀ c ∈ t, betweenFields c = false := by
  intro c hc
  have hplain := visible_of_isWord h hc
  simp [betweenFields, Text.isWhitespace_of_graphic hplain.1 hplain.2.1, hplain.2.2]

variable {w : Text}

theorem lockFields_of_isWord (hw : isWord w = true) : lockFields w = [w] := by
  have hone := splitOnP_eq_singleton (betweenFields_of_isWord hw)
  have hkept : w ≠ [] := ne_nil_of_isWord hw
  change (w.splitOnP betweenFields).filter (fun s => !s.isEmpty) = [w]
  rw [hone]
  simp [hkept]

theorem lockFields_word (hw : isWord w = true) {sep : Char} (hsep : betweenFields sep = true) (rest : Text) :
    lockFields (w ++ sep :: rest) = w :: lockFields rest := by
  have hcut := splitOnP_append_cons_of_forall_mem (betweenFields_of_isWord hw) sep hsep rest
  have hkept : w ≠ [] := ne_nil_of_isWord hw
  change ((w ++ sep :: rest).splitOnP betweenFields).filter (fun s => !s.isEmpty) =
    w :: (rest.splitOnP betweenFields).filter (fun s => !s.isEmpty)
  rw [hcut]
  simp [hkept]

theorem lockFields_blanks (n : Nat) (rest : Text) : lockFields (List.replicate n ' ' ++ rest) = lockFields rest := by
  induction n with
  | zero => rfl
  | succ n ih =>
    have hcut : ∀ t : Text, lockFields (' ' :: t) = lockFields t := by
      intro t
      have hnone : ∀ c ∈ ([] : Text), betweenFields c = false := by simp
      have hblank := splitOnP_append_cons_of_forall_mem hnone ' ' (by decide) t
      change ((' ' :: t).splitOnP betweenFields).filter (fun s => !s.isEmpty) = _
      rw [← nil_append (' ' :: t), hblank, filter_cons_of_neg (by simp)]
      rfl
    rw [replicate_succ, cons_append, hcut, ih]

variable {last : Text}

theorem lockFields_cells (cells : List Cell) (hlast : isWord last = true) :
    lockFields (cells.flatMap Cell.text ++ last) = cells.map Cell.word ++ [last] := by
  induction cells with
  | nil => exact lockFields_of_isWord hlast
  | cons cell cells ih =>
    have hsep : betweenFields cell.separator = true := by
      unfold Cell.separator
      cases cell.colon <;> decide
    rw [flatMap_cons, Cell.text, append_assoc, append_assoc, cons_append,
      lockFields_word cell.plain hsep, lockFields_blanks, ih]
    rfl

theorem scanFields_word (hw : isWord w = true) (rest : Text) :
    Original.scanFields [':'] none (w ++ rest) = Original.scanFields [':'] (some w) rest := by
  apply Original.scanFields_append (ne_nil_of_isWord hw)
  intro c hmem
  have hc := visible_of_isWord hw hmem
  have hother : ∀ d : Char, d.toNat < 0x21 → c ≠ d := by
    intro d hd heq
    rw [heq] at hc
    omega
  exact ⟨hother ' ' (by decide), hother '\t' (by decide), hother '\n' (by decide), by simpa using hc.2.2⟩

theorem scanFields_cells (cells : List Cell) (hlast : isWord last = true) :
    Original.scanFields [':'] none (cells.flatMap Cell.text ++ (last ++ ['\n'])) = cells.map Cell.word ++ [last] := by
  induction cells with
  | nil =>
    rw [flatMap_nil, nil_append, scanFields_word hlast]
    rfl
  | cons cell cells ih =>
    have hsep : ∀ rest, Original.scanFields [':'] (some cell.word) (cell.separator :: rest) =
        cell.word :: Original.scanFields [':'] none rest := by
      intro rest
      unfold Cell.separator
      cases cell.colon with
      | true => rfl
      | false => rfl
    rw [flatMap_cons, Cell.text, append_assoc, append_assoc, cons_append,
      scanFields_word cell.plain, hsep, Original.scanFields_blanks, ih]
    rfl

theorem ascii_of_mem_word (hw : isWord w = true) (h : c ∈ w) : 0x20 ≤ c.toNat ∧ c.toNat < 0x7F := by
  have hplain := visible_of_isWord hw h
  omega

theorem ascii_of_mem_cell {cell : Cell} (h : c ∈ cell.text) : 0x20 ≤ c.toNat ∧ c.toNat < 0x7F := by
  rcases mem_append.mp h with hword | hgap
  · exact ascii_of_mem_word cell.plain hword
  · rcases mem_cons.mp hgap with heq | hblank
    · rw [heq, Cell.separator]
      cases cell.colon <;> decide
    · rw [(mem_replicate.mp hblank).2]
      decide

theorem not_mem_cell (cell : Cell) (hc : c.toNat < 0x20) : c ∉ cell.text := by
  intro h
  have hrange := ascii_of_mem_cell h
  omega

theorem not_mem_cells (cells : List Cell) (hlast : isWord last = true) (hc : c.toNat < 0x20) :
    c ∉ cells.flatMap Cell.text ++ last := by
  intro h
  rcases mem_append.mp h with hcell | hend
  · rcases mem_flatMap.mp hcell with ⟨cell, -, hmem⟩
    exact not_mem_cell cell hc hmem
  · have hrange := ascii_of_mem_word hlast hend
    omega

theorem not_mem_line (r : KernelLock) (hc : c.toNat < 0x20) : c ∉ r.line :=
  not_mem_cells r.cells (isWord_lastWord r) hc

theorem getFields_cells (cells : List Cell) (hlast : isWord last = true) :
    Original.getFields (cells.flatMap Cell.text ++ last ++ ['\n']) [':'] = cells.map Cell.word ++ [last] := by
  have hnul : '\x00' ∉ cells.flatMap Cell.text ++ last ++ ['\n'] := by
    intro hc
    rcases mem_append.mp hc with hline | hend
    · exact not_mem_cells cells hlast (by decide) hline
    · exact absurd hend (by decide)
  rw [Original.getFields_of_not_mem hnul, append_assoc, scanFields_cells _ hlast]

theorem getFields_line (r : KernelLock) : Original.getFields (r.line ++ ['\n']) [':'] = r.words :=
  getFields_cells r.cells (isWord_lastWord r)

theorem lines_printLocks (rs : List KernelLock) : (printLocks rs).lines = rs.map KernelLock.line := by
  have hplain : ∀ token ∈ rs.map KernelLock.line, '\n' ∉ token := by
    intro token htoken
    rcases mem_map.mp htoken with ⟨r, -, hr⟩
    rw [← hr]
    exact not_mem_line r (by decide)
  have hsplit := splitOn_flatMap hplain
  rw [flatMap_map, splitOn_eq_splitOnP] at hsplit
  have hcr : ∀ r : KernelLock, Text.stripCr r.line = r.line := by
    intro r
    have hstrip := Text.stripCr_append (not_mem_line r (by decide : '\r'.toNat < 0x20)) []
    rw [append_nil] at hstrip
    rw [hstrip]
    exact append_nil _
  rw [printLocks, Text.lines_of_terminated hsplit, map_map]
  exact map_congr_left fun r _ => hcr r

theorem fgetsFrom_line {line : Text} (hnl : '\n' ∉ line) {left : Nat} (hleft : line.length < left) (held rest : Text) :
    Original.fgetsFrom left held (line ++ '\n' :: rest) = (held ++ line ++ ['\n']) :: Original.fgetsAll rest := by
  induction line generalizing left held with
  | nil =>
    rw [nil_append, Original.fgetsFrom, append_nil]
    rfl
  | cons c line ih =>
    rw [mem_cons, not_or] at hnl
    rw [length_cons] at hleft
    have hgoes : ¬ (c == '\n' || decide (left ≤ 1)) = true := by
      have hc : c ≠ '\n' := Ne.symm hnl.1
      have hroom : ¬ left ≤ 1 := by omega
      simp [hc, hroom]
    rw [cons_append, Original.fgetsFrom, if_neg hgoes, ih hnl.2 (by omega)]
    simp

theorem fgetsAll_printLocks {rs : List KernelLock} (h : ∀ r ∈ rs, r.line.length + 1 < Original.MAXPATHLEN) :
    Original.fgetsAll (printLocks rs) = rs.map fun r => r.line ++ ['\n'] := by
  induction rs with
  | nil => rfl
  | cons r rs ih =>
    have hroom : r.line.length < Original.MAXPATHLEN - 1 := by
      have hr := h r mem_cons_self
      omega
    have hline := fgetsFrom_line (not_mem_line r (by decide)) hroom [] (printLocks rs)
    rw [printLocks, flatMap_cons, append_assoc, singleton_append]
    rw [nil_append] at hline
    exact hline.trans (congrArg _ (ih fun q hq => h q (mem_cons_of_mem r hq)))

theorem lockFields_line (r : KernelLock) : lockFields r.line = r.words := lockFields_cells _ (isWord_lastWord r)

namespace KernelLock

variable (r : KernelLock)

/-- The process, device and inode of a lock that is held, and whether it is one to
write. -/
def held : Option ((Nat × Nat × Nat) × Bool) :=
  match r.waits, r.type.writes, r.file with
  | none, some write, some (major, minor, inode) => some ((r.pid, makedev major minor, inode), write)
  | _, _, _ => none

def wholeFile : Bool := r.start == 0 && r.stop.isNone

/-- To the C an end may also be the last byte a 32-bit offset reaches. -/
def wholeToC : Bool := r.start == 0 && r.stop.getD Original.OFFSET_MAX == Original.OFFSET_MAX

def entry : Option (LockKey × LockKind) :=
  r.held.map fun h => ((BitVec.ofNat 32 h.1.1, h.1.2.1, BitVec.ofNat 64 h.1.2.2), LockKind.new h.2 r.wholeFile)

/-- The file and the lock the C reads a record as. It takes the largest inode for a
number out of range. -/
def entryToC : Option (Original.LockedFile × Original.LockMode) :=
  r.held.bind fun h =>
    if h.1.2.2 = Original.ULONG_MAX then none
    else some ((h.1.1, h.1.2.1, h.1.2.2), Original.lockMode h.2 r.wholeToC)

theorem words_of_waits {depth : Nat} (h : r.waits = some depth) : r.words.getD 1 [] = "->".toList := by
  simp [words, cells, frontCells, h]

theorem words_of_file_none (hwaits : r.waits = none) (h : r.file = none) : r.words.length = 9 := by
  simp [words, cells, frontCells, fileCells, hwaits, h]

theorem words_of_held {major minor inode : Nat} (hwaits : r.waits = none) (h : r.file = some (major, minor, inode)) :
    r.words = [Text.ofNat r.id, r.cls.text, r.standing.text, r.type.text, Text.ofNat r.pid, Text.hexAtLeast 2 major,
      Text.hexAtLeast 2 minor, Text.ofNat inode, Text.ofNat r.start, r.lastWord] := by
  simp [words, cells, frontCells, fileCells, hwaits, h, LockClass.cell, LockStanding.cell, LockType.cell]

theorem class_ne_arrow : (r.cls.text == "->".toList) = false := by cases r.cls <;> rfl

theorem lastWord_eof : (r.lastWord == "EOF".toList) = r.stop.isNone := by
  unfold lastWord
  cases r.stop with
  | none => rfl
  | some e =>
    apply beq_eq_false_iff_ne.mpr
    intro heq
    have hmem : 'E' ∈ Text.ofNat e := by
      change Text.ofNat e = "EOF".toList at heq
      rw [heq]
      decide
    exact absurd (Text.isDigit_of_mem_ofNat hmem) (by decide)

variable {f : List Text}

theorem lockEntry_waiter (h : f.getD 1 [] = "->".toList) : lockEntry f = none := by
  unfold lockEntry
  by_cases hlen : f.length < 10
  · rw [if_pos hlen]
    rfl
  · rw [if_neg hlen, h]
    rfl

theorem lockEntry_short (h : f.length < 10) : lockEntry f = none := by
  rw [lockEntry, if_pos h]
  rfl

theorem lockOf_waiter (h : f.getD 1 [] = "->".toList) : Original.lockOf f = none := by
  unfold Original.lockOf
  by_cases hlen : f.length < 10
  · rw [if_pos hlen]
    rfl
  · rw [if_neg hlen, h]
    rfl

theorem lockOf_short (h : f.length < 10) : Original.lockOf f = none := by
  rw [Original.lockOf, if_pos h]
  rfl

theorem parseUnsigned_of_lt {w n : Nat} (h : n < 2 ^ w) :
    Text.parseUnsigned w (Text.ofNat n) = some (BitVec.ofNat w n) := by
  have hback := Text.parseUnsigned_ofNat (BitVec.ofNat w n)
  rw [BitVec.toNat_ofNat, Nat.mod_eq_of_lt h] at hback
  exact hback

theorem lockLine_line : lockLine r.line = r.entry := by
  unfold lockLine entry held
  rw [lockFields_line]
  cases hwaits : r.waits with
  | some depth => exact lockEntry_waiter (words_of_waits r hwaits)
  | none =>
    cases hfile : r.file with
    | none =>
      have hshort : r.words.length < 10 := by rw [words_of_file_none r hwaits hfile]; decide
      rw [lockEntry_short hshort]
      cases r.type <;> rfl
    | some file =>
      rcases file with ⟨major, minor, inode⟩
      have hlt := r.file_lt _ hfile
      have hpid := parseUnsigned_of_lt (Nat.lt_trans r.pid_lt (by decide) : r.pid < 2 ^ 32)
      have hmajor := Text.parseHex_hexAtLeast 2 (Nat.lt_trans hlt.1 (by decide) : major < 2 ^ 32)
      have hminor := Text.parseHex_hexAtLeast 2 (Nat.lt_trans hlt.2.1 (by decide) : minor < 2 ^ 32)
      have hinode := parseUnsigned_of_lt hlt.2.2
      have hstart := parseUnsigned_of_lt (Nat.lt_trans r.start_lt (by decide) : r.start < 2 ^ 64)
      have hzero : (BitVec.ofNat 64 r.start == 0) = (r.start == 0) := by
        have hlt := r.start_lt
        rw [Bool.eq_iff_iff, beq_iff_eq, beq_iff_eq, ← BitVec.toNat_inj, BitVec.toNat_ofNat,
          Nat.mod_eq_of_lt (by omega)]
        rfl
      rw [words_of_held r hwaits hfile]
      unfold lockEntry
      simp only [length_cons, length_nil, getD_cons_zero, getD_cons_succ, class_ne_arrow,
        hpid, hmajor, hminor, hinode, hstart, lastWord_eof, hzero, Option.bind_eq_bind, Option.bind_some]
      cases r.type with
      | read => rfl
      | write => rfl
      | unlock => rfl

def modeOf : LockKind → Original.LockMode
  | .readPartial => .readPartial
  | .readFull => .readFull
  | .writePartial => .writePartial
  | .writeFull => .writeFull

theorem lockMode_eq (write full : Bool) : Original.lockMode write full = modeOf (LockKind.new write full) := by
  cases write <;> cases full <;> rfl

theorem modeOf_injective : Function.Injective modeOf := by
  intro a b h
  cases a <;> cases b <;> first | rfl | exact absurd h nofun

theorem lockToChar_modeOf (kind : LockKind) : Original.lockToChar (modeOf kind) = kind.code := by
  cases kind <;> rfl

theorem lockNumber_ofNat {n : Nat} (h : n < 2 ^ 64) :
    Original.lockNumber (Text.ofNat n) = if n = Original.ULONG_MAX then none else some n := by
  have hne : (Text.ofNat n).isEmpty = false := by simp [Text.ofNat_ne_nil]
  rw [Original.lockNumber, Original.wholeNumber, Original.strtoul_ofNat h, hne]
  by_cases hmax : n = Original.ULONG_MAX
  · rw [if_pos hmax, hmax]
    rfl
  · simp [hmax]

theorem lockPart_hexAtLeast {n : Nat} (w : Nat) (h : n < 2 ^ 32) :
    Original.lockPart (Text.hexAtLeast w n) = some (n : Int) := by
  have hne : (Text.hexAtLeast w n).isEmpty = false := by simp [Text.hexAtLeast_ne_nil]
  have hmin : (n : Int) ≠ Original.LONG_MIN := by
    unfold Original.LONG_MIN
    omega
  have hmax : (n : Int) ≠ Original.LONG_MAX := by
    unfold Original.LONG_MAX
    omega
  rw [Original.lockPart, Original.wholeNumber, Original.strtol_hexAtLeast w (by omega), hne]
  simp [hmin, hmax]

theorem lockEnd_lastWord : Original.lockEnd r.lastWord = some (r.stop.getD Original.OFFSET_MAX) := by
  unfold Original.lockEnd
  cases hstop : r.stop with
  | none => simp [lastWord, hstop]
  | some e =>
    have hlt := r.stop_lt e hstop
    have hnot : ¬ (r.lastWord == "EOF".toList) = true := by
      rw [lastWord_eof, hstop]
      exact nofun
    have hmax : e ≠ Original.ULONG_MAX := by
      unfold Original.ULONG_MAX
      omega
    have hlast : r.lastWord = Text.ofNat e := by simp [lastWord, hstop]
    rw [if_neg hnot, hlast, lockNumber_ofNat (by omega), if_neg hmax]
    rfl

theorem toInt32_ofNat {n : Nat} (h : n < 2 ^ 32) : Original.toInt32 n = n := by
  rw [Original.toInt32, BitVec.ofInt_natCast, BitVec.toNat_ofNat, Nat.mod_eq_of_lt h]

theorem lockOf_ten {w₀ w₁ w₂ : Text} (harrow : (w₁ == "->".toList) = false) {major minor inode : Nat}
    (hfile : r.file = some (major, minor, inode)) :
    Original.lockOf [w₀, w₁, w₂, r.type.text, Text.ofNat r.pid, Text.hexAtLeast 2 major, Text.hexAtLeast 2 minor,
        Text.ofNat inode, Text.ofNat r.start, r.lastWord] =
      r.type.writes.bind fun write =>
        if inode = Original.ULONG_MAX then none
        else some (((r.pid : Int), makedev major minor, inode), Original.lockMode write r.wholeToC) := by
  have hlt := r.file_lt _ hfile
  have hmajor : major < 2 ^ 32 := Nat.lt_trans hlt.1 (by decide)
  have hminor : minor < 2 ^ 32 := Nat.lt_trans hlt.2.1 (by decide)
  have hstart : Original.lockNumber (Text.ofNat r.start) = some r.start := by
    have hsmall := r.start_lt
    have hmax : r.start ≠ Original.ULONG_MAX := by
      unfold Original.ULONG_MAX
      omega
    rw [lockNumber_ofNat (by omega), if_neg hmax]
  have hempty : ∀ n, (Text.ofNat n).isEmpty = false := by simp [Text.ofNat_ne_nil]
  have hlast : r.lastWord.isEmpty = false := by simp [ne_nil_of_isWord (isWord_lastWord r)]
  unfold Original.lockOf
  simp only [length_cons, length_nil, getD_cons_zero, getD_cons_succ, harrow,
    Original.atoi_ofNat r.pid_lt, lockPart_hexAtLeast 2 hmajor, lockPart_hexAtLeast 2 hminor, lockNumber_ofNat hlt.2.2,
    hstart, hempty, hlast, lockEnd_lastWord, toInt32_ofNat hmajor, toInt32_ofNat hminor, Option.bind_eq_bind,
    Option.bind_some]
  by_cases hmax : inode = Original.ULONG_MAX
  · simp only [if_pos hmax]
    cases r.type with
    | read => rfl
    | write => rfl
    | unlock => rfl
  · simp only [if_neg hmax]
    cases r.type with
    | read => rfl
    | write => rfl
    | unlock => rfl

theorem lockOf_words : Original.lockOf r.words = r.entryToC := by
  unfold entryToC held
  cases hwaits : r.waits with
  | some depth => exact lockOf_waiter (words_of_waits r hwaits)
  | none =>
    cases hfile : r.file with
    | none =>
      have hshort : r.words.length < 10 := by rw [words_of_file_none r hwaits hfile]; decide
      rw [lockOf_short hshort]
      cases r.type <;> rfl
    | some file =>
      rcases file with ⟨major, minor, inode⟩
      rw [words_of_held r hwaits hfile, lockOf_ten r r.class_ne_arrow hfile]
      cases r.type <;> rfl

def holds (file : LockKey) : Prop := ∃ kind, r.entry = some (file, kind)

theorem held_lt {h : (Nat × Nat × Nat) × Bool} (hheld : r.held = some h) : h.1.1 < 2 ^ 31 ∧ h.1.2.2 < 2 ^ 64 := by
  unfold held at hheld
  split at hheld
  next major minor inode _ _ hfile =>
    rw [← Option.some.inj hheld]
    exact ⟨r.pid_lt, (r.file_lt _ hfile).2.2⟩
  next => exact absurd hheld nofun

/-- The two agree where a lock covers, but for the end a 32-bit offset reaches. -/
theorem wholeToC_eq (h : ¬ (r.start = 0 ∧ r.stop = some Original.OFFSET_MAX)) : r.wholeToC = r.wholeFile := by
  unfold wholeToC wholeFile
  by_cases hstart : r.start = 0
  · rw [hstart]
    cases hstop : r.stop with
    | none => rfl
    | some e =>
      have hne : e ≠ Original.OFFSET_MAX := fun heq => h ⟨hstart, by rw [hstop, heq]⟩
      exact beq_eq_false_iff_ne.mpr hne
  · have hfalse : (r.start == 0) = false := beq_eq_false_iff_ne.mpr hstart
    rw [hfalse]
    rfl

end KernelLock

def toLocked (file : LockKey) : Original.LockedFile := (file.1.toInt, file.2.1, file.2.2.toNat)

theorem toLocked_eq_iff {pid inode : Nat} (hpid : pid < 2 ^ 31) (hinode : inode < 2 ^ 64) (device : Nat) (file : LockKey) :
    ((pid : Int), device, inode) = toLocked file ↔ (BitVec.ofNat 32 pid, device, BitVec.ofNat 64 inode) = file := by
  rcases file with ⟨p, d, i⟩
  have hp : (pid : Int) = p.toInt ↔ BitVec.ofNat 32 pid = p := by
    have hback : (BitVec.ofNat 32 pid).toInt = pid := by
      rw [BitVec.toInt_ofNat', Int.bmod_eq_of_le (by omega) (by omega)]
    rw [← BitVec.toInt_inj, hback]
  have hi : inode = i.toNat ↔ BitVec.ofNat 64 inode = i := by
    rw [← BitVec.toNat_inj, BitVec.toNat_ofNat, Nat.mod_eq_of_lt hinode]
  simp only [toLocked, Prod.mk.injEq, hp, hi]

theorem entryToC_of_file (r : KernelLock) {file : LockKey} (hinode : file.2.2.toNat ≠ Original.ULONG_MAX)
    (hrange : r.holds file → ¬ (r.start = 0 ∧ r.stop = some Original.OFFSET_MAX)) :
    (r.entryToC.filter fun e => e.1 = toLocked file).map Prod.snd =
      (r.entry.filter fun e => e.1 = file).map (KernelLock.modeOf ∘ Prod.snd) := by
  unfold KernelLock.entryToC
  cases hheld : r.held with
  | none => simp [KernelLock.entry, hheld]
  | some h =>
    rcases h with ⟨⟨pid, device, inode⟩, write⟩
    have hlt := r.held_lt hheld
    have hiff := toLocked_eq_iff hlt.1 hlt.2 device file
    have hentry : r.entry = some ((BitVec.ofNat 32 pid, device, BitVec.ofNat 64 inode),
        LockKind.new write r.wholeFile) := by
      rw [KernelLock.entry, hheld]
      rfl
    rw [hentry, Option.bind_some]
    by_cases hfile : (BitVec.ofNat 32 pid, device, BitVec.ofNat 64 inode) = file
    · have hwhole := r.wholeToC_eq (hrange ⟨_, hentry.trans (by rw [hfile])⟩)
      have hlocked := hiff.mpr hfile
      have hmax : inode ≠ Original.ULONG_MAX := by
        have hsame : inode = file.2.2.toNat := congrArg (fun f => f.2.2) hlocked
        rw [hsame]
        exact hinode
      rw [if_neg hmax, hwhole, KernelLock.lockMode_eq, Option.filter_some_pos (by simpa using hlocked),
        Option.filter_some_pos (by simpa using hfile)]
      rfl
    · have hlocked : ¬ ((pid : Int), device, inode) = toLocked file := fun heq => hfile (hiff.mp heq)
      rw [Option.filter_some_neg (by simpa using hfile)]
      by_cases hmax : inode = Original.ULONG_MAX
      · rw [if_pos hmax]
        rfl
      · rw [if_neg hmax, Option.filter_some_neg (by simpa using hlocked)]
        rfl

theorem parseLocks_printLocks (rs : List KernelLock) (file : LockKey) :
    parseLocks (printLocks rs) file = newest (rs.filterMap KernelLock.entry) file := by
  have hread : (rs.map KernelLock.line).filterMap lockLine = rs.filterMap KernelLock.entry := by
    rw [filterMap_map]
    apply filterMap_congr
    intro r hr
    rw [Function.comp_apply, r.lockLine_line]
  rw [parseLocks_eq, lines_printLocks, hread]

theorem checkLock_printLocks {rs : List KernelLock} (hfit : ∀ r ∈ rs, r.line.length + 1 < Original.MAXPATHLEN)
    (file : Original.LockedFile) :
    Original.checkLock (Original.getLocks (printLocks rs)) file = newest (rs.filterMap KernelLock.entryToC) file := by
  have hread : Original.readLocks (printLocks rs) = rs.filterMap KernelLock.entryToC := by
    rw [Original.readLocks, fgetsAll_printLocks hfit, filterMap_map]
    apply filterMap_congr
    intro r hr
    rw [Function.comp_apply, getFields_line, r.lockOf_words]
  rw [Original.checkLock_getLocks, hread]

def lockChar (text : Text) (file : LockKey) : Option Char := (parseLocks text file).map LockKind.code

def lockCharOfC (text : Text) (file : Original.LockedFile) : Option Char :=
  (Original.checkLock (Original.getLocks text) file).map Original.lockToChar

/-- For every file the lock found is shown by the character the C shows, where no
line overruns the C's buffer and the file is none of two that the C mistakes. -/
theorem parseLocks_as_original {rs : List KernelLock} (hfit : ∀ r ∈ rs, r.line.length + 1 < Original.MAXPATHLEN)
    {file : LockKey} (hinode : file.2.2.toNat ≠ Original.ULONG_MAX)
    (hrange : ∀ r ∈ rs, r.holds file → ¬ (r.start = 0 ∧ r.stop = some Original.OFFSET_MAX)) :
    lockChar (printLocks rs) file = lockCharOfC (printLocks rs) (toLocked file) := by
  have hnewest := newest_filterMap KernelLock.modeOf_injective fun r hr => entryToC_of_file r hinode (hrange r hr)
  have hcode : Original.lockToChar ∘ KernelLock.modeOf = LockKind.code := funext KernelLock.lockToChar_modeOf
  rw [lockChar, lockCharOfC, parseLocks_printLocks, checkLock_printLocks hfit, hnewest, Option.map_map, hcode]

/-- A lock of process 7 to write to a file of the device 8,1, from its first byte. -/
def writeLock (waits : Option Nat) (inode : BitVec 64) (stop : Option (BitVec 32)) : KernelLock where
  id := 1
  waits := waits
  cls := .posix
  standing := .advisory
  type := .write
  pid := 7
  file := some (8, 1, inode.toNat)
  start := 0
  stop := stop.map BitVec.toNat
  pid_lt := by decide
  file_lt := by
    intro f hf
    have hmajor : 8 < 2 ^ 12 := by decide
    have hminor : 1 < 2 ^ 20 := by decide
    rw [← Option.some.inj hf]
    exact ⟨hmajor, hminor, inode.isLt⟩
  start_lt := by decide
  stop_lt := by
    intro e he
    rcases Option.map_eq_some_iff.mp he with ⟨f, -, hf⟩
    have hlt := f.isLt
    omega

/-- The second lock is of a kind new to the file. -/
theorem parseLocks_as_original_pair :
    lockChar (printLocks [writeLock none 5 none, writeLock none 5 (some 9)]) (7, makedev 8 1, 5) =
      lockCharOfC (printLocks [writeLock none 5 none, writeLock none 5 (some 9)]) (toLocked (7, makedev 8 1, 5)) := by
  apply parseLocks_as_original
  · intro r hr
    rcases mem_pair.mp hr with rfl | rfl
    · decide
    · decide
  · decide
  · intro r hr _
    rcases mem_pair.mp hr with rfl | rfl
    · decide
    · decide

theorem fgetsFrom_full {line : Text} (hnl : '\n' ∉ line) {left : Nat} (hleft : line.length = left) (hpos : 0 < left)
    (held rest : Text) : Original.fgetsFrom left held (line ++ rest) = (held ++ line) :: Original.fgetsAll rest := by
  induction line generalizing left held with
  | nil => simp at hleft; omega
  | cons c line ih =>
    rw [mem_cons, not_or] at hnl
    rw [length_cons] at hleft
    rw [cons_append, Original.fgetsFrom]
    cases line with
    | nil =>
      have hlast : (c == '\n' || decide (left ≤ 1)) = true := by
        have hone : left ≤ 1 := by simp at hleft; omega
        simp [hone]
      rw [if_pos hlast]
      rfl
    | cons d line =>
      rw [length_cons] at hleft
      have hgoes : ¬ (c == '\n' || decide (left ≤ 1)) = true := by
        have hc : c ≠ '\n' := Ne.symm hnl.1
        have hroom : ¬ left ≤ 1 := by omega
        simp [hc, hroom]
      rw [if_neg hgoes, ih hnl.2 (by rw [length_cons]; omega) (by omega)]
      simp

theorem getFields_cell (cell : Cell) : Original.getFields cell.text [':'] = [cell.word] := by
  have hnul : ∀ c ∈ cell.text, (c != '\x00') = true := by
    intro c hc
    apply bne_iff_ne.mpr
    intro heq
    rw [heq] at hc
    exact not_mem_cell cell (by decide) hc
  have hend : Original.scanFields [':'] none (List.replicate cell.blanks ' ') = [] := by
    have hblanks := Original.scanFields_blanks [':'] cell.blanks []
    rw [append_nil] at hblanks
    exact hblanks
  rw [Original.getFields, takeWhile_eq_self_iff.mpr hnul, Cell.text, scanFields_word cell.plain, Cell.separator]
  cases cell.colon with
  | true => exact congrArg _ hend
  | false => exact congrArg _ hend

/-- A line whose first cell fills the buffer is read as if the next were its first. -/
theorem readLocks_cut {r : KernelLock} {cell : Cell} {cells : List Cell} (hcells : r.cells = cell :: cells)
    (hfull : cell.word.length + (cell.blanks + 1) = Original.MAXPATHLEN - 1)
    (hrest : (cells.flatMap Cell.text ++ r.lastWord).length < Original.MAXPATHLEN - 1) :
    Original.readLocks (printLocks [r]) = (Original.lockOf (cells.map Cell.word ++ [r.lastWord])).toList := by
  have hline : printLocks [r] = cell.text ++ (cells.flatMap Cell.text ++ r.lastWord ++ '\n' :: []) := by
    simp [printLocks, KernelLock.line, hcells]
  have hnl : '\n' ∉ cell.text := not_mem_cell cell (by decide)
  have hlength : cell.text.length = Original.MAXPATHLEN - 1 := by
    rw [← hfull, Cell.text, length_append, length_cons, length_replicate]
  have hshort : Original.lockOf [cell.word] = none := by
    apply KernelLock.lockOf_short
    simp
  rw [Original.readLocks, hline, Original.fgetsAll, fgetsFrom_full hnl hlength (by decide), Original.fgetsAll,
    fgetsFrom_line (not_mem_cells cells (isWord_lastWord r) (by decide)) hrest, nil_append, nil_append,
    filterMap_cons, getFields_cell, hshort]
  change [_].filterMap _ = _
  rw [filterMap_cons, getFields_cells cells (isWord_lastWord r)]
  cases Original.lockOf (cells.map Cell.word ++ [r.lastWord]) <;> rfl

/-- A lock up to the last byte a 32-bit offset reaches, one of the largest inode, and
a waiter whose line overruns the buffer. -/
theorem lockChar_apart :
    (lockChar (printLocks [writeLock none 5 (some 0x7FFFFFFF)]) (7, makedev 8 1, 5) = some 'w' ∧
      lockCharOfC (printLocks [writeLock none 5 (some 0x7FFFFFFF)]) (7, makedev 8 1, 5) = some 'W') ∧
    (lockChar (printLocks [writeLock none (-1) none]) (7, makedev 8 1, -1) = some 'W' ∧
      lockCharOfC (printLocks [writeLock none (-1) none]) (7, makedev 8 1, 2 ^ 64 - 1) = none) ∧
    lockChar (printLocks [writeLock (some 4092) 5 none]) (7, makedev 8 1, 5) = none ∧
      lockCharOfC (printLocks [writeLock (some 4092) 5 none]) (7, makedev 8 1, 5) = some 'W' := by
  have hfit : ∀ {r : KernelLock}, r.line.length + 1 < Original.MAXPATHLEN →
      ∀ q ∈ [r], q.line.length + 1 < Original.MAXPATHLEN := by
    intro r hr q hq
    rw [mem_singleton.mp hq]
    exact hr
  unfold lockChar lockCharOfC
  rw [parseLocks_printLocks, parseLocks_printLocks, parseLocks_printLocks, checkLock_printLocks (hfit (by decide)),
    checkLock_printLocks (hfit (by decide)), Original.checkLock_getLocks, readLocks_cut rfl (by decide) (by decide)]
  decide

end Lsof.Linux
