import Lsof.Linux.Status
import Lsof.Original.Locks

/-! # The command in `stat`

The C takes a process's command from its `stat`, where it stands raw between
parentheses: `read_id_stat()` looks for the first of them and the last. lsof-rs takes
it from `status`, where the kernel escapes it. Both have the same command.
-/

namespace Lsof.Original

open Lsof.Basis Lsof.Linux List

/-- A C string, for what reads its characters one by one. -/
def chars (bs : Bytes) : Text := bs.map fun b => Char.ofNat b.toNat

/-- What is before the last such byte, and what is after it. -/
def strrchr (c : UInt8) : Bytes → Option (Bytes × Bytes)
  | [] => none
  | b :: bs =>
    match strrchr c bs with
    | some halves => some (b :: halves.1, halves.2)
    | none => if b = c then some ([], bs) else none

inductive IdState where
  | ok
  | zombie
  | thread
  deriving DecidableEq, Repr

structure IdStat where
  cmd : Bytes
  ppid : Int
  pgid : Int
  ret : IdState
  deriving DecidableEq, Repr

def idStateOf (field : Text) : IdState :=
  if field = ['Z'] then .zombie else if field = ['T'] then .thread else .ok

/-- What follows the parentheses, with the command that was in them. -/
def readIdFields (cmd rest : Bytes) : Option IdStat :=
  let cp := rest.dropWhile (· == 32)
  if cp.isEmpty then none
  else
    match getFields (chars cp) [] with
    | state :: ppid :: pgid :: _ =>
      if ppid.isEmpty || pgid.isEmpty then none
      else some { cmd, ppid := atoi ppid, pgid := atoi pgid, ret := idStateOf state }
    | _ => none

/-- `read_id_stat`, of what is in the file; nothing where it returns -1. -/
def readIdStat (content : Bytes) (id : Int) : Option IdStat :=
  let cbf := content.takeWhile (· != 0)
  let first := cbf.takeWhile fun b => b != 32 && b != 9
  if cbf.isEmpty then none
  else if atoi (chars first) ≠ id then none
  else
    match (cbf.drop (first.length + 1)).dropWhile (· == 32) with
    | [] => none
    | b :: cp1 =>
      if b ≠ 40 then none
      else
        match strrchr 41 cp1 with
        | none => none
        | some halves => readIdFields (halves.1.map newlineToMarkByte) halves.2

structure StatWord where
  bytes : Bytes
  ne : bytes ≠ []
  plain : ∀ b ∈ bytes, b ≠ 0 ∧ b ≠ 9 ∧ b ≠ 10 ∧ b ≠ 32 ∧ b ≠ 41

structure KernelStat where
  pid : Nat
  pid_lt : pid < 2 ^ 31
  state : StatWord
  ppid : StatWord
  pgid : StatWord
  more : Bytes
  plain : ∀ b ∈ more, b ≠ 0 ∧ b ≠ 41

namespace KernelStat

variable (k : KernelStat)

def fields : Bytes := k.state.bytes ++ 32 :: (k.ppid.bytes ++ 32 :: (k.pgid.bytes ++ 32 :: k.more))

def line (name : Bytes) : Bytes := (Text.ofNat k.pid).bytes ++ 32 :: 40 :: (name ++ 41 :: 32 :: k.fields)

/-- The process the line is of, with a command. -/
def statWith (cmd : Bytes) : IdStat where
  cmd := cmd
  ppid := atoi (chars k.ppid.bytes)
  pgid := atoi (chars k.pgid.bytes)
  ret := idStateOf (chars k.state.bytes)

end KernelStat

/-- The kernel's escaping of a command: `\n` and `\\`. -/
def escapeComm (name : Bytes) : Bytes :=
  name.flatMap fun b => if b = 10 then [92, 110] else if b = 92 then [92, 92] else [b]

/-- `status`: its first line is the command's. -/
def kernelStatus (name rest : Bytes) : Bytes := nameKey.bytes ++ 9 :: escapeComm name ++ 10 :: rest

theorem chars_bytes {t : Text} (h : ∀ c ∈ t, c.toNat < 0x80) : chars t.bytes = t := by
  induction t with
  | nil => rfl
  | cons c t ih =>
    have hc := h c mem_cons_self
    rw [Text.bytes, flatMap_cons, Utf8.encode_ascii hc, chars, map_append, map_cons, map_nil,
      Utf8.toNat_ofNat_small (by omega), Char.ofNat_toNat]
    exact congrArg (c :: ·) (ih fun d hd => h d (mem_cons_of_mem c hd))

theorem strrchr_of_not_mem {c : UInt8} {bs : Bytes} (h : c ∉ bs) : strrchr c bs = none := by
  induction bs with
  | nil => rfl
  | cons b bs ih =>
    have hb : b ≠ c := fun heq => h (heq ▸ mem_cons_self)
    rw [strrchr, ih fun hmem => h (mem_cons_of_mem b hmem)]
    exact if_neg hb

theorem strrchr_append {c : UInt8} {rest : Bytes} (h : c ∉ rest) (name : Bytes) :
    strrchr c (name ++ c :: rest) = some (name, rest) := by
  induction name with
  | nil =>
    rw [nil_append, strrchr, strrchr_of_not_mem h]
    exact if_pos rfl
  | cons b name ih =>
    rw [cons_append, strrchr, ih]

theorem digit_of_mem {n : Nat} {b : UInt8} (h : b ∈ (Text.ofNat n).bytes) : 0x30 ≤ b.toNat ∧ b.toNat ≤ 0x39 := by
  rcases mem_flatMap.mp h with ⟨c, hc, hb⟩
  have hdigit := Text.digit_range (Text.isDigit_of_mem_ofNat hc)
  rw [Utf8.encode_ascii (by omega), mem_singleton] at hb
  rw [hb, Utf8.toNat_ofNat_small (by omega)]
  exact hdigit

namespace KernelStat

variable (k : KernelStat)

theorem plain_of_mem_fields {b : UInt8} (h : b ∈ k.fields) : b ≠ 0 ∧ b ≠ 41 := by
  have hword : ∀ w : StatWord, b ∈ w.bytes → b ≠ 0 ∧ b ≠ 41 := by
    intro w hw
    have hplain := w.plain b hw
    exact ⟨hplain.1, hplain.2.2.2.2⟩
  have hblank : b = 32 → b ≠ 0 ∧ b ≠ 41 := by
    intro hb
    rw [hb]
    decide
  simp only [fields, mem_append, mem_cons] at h
  rcases h with h | h | h | h | h | h | h
  · exact hword _ h
  · exact hblank h
  · exact hword _ h
  · exact hblank h
  · exact hword _ h
  · exact hblank h
  · exact k.plain b h

theorem nul_not_mem_line {name : Bytes} (hname : 0 ∉ name) : 0 ∉ k.line name := by
  intro h
  simp only [line, mem_append, mem_cons] at h
  rcases h with h | h | h | h | h | h | h
  · have hdigit := digit_of_mem h
    simp at hdigit
  · cases h
  · cases h
  · exact hname h
  · cases h
  · cases h
  · exact (k.plain_of_mem_fields h).1 rfl

end KernelStat

theorem inField_of_mem_chars {w : StatWord} {c : Char} (h : c ∈ chars w.bytes) : InField [] c := by
  rcases mem_map.mp h with ⟨b, hb, hc⟩
  have hplain := w.plain b hb
  have hother : ∀ d : UInt8, b ≠ d → c ≠ Char.ofNat d.toNat := by
    intro d hd heq
    exact hd (Utf8.char_ofNat_byte_inj (hc.trans heq))
  exact ⟨hother 32 hplain.2.2.2.1, hother 9 hplain.2.1, hother 10 hplain.2.2.1, not_mem_nil⟩

theorem scanFields_statWord (w : StatWord) (rest : Bytes) :
    scanFields [] none (chars (w.bytes ++ 32 :: rest)) = chars w.bytes :: scanFields [] none (chars rest) := by
  have hne : chars w.bytes ≠ [] := by
    intro h
    exact w.ne (map_eq_nil_iff.mp h)
  rw [chars, map_append, ← chars, scanFields_append hne fun c => inField_of_mem_chars]
  rfl

theorem getFields_fields (k : KernelStat) :
    getFields (chars k.fields) [] = chars k.state.bytes :: chars k.ppid.bytes :: chars k.pgid.bytes ::
      scanFields [] none (chars k.more) := by
  have hnul : '\x00' ∉ chars k.fields := by
    intro hc
    rcases mem_map.mp hc with ⟨b, hb, heq⟩
    exact (k.plain_of_mem_fields hb).1 (Utf8.char_ofNat_byte_inj heq)
  rw [getFields_of_not_mem hnul, KernelStat.fields, scanFields_statWord, scanFields_statWord, scanFields_statWord]

theorem readIdFields_fields (cmd : Bytes) (k : KernelStat) :
    readIdFields cmd (32 :: k.fields) = some (k.statWith cmd) := by
  have hempty : ∀ w : StatWord, (chars w.bytes).isEmpty = false := by
    intro w
    simp [chars, w.ne]
  have hdrop : (32 :: k.fields).dropWhile (· == 32) = k.fields := by
    cases hstate : k.state.bytes with
    | nil => exact absurd hstate k.state.ne
    | cons b bs =>
      have hb := (k.state.plain b (hstate ▸ mem_cons_self)).2.2.2.1
      simp [KernelStat.fields, hstate, hb]
  have hne : k.fields.isEmpty = false := by simp [KernelStat.fields]
  unfold readIdFields
  simp only [hdrop, hne, getFields_fields, hempty]
  rfl

theorem readIdStat_line (k : KernelStat) {name : Bytes} (hname : 0 ∉ name) :
    readIdStat (k.line name) k.pid = some (k.statWith (name.map newlineToMarkByte)) := by
  have hcbf : (k.line name).takeWhile (· != 0) = k.line name := by
    rw [takeWhile_eq_self_iff]
    intro b hb
    rw [bne_iff_ne]
    intro h0
    exact k.nul_not_mem_line hname (h0 ▸ hb)
  have hfirst : (k.line name).takeWhile (fun b => b != 32 && b != 9) = (Text.ofNat k.pid).bytes := by
    have hdigits : ∀ b ∈ (Text.ofNat k.pid).bytes, (b != 32 && b != 9) = true := by
      intro b hb
      have hdigit := digit_of_mem hb
      have h32 : b ≠ 32 := fun h => by simp [h] at hdigit
      have h9 : b ≠ 9 := fun h => by simp [h] at hdigit
      simp [h32, h9]
    rw [KernelStat.line, takeWhile_append_of_pos hdigits]
    simp
  have hid : atoi (chars (Text.ofNat k.pid).bytes) = k.pid := by
    rw [chars_bytes, atoi_ofNat k.pid_lt]
    intro c hc
    have hdigit := Text.digit_range (Text.isDigit_of_mem_ofNat hc)
    omega
  have hrest : ((k.line name).drop ((Text.ofNat k.pid).bytes.length + 1)).dropWhile (· == 32) =
      40 :: (name ++ 41 :: 32 :: k.fields) := by
    rw [KernelStat.line, drop_length_add_append]
    rfl
  have hclose : 41 ∉ (32 : UInt8) :: k.fields := by
    intro h
    rcases mem_cons.mp h with h | h
    · cases h
    · exact (k.plain_of_mem_fields h).2 rfl
  have hempty : (k.line name).isEmpty = false := by simp [KernelStat.line]
  unfold readIdStat
  simp only [hcbf, hfirst, hid, hrest, hempty, strrchr_append hclose, readIdFields_fields]
  simp

theorem newline_not_mem_escapeComm (name : Bytes) : 10 ∉ escapeComm name := by
  intro h
  rcases mem_flatMap.mp h with ⟨b, _, hb⟩
  split at hb
  · simp at hb
  · split at hb
    · simp at hb
    · rename_i hnl _
      exact hnl (mem_singleton.mp hb).symm

theorem unescapePairs_escapeComm (name : Bytes) : unescapePairs 92 commByte (escapeComm name) = name := by
  induction name with
  | nil => rfl
  | cons b name ih =>
    rw [escapeComm, flatMap_cons, ← escapeComm]
    by_cases hnl : b = 10
    · rw [if_pos hnl, hnl]
      exact (unescapePairs_pair commByte_letter _).trans (congrArg _ ih)
    · by_cases hslash : b = 92
      · rw [if_neg hnl, if_pos hslash, hslash]
        exact (unescapePairs_pair commByte_slash _).trans (congrArg _ ih)
      · rw [if_neg hnl, if_neg hslash]
        exact (unescapePairs_cons_of_ne hslash _).trans (congrArg _ ih)

theorem rawUnescape_escapeComm (name : Bytes) : rawUnescape (escapeComm name) = name.map newlineToMarkByte := by
  rw [rawUnescape_eq, unescapePairs_escapeComm]

theorem decode_escapeComm (name : Bytes) :
    (Utf8.decode (escapeComm name)).isSome = (Utf8.decode (name.map newlineToMarkByte)).isSome := by
  have hkept := Utf8.decode_unescapePairs (by decide : (92 : UInt8).toNat < 0x80) (fun b x => commByte_ascii) (escapeComm name)
  rw [← hkept, unescapePairs_escapeComm, decode_newlineToMark]

theorem nameLines_kernelStatus (name : Bytes) {rest : Bytes} (hrest : nameLines rest = []) :
    nameLines (kernelStatus name rest) = [9 :: escapeComm name] := by
  have hline : (10 : UInt8) ∉ nameKey.bytes ++ 9 :: escapeComm name := by
    intro h
    rcases mem_append.mp h with h | h
    · exact absurd h (by decide)
    · rcases mem_cons.mp h with h | h
      · cases h
      · exact newline_not_mem_escapeComm name h
  have hkey : List.isPrefixOf? nameKey.bytes (nameKey.bytes ++ 9 :: escapeComm name) = some (9 :: escapeComm name) :=
    isPrefixOf?_eq_some_iff_append_eq.mpr rfl
  unfold nameLines at hrest ⊢
  rw [kernelStatus, rawLines_append, rawLines_of_not_mem hline, filterMap_append, hrest, filterMap_cons, hkey]
  rfl

theorem rawComm_eq {status v : Bytes} (h : nameLine status = some v) :
    rawComm status =
      if (Utf8.decode (afterTab 9 v)).isSome then none else some (rawUnescape (afterTab 9 v)) := by
  rw [rawComm, h]
  rfl

theorem decode_afterTab (v : Bytes) : (Utf8.decode (afterTab 9 v)).isSome = (Utf8.decode v).isSome := by
  unfold afterTab
  cases hv : List.isPrefixOf? [9] v with
  | none => rfl
  | some rest =>
    rw [isPrefixOf?_eq_some_iff_append_eq.mp hv |>.symm]
    exact (Utf8.decode_bytes_append ['\t'] rest).symm

/-- The command is the one the C takes from `stat`: its text where it is text, its bytes
where it is not. Bytes and text are read alike from any one `Name:` line. -/
theorem command_of_stat :
    (∀ (name rest : Bytes) (k : KernelStat), 0 ∉ name → nameLines rest = [] →
      ∃ r, readIdStat (k.line name) k.pid = some r ∧ r.cmd = name.map newlineToMarkByte ∧
        (parseStatus (Utf8.decodeLossy (kernelStatus name rest))).command = Utf8.decodeLossy r.cmd ∧
        rawComm (kernelStatus name rest) = if (Utf8.decode r.cmd).isSome then none else some r.cmd) ∧
    ∀ status v : Bytes, nameLines status = [v] → Utf8.decode (nameKey.bytes ++ v) = none →
      ∃ out, rawComm status = some out ∧ Utf8.decodeLossy out = (parseStatus (Utf8.decodeLossy status)).command := by
  constructor
  · intro name rest k hname hrest
    have hlines := command_parseStatus (nameLines_kernelStatus name hrest)
    have htab : afterTab 9 (9 :: escapeComm name) = escapeComm name := rfl
    apply Exists.intro (k.statWith (name.map newlineToMarkByte))
    constructor
    · exact readIdStat_line k hname
    · constructor
      · rfl
      · rw [hlines.2, rawComm_eq hlines.1, htab, rawUnescape_escapeComm, decode_escapeComm]
        exact ⟨rfl, rfl⟩
  · intro status v hv hbad
    have hlines := command_parseStatus hv
    have hraw : (Utf8.decode (afterTab 9 v)).isSome = false := by
      rw [decode_afterTab, ← Utf8.decode_bytes_append nameKey v, hbad]
      rfl
    apply Exists.intro (rawUnescape (afterTab 9 v))
    constructor
    · rw [rawComm_eq hlines.1, hraw]
      rfl
    · exact hlines.2.symm

def sleeper : KernelStat where
  pid := 12
  pid_lt := by decide
  state := ⟨[83], by simp, by simp⟩
  ppid := ⟨[49], by simp, by simp⟩
  pgid := ⟨[49, 50], by simp, by simp⟩
  more := [48, 10]
  plain := by simp

/-- A name of a parenthesis, a newline, what looks like an escape of one, and no text;
and a file with such a line alone. -/
theorem command_of_stat_sleeper :
    (∃ r, readIdStat (sleeper.line [41, 10, 92, 110, 0xFF]) 12 = some r ∧ r.cmd = [41, 63, 92, 110, 0xFF] ∧
      (parseStatus (Utf8.decodeLossy (kernelStatus [41, 10, 92, 110, 0xFF] []))).command = Utf8.decodeLossy r.cmd ∧
      rawComm (kernelStatus [41, 10, 92, 110, 0xFF] []) = if (Utf8.decode r.cmd).isSome then none else some r.cmd) ∧
    ∃ out, rawComm (nameKey.bytes ++ [92, 0xFF]) = some out ∧
      Utf8.decodeLossy out = (parseStatus (Utf8.decodeLossy (nameKey.bytes ++ [92, 0xFF]))).command := by
  constructor
  · exact command_of_stat.1 [41, 10, 92, 110, 0xFF] [] sleeper (by decide) (by decide)
  · exact command_of_stat.2 (nameKey.bytes ++ [92, 0xFF]) [92, 0xFF] (by decide) (by decide)

end Lsof.Original
