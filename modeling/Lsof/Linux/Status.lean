import Lsof.Basis.AsciiRewrite

/-! # A process's status file

The command, state, parent, owner and process group of a process, from the text of
its `status`. The kernel escapes the command there; where its bytes are not UTF-8 they
are read once more, as bytes.
-/

namespace Lsof.Linux

open Lsof.Basis List

def nameKey : Text := "Name:".toList

def commCode (c : Char) : Option Char :=
  if c = 'n' then some '\n' else if c = '\\' then some '\\' else none

def unescapeComm (s : Text) : Text := if s.contains '\\' then unescapePairs '\\' commCode s else s

/-- The value of a `Name:` line: the kernel puts one tab before it. -/
def afterTab {α : Type} [BEq α] (tab : α) (v : List α) : List α := (List.isPrefixOf? [tab] v).getD v

def newlineToMark (c : Char) : Char := if c = '\n' then '?' else c

/-- The command of a `Name:` line, from what follows the key. -/
def commandOf (v : Text) : Text := (unescapeComm (afterTab '\t' v)).map newlineToMark

structure Status where
  command : Text := []
  ppid : Option (BitVec 32) := none
  uid : Option (BitVec 32) := none
  pgid : Option (BitVec 32) := none
  state : Option Char := none
  deriving DecidableEq, Repr

def splitWhitespace (t : Text) : List Text := (t.splitOnP Text.isWhitespace).filter fun word => !word.isEmpty

def trim (t : Text) : Text := (Text.trimStart t).rdropWhile Text.isWhitespace

def Status.line (st : Status) (line : Text) : Status :=
  match nameKey.isPrefixOf? line with
  | some v => { st with command := commandOf v }
  | none =>
    match "State:".toList.isPrefixOf? line with
    | some v => { st with state := (Text.trimStart v).head? }
    | none =>
      match "PPid:".toList.isPrefixOf? line with
      | some v => { st with ppid := Text.parseUnsigned 32 (trim v) }
      | none =>
        match "Uid:".toList.isPrefixOf? line with
        | some v => { st with uid := (splitWhitespace v)[1]?.bind (Text.parseUnsigned 32) }
        | none =>
          match "NSpgid:".toList.isPrefixOf? line with
          | some v => { st with pgid := (splitWhitespace v).head?.bind (Text.parseUnsigned 32) }
          | none => st

def Status.complete (st : Status) : Bool :=
  !st.command.isEmpty && st.state.isSome && st.ppid.isSome && st.uid.isSome && st.pgid.isSome

def parseLines (st : Status) : List Text → Status
  | [] => st
  | line :: lines => if (st.line line).complete then st.line line else parseLines (st.line line) lines

def parseStatus (status : Text) : Status := parseLines {} (status.splitOnP (· == '\n'))

/-- The unescaping of `raw_comm`, which makes a newline `?` as it goes. -/
def rawUnescape : Bytes → Bytes
  | [] => []
  | [b] => [if b = 10 then 63 else b]
  | b :: c :: rest =>
    if b = 92 ∧ c = 110 then 63 :: rawUnescape rest
    else if b = 92 ∧ c = 92 then 92 :: rawUnescape rest
    else (if b = 10 then 63 else b) :: rawUnescape (c :: rest)

def nameLine (status : Bytes) : Option Bytes := (rawLines status).findSome? (List.isPrefixOf? nameKey.bytes)

/-- The command of a `status` that is not UTF-8; nothing where its line is text. -/
def rawComm (status : Bytes) : Option Bytes :=
  (nameLine status).bind fun line =>
    if (Utf8.decode (afterTab 9 line)).isSome then none else some (rawUnescape (afterTab 9 line))

def nameLines (status : Bytes) : List Bytes := (rawLines status).filterMap (List.isPrefixOf? nameKey.bytes)

/-- `commCode`, of bytes. -/
def commByte (b : UInt8) : Option UInt8 := if b = 110 then some 10 else if b = 92 then some 92 else none

def newlineToMarkByte (b : UInt8) : UInt8 := if b = 10 then 63 else b

theorem commByte_letter : commByte 110 = some 10 := rfl

theorem commByte_slash : commByte 92 = some 92 := rfl

theorem rawUnescape_eq (v : Bytes) : rawUnescape v = (unescapePairs 92 commByte v).map newlineToMarkByte := by
  induction v using rawUnescape.induct with
  | case1 => rfl
  | case2 b => rfl
  | case3 b c rest h ih =>
    rw [rawUnescape, if_pos h, h.1, h.2, unescapePairs_pair commByte_letter, ih]
    rfl
  | case4 b c rest hn h ih =>
    rw [rawUnescape, if_neg hn, if_pos h, h.1, h.2, unescapePairs_pair commByte_slash, ih]
    rfl
  | case5 b c rest hn hs ih =>
    rw [rawUnescape, if_neg hn, if_neg hs, ih]
    by_cases hb : b = 92
    · have hcode : commByte c = none := by
        have hletter : c ≠ 110 := fun hc => hn ⟨hb, hc⟩
        have hslash : c ≠ 92 := fun hc => hs ⟨hb, hc⟩
        simp [commByte, hletter, hslash]
      rw [hb, unescapePairs_alone hcode]
      rfl
    · rw [unescapePairs_cons_of_ne hb]
      rfl

theorem commByte_ascii {b x : UInt8} (h : commByte b = some x) : b.toNat < 0x80 ∧ x.toNat < 0x80 := by
  unfold commByte at h
  split at h
  · rename_i hb
    cases h
    rw [hb]
    decide
  · split at h
    · rename_i hb
      cases h
      rw [hb]
      decide
    · cases h

theorem unescapeComm_eq (s : Text) : unescapeComm s = unescapePairs '\\' commCode s := by
  unfold unescapeComm
  split
  · rfl
  · rename_i hno
    rw [unescapePairs_of_not_mem (by simpa using hno)]

theorem decodeLossy_unescape (v : Bytes) :
    Utf8.decodeLossy (unescapePairs 92 commByte v) = unescapeComm (Utf8.decodeLossy v) := by
  rw [unescapeComm_eq]
  apply Utf8.decodeLossy_unescapePairs (by decide) fun b x => commByte_ascii
  · intro a _
    by_cases hletter : a = 110
    · rw [hletter]
      rfl
    · by_cases hslash : a = 92
      · rw [hslash]
        rfl
      · have hn : Char.ofNat a.toNat ≠ 'n' := fun h => hletter (Utf8.char_ofNat_byte_inj h)
        have hs : Char.ofNat a.toNat ≠ '\\' := fun h => hslash (Utf8.char_ofNat_byte_inj h)
        simp [commCode, commByte, hletter, hslash, hn, hs]
  · intro c hc
    have hletter : c ≠ 'n' := fun h => absurd hc (by rw [h]; decide)
    have hslash : c ≠ '\\' := fun h => absurd hc (by rw [h]; decide)
    simp [commCode, hletter, hslash]

theorem newlineToMarkByte_high {b : UInt8} (h : 0x80 ≤ b.toNat) : newlineToMarkByte b = b := by
  have hb : b ≠ 10 := fun heq => absurd h (by rw [heq]; decide)
  simp [newlineToMarkByte, hb]

theorem decodeLossy_newlineToMark (v : Bytes) :
    Utf8.decodeLossy (v.map newlineToMarkByte) = (Utf8.decodeLossy v).map newlineToMark := by
  apply Utf8.decodeLossy_map
  · intro a ha
    by_cases hnl : a = 10
    · rw [hnl]
      decide
    · have hchar : Char.ofNat a.toNat ≠ '\n' := fun h => hnl (Utf8.char_ofNat_byte_inj h)
      simp [newlineToMarkByte, newlineToMark, hnl, hchar, ha]
  · intro b hb
    exact newlineToMarkByte_high hb
  · intro c hc
    have hnl : c ≠ '\n' := fun h => absurd hc (by rw [h]; decide)
    simp [newlineToMark, hnl]

theorem decode_newlineToMark (v : Bytes) :
    (Utf8.decode (v.map newlineToMarkByte)).isSome = (Utf8.decode v).isSome := by
  apply Utf8.decode_map
  · intro a ha
    by_cases hnl : a = 10
    · rw [hnl]
      decide
    · simpa [newlineToMarkByte, hnl] using ha
  · intro b hb
    exact newlineToMarkByte_high hb

theorem decodeLossy_afterTab (v : Bytes) : Utf8.decodeLossy (afterTab 9 v) = afterTab '\t' (Utf8.decodeLossy v) := by
  have hascii : ∀ c ∈ ['\t'], c.toNat < 0x80 := by
    intro c hc
    rw [mem_singleton.mp hc]
    decide
  have htab := Utf8.isPrefixOf?_decodeLossy hascii v
  have hbytes : Text.bytes ['\t'] = [9] := by decide
  rw [hbytes] at htab
  unfold afterTab
  rw [htab]
  cases List.isPrefixOf? [9] v with
  | none => rfl
  | some rest => rfl

theorem commandOf_decodeLossy (v : Bytes) :
    commandOf (Utf8.decodeLossy v) = Utf8.decodeLossy (rawUnescape (afterTab 9 v)) := by
  rw [commandOf, ← decodeLossy_afterTab, ← decodeLossy_unescape, ← decodeLossy_newlineToMark, rawUnescape_eq]

theorem command_line_of_some {line v : Text} (h : nameKey.isPrefixOf? line = some v) (st : Status) :
    (st.line line).command = commandOf v := by
  rw [Status.line, h]

theorem command_line_of_none {line : Text} (h : nameKey.isPrefixOf? line = none) (st : Status) :
    (st.line line).command = st.command := by
  rw [Status.line, h]
  dsimp only
  split
  · rfl
  · split
    · rfl
    · split
      · rfl
      · split
        · rfl
        · rfl

theorem command_parseLines_of_none {lines : List Text} (h : ∀ line ∈ lines, nameKey.isPrefixOf? line = none)
    (st : Status) : (parseLines st lines).command = st.command := by
  induction lines generalizing st with
  | nil => rfl
  | cons line lines ih =>
    have hline := command_line_of_none (h line mem_cons_self) st
    rw [parseLines]
    split
    · exact hline
    · rw [ih (fun l hl => h l (mem_cons_of_mem line hl)), hline]

theorem command_parseLines {before after : List Text} {line v : Text}
    (hbefore : ∀ l ∈ before, nameKey.isPrefixOf? l = none) (hline : nameKey.isPrefixOf? line = some v)
    (hafter : ∀ l ∈ after, nameKey.isPrefixOf? l = none) {st : Status} (hst : st.command = []) :
    (parseLines st (before ++ line :: after)).command = commandOf v := by
  induction before generalizing st with
  | nil =>
    rw [nil_append, parseLines]
    split
    · exact command_line_of_some hline st
    · rw [command_parseLines_of_none hafter, command_line_of_some hline]
  | cons l before ih =>
    have hl := command_line_of_none (hbefore l mem_cons_self) st
    rw [hst] at hl
    have hgoes : (st.line l).complete = false := by simp [Status.complete, hl]
    rw [cons_append, parseLines, hgoes]
    exact ih (fun m hm => hbefore m (mem_cons_of_mem l hm)) hl

theorem isPrefixOf?_nameKey (line : Bytes) :
    nameKey.isPrefixOf? (Utf8.decodeLossy line) = (List.isPrefixOf? nameKey.bytes line).map Utf8.decodeLossy := by
  have hascii : nameKey.all (fun c => decide (c.toNat < 0x80)) = true := by decide
  exact Utf8.isPrefixOf?_decodeLossy (fun c hc => of_decide_eq_true (all_eq_true.mp hascii c hc)) line

theorem command_parseStatus {status v : Bytes} (h : nameLines status = [v]) :
    nameLine status = some v ∧
      (parseStatus (Utf8.decodeLossy status)).command = Utf8.decodeLossy (rawUnescape (afterTab 9 v)) := by
  rcases filterMap_eq_cons_iff.mp h with ⟨before, line, after, hlines, hbefore, hline, hafter⟩
  rw [filterMap_eq_nil_iff] at hafter
  constructor
  · rw [nameLine, hlines, findSome?_append, findSome?_eq_none_iff.mpr hbefore, findSome?_cons, hline]
    rfl
  · rw [parseStatus, Utf8.splitOnP_decodeLossy, hlines, map_append, map_cons, ← commandOf_decodeLossy]
    apply command_parseLines
    · intro l hl
      rcases mem_map.mp hl with ⟨bs, hbs, hread⟩
      rw [← hread, isPrefixOf?_nameKey, hbefore bs hbs]
      rfl
    · rw [isPrefixOf?_nameKey, hline]
      rfl
    · intro l hl
      rcases mem_map.mp hl with ⟨bs, hbs, hread⟩
      rw [← hread, isPrefixOf?_nameKey, hafter bs hbs]
      rfl
    · rfl

end Lsof.Linux
