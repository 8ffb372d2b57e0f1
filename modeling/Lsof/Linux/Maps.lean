import Lsof.Basis.Firsts
import Lsof.Basis.Framing
import Lsof.Basis.Numerals
import Lsof.Linux.Devices

/-! # The mappings of a process

A line of a process's maps is its addresses, permissions, offset, device and
inode, and the path of what is mapped, which is the rest of the line. Of the
lines with a path the first of each device and inode is kept.
-/

namespace Lsof.Linux

open Lsof.Basis List
open Lsof.Basis.Text (hexAtLeast)

structure Mapping where
  device : Text
  dev : Nat
  inode : BitVec 64
  path : Text
  deleted : Bool
  /-- The bytes of a path that is not UTF-8. -/
  rawPath : Option Bytes
  range : Option (Nat × Nat)
  deriving DecidableEq, Repr

def isSpace (b : UInt8) : Bool := b == 0x20 || b == 0x09

def nextField (rest : Bytes) : Option (Bytes × Bytes) :=
  match rest.dropWhile isSpace with
  | [] => none
  | b :: tail => some ((b :: tail).takeWhile fun c => !isSpace c, (b :: tail).dropWhile fun c => !isSpace c)

/-- The texts before and after the first `sep`. -/
def splitOnce (sep : Char) (t : Text) : Option (Text × Text) :=
  if sep ∈ t then some (t.takeWhile (· != sep), (t.dropWhile (· != sep)).drop 1) else none

def parseDev (s : Text) : Option (Nat × Nat) := do
  let parts ← splitOnce ':' s
  let maj ← Text.parseHex 32 parts.1
  let min ← Text.parseHex 32 parts.2
  return (maj, min)

def parseRange (addr : Bytes) : Option (Nat × Nat) := do
  let text ← Utf8.decode addr
  let parts ← splitOnce '-' text
  let start ← Text.parseHex 64 parts.1
  let stop ← Text.parseHex 64 parts.2
  return (start, stop)

def deletedMark : Bytes := Text.bytes " (deleted)".toList

def stripDeleted (path : Bytes) : Bytes × Bool :=
  if deletedMark.isSuffixOf path && path.length != deletedMark.length then
    (path.take (path.length - deletedMark.length), true)
  else (path, false)

def mapLine (line : Bytes) : Option Mapping := do
  let addr ← nextField line
  let perms ← nextField addr.2
  let off ← nextField perms.2
  let dev ← nextField off.2
  let ino ← nextField dev.2
  let path := ino.2.dropWhile isSpace
  if path.isEmpty then none
  else
    let devNums ← (Utf8.decode dev.1).bind parseDev
    let inode ← (Utf8.decode ino.1).bind (Text.parseUnsigned 64)
    let devNum := makedev devNums.1 devNums.2
    if devNum = 0 ∧ inode = 0 then none
    else
      let stripped := stripDeleted path
      return {
        device := Text.ofNat devNums.1 ++ ',' :: Text.ofNat devNums.2
        dev := devNum
        inode
        path := Utf8.decodeLossy stripped.1
        deleted := stripped.2
        rawPath := if (Utf8.decode stripped.1).isSome then none else some stripped.1
        range := parseRange addr.1 }

structure MapsState where
  out : List Mapping := []
  seen : List (Nat × BitVec 64) := []

def MapsState.line (st : MapsState) (line : Bytes) : MapsState :=
  match mapLine line with
  | none => st
  | some m =>
    if st.seen.contains (m.dev, m.inode) then st
    else { out := st.out ++ [m], seen := st.seen ++ [(m.dev, m.inode)] }

def parseMapsBytes (data : Bytes) : List Mapping := ((rawLines data).foldl MapsState.line {}).out

/-- A field: not empty, and with no blank, tab or newline in it. -/
def IsField (bs : Bytes) : Prop := bs ≠ [] ∧ ∀ b ∈ bs, isSpace b = false ∧ b ≠ 0x0A

/-- One mapping of a process. What is named begins with no blank, and a newline
in it is escaped; of a deleted file the mark is part of it. -/
structure KernelMapping where
  start : Nat
  stop : Nat
  perms : Bytes
  offset : Nat
  major : Nat
  minor : Nat
  inode : BitVec 64
  path : Option Bytes
  start_lt : start < 2 ^ 64
  stop_lt : stop < 2 ^ 64
  major_lt : major < 2 ^ 32
  minor_lt : minor < 2 ^ 32
  perms_field : IsField perms
  path_named : ∀ p ∈ path, (∃ b rest, p = b :: rest ∧ isSpace b = false) ∧ (0x0A : UInt8) ∉ p

namespace KernelMapping

variable (m : KernelMapping)

def addresses : Text := hexAtLeast 8 m.start ++ '-' :: hexAtLeast 8 m.stop

def deviceText : Text := hexAtLeast 2 m.major ++ ':' :: hexAtLeast 2 m.minor

def fields : Bytes :=
  m.addresses.bytes ++ 0x20 :: m.perms ++ 0x20 :: (hexAtLeast 8 m.offset).bytes ++ 0x20 :: m.deviceText.bytes ++
    0x20 :: (Text.ofNat m.inode.toNat).bytes ++ [0x20]

def line (width : Nat) : Bytes :=
  match m.path with
  | none => m.fields
  | some p => m.fields ++ List.replicate (width - m.fields.length) 0x20 ++ 0x20 :: p

def counts : Bool := m.path.isSome && !(m.major == 0 && m.minor == 0 && m.inode == 0)

def file : Nat × Nat × BitVec 64 := (m.major, m.minor, m.inode)

def mapping : Mapping :=
  let stripped := stripDeleted (m.path.getD [])
  { device := Text.ofNat m.major ++ ',' :: Text.ofNat m.minor
    dev := makedev m.major m.minor
    inode := m.inode
    path := Utf8.decodeLossy stripped.1
    deleted := stripped.2
    rawPath := if (Utf8.decode stripped.1).isSome then none else some stripped.1
    range := some (m.start, m.stop) }

end KernelMapping

def printMaps (width : Nat) (ms : List KernelMapping) : Bytes := ms.flatMap fun m => m.line width ++ [0x0A]

def Mapping.bytes (m : Mapping) : Bytes := m.rawPath.getD m.path.bytes

theorem nextField_blank (rest : Bytes) : nextField (0x20 :: rest) = nextField rest := rfl

theorem nextField_field {field : Bytes} (h : IsField field) (rest : Bytes) :
    nextField (field ++ 0x20 :: rest) = some (field, 0x20 :: rest) := by
  have hpos : ∀ b ∈ field, (!isSpace b) = true := fun b hb => by simp [(h.2 b hb).1]
  cases field with
  | nil => exact absurd rfl h.1
  | cons b field =>
    have hb : isSpace b = false := (h.2 b mem_cons_self).1
    have hstart : (b :: field ++ 0x20 :: rest).dropWhile isSpace = b :: (field ++ 0x20 :: rest) := by
      simp [hb]
    have htake : (b :: field ++ 0x20 :: rest).takeWhile (fun c => !isSpace c) = b :: field := by
      rw [takeWhile_append_of_pos hpos]
      simp [isSpace]
    have hdrop : (b :: field ++ 0x20 :: rest).dropWhile (fun c => !isSpace c) = 0x20 :: rest := by
      rw [dropWhile_append_of_pos hpos]
      simp [isSpace]
    rw [nextField, hstart]
    exact congrArg some (Prod.ext htake hdrop)

theorem isField_bytes {t : Text} (hne : t ≠ []) (h : ∀ c ∈ t, 0x21 ≤ c.toNat ∧ c.toNat < 0x7F) : IsField t.bytes := by
  constructor
  · intro hnil
    have hback := Utf8.decode_bytes t
    rw [hnil] at hback
    exact hne (Option.some.inj hback).symm
  · intro b hb
    rcases mem_flatMap.mp hb with ⟨c, hc, hbc⟩
    have hrange := h c hc
    rw [Utf8.encode_ascii (by omega), mem_singleton] at hbc
    have hnat : b.toNat = c.toNat := by rw [hbc, Utf8.toNat_ofNat_small (by omega)]
    have hne : ∀ d : UInt8, d.toNat < 0x21 → b ≠ d := by
      intro d hd heq
      rw [heq] at hnat
      omega
    have hblank : b ≠ 0x20 := hne 0x20 (by decide)
    have htab : b ≠ 0x09 := hne 0x09 (by decide)
    exact ⟨by simp [isSpace, hblank, htab], hne 0x0A (by decide)⟩

theorem isField_hexAtLeast (w n : Nat) : IsField (hexAtLeast w n).bytes := by
  apply isField_bytes
  · exact Text.hexAtLeast_ne_nil w n
  · intro c hc
    have hrange := Text.hexDigit_range (Text.hexDigit_of_mem_hexAtLeast hc)
    omega

theorem isField_hexPair {sep : Char} (hsep : 0x21 ≤ sep.toNat ∧ sep.toNat < 0x7F) (w n m : Nat) :
    IsField (Text.bytes (hexAtLeast w n ++ sep :: hexAtLeast w m)) := by
  apply isField_bytes
  · simp
  · intro c hc
    rcases mem_append.mp hc with hleft | hright
    · have hrange := Text.hexDigit_range (Text.hexDigit_of_mem_hexAtLeast hleft)
      omega
    · rcases mem_cons.mp hright with heq | hlast
      · exact heq ▸ hsep
      · have hrange := Text.hexDigit_range (Text.hexDigit_of_mem_hexAtLeast hlast)
        omega

theorem splitOnce_hexPair {sep : Char} (hsep : Text.hexDigitValue sep = none) (w n m : Nat) :
    splitOnce sep (hexAtLeast w n ++ sep :: hexAtLeast w m) = some (hexAtLeast w n, hexAtLeast w m) := by
  have hout : ∀ c ∈ hexAtLeast w n, (c != sep) = true := by
    intro c hc
    apply bne_iff_ne.mpr
    intro heq
    have hsome := Text.hexDigit_of_mem_hexAtLeast hc
    rw [heq, hsep] at hsome
    exact absurd hsome nofun
  rw [splitOnce, if_pos (by simp), takeWhile_append_of_pos hout, dropWhile_append_of_pos hout]
  simp

theorem isField_ofNat (n : Nat) : IsField (Text.ofNat n).bytes := by
  apply isField_bytes
  · exact Text.ofNat_ne_nil n
  · intro c hc
    have hrange := Text.digit_range (Text.isDigit_of_mem_ofNat hc)
    omega

namespace KernelMapping

variable (m : KernelMapping)

theorem isField_addresses : IsField m.addresses.bytes := isField_hexPair (by decide) 8 m.start m.stop

theorem isField_deviceText : IsField m.deviceText.bytes := isField_hexPair (by decide) 2 m.major m.minor

theorem parseRange_addresses : parseRange m.addresses.bytes = some (m.start, m.stop) := by
  simp [parseRange, Utf8.decode_bytes, addresses, splitOnce_hexPair (by decide : Text.hexDigitValue '-' = none),
    Text.parseHex_hexAtLeast 8 m.start_lt, Text.parseHex_hexAtLeast 8 m.stop_lt]

theorem parseDev_deviceText : parseDev m.deviceText = some (m.major, m.minor) := by
  simp [parseDev, deviceText, splitOnce_hexPair (by decide : Text.hexDigitValue ':' = none),
    Text.parseHex_hexAtLeast 2 m.major_lt, Text.parseHex_hexAtLeast 2 m.minor_lt]

theorem mapLine_fields (rest : Bytes) :
    mapLine (m.fields ++ rest) =
      if (rest.dropWhile isSpace).isEmpty then none
      else if makedev m.major m.minor = 0 ∧ m.inode = 0 then none
      else some { m.mapping with
        path := Utf8.decodeLossy (stripDeleted (rest.dropWhile isSpace)).1
        deleted := (stripDeleted (rest.dropWhile isSpace)).2
        rawPath := if (Utf8.decode (stripDeleted (rest.dropWhile isSpace)).1).isSome then none
          else some (stripDeleted (rest.dropWhile isSpace)).1 } := by
  have hline : m.fields ++ rest = m.addresses.bytes ++ 0x20 :: (m.perms ++ 0x20 ::
      ((hexAtLeast 8 m.offset).bytes ++ 0x20 :: (m.deviceText.bytes ++ 0x20 ::
        ((Text.ofNat m.inode.toNat).bytes ++ 0x20 :: rest)))) := by
    simp [fields]
  have hdrop : (0x20 :: rest : Bytes).dropWhile isSpace = rest.dropWhile isSpace := rfl
  rw [hline, mapLine, nextField_field m.isField_addresses]
  simp only [Option.bind_eq_bind, Option.bind_some, nextField_blank, nextField_field m.perms_field,
    nextField_field (isField_hexAtLeast 8 m.offset), nextField_field m.isField_deviceText,
    nextField_field (isField_ofNat _), hdrop, Utf8.decode_bytes, parseDev_deviceText, Text.parseUnsigned_ofNat, parseRange_addresses]
  rfl

theorem dropWhile_padding {p : Bytes} (hp : ∃ b rest, p = b :: rest ∧ isSpace b = false) (k : Nat) :
    (List.replicate k (0x20 : UInt8) ++ 0x20 :: p).dropWhile isSpace = p := by
  have hblanks : ∀ b ∈ List.replicate k (0x20 : UInt8), isSpace b = true := by
    intro b hb
    rw [(mem_replicate.mp hb).2]
    rfl
  rcases hp with ⟨b, rest, rfl, hb⟩
  rw [dropWhile_append_of_pos hblanks, dropWhile_cons_of_pos rfl, dropWhile_cons_of_neg (by simp [hb])]

theorem mapLine_line (width : Nat) : mapLine (m.line width) = if m.counts then some m.mapping else none := by
  have hzero : makedev m.major m.minor = 0 ∧ m.inode = 0 ↔ (m.major == 0 && m.minor == 0 && m.inode == 0) = true := by
    rw [makedev_eq_zero m.major_lt m.minor_lt]
    simp
  unfold line
  cases hpath : m.path with
  | none =>
    have hline := mapLine_fields m []
    rw [append_nil] at hline
    have hcounts : m.counts = false := by simp [counts, hpath]
    rw [hcounts]
    exact hline
  | some p =>
    rcases (m.path_named p hpath).1 with ⟨b, rest, hp, hb⟩
    have hrest := dropWhile_padding ⟨b, rest, hp, hb⟩ (width - m.fields.length)
    have hsome : p.isEmpty = false := by rw [hp]; rfl
    have hmapping : { m.mapping with
        path := Utf8.decodeLossy (stripDeleted p).1
        deleted := (stripDeleted p).2
        rawPath := if (Utf8.decode (stripDeleted p).1).isSome then none else some (stripDeleted p).1 } =
        m.mapping := by
      simp [mapping, hpath]
    simp only [append_assoc, mapLine_fields, hrest, hsome, hmapping, hzero, counts, hpath, Option.isSome_some,
      Bool.true_and]
    cases (m.major == 0 && m.minor == 0 && m.inode == 0) with
    | true => rfl
    | false => rfl

theorem newline_not_mem_line (width : Nat) : (0x0A : UInt8) ∉ m.line width := by
  have hfield : ∀ {bs : Bytes}, IsField bs → (0x0A : UInt8) ∉ bs := fun h hmem => (h.2 _ hmem).2 rfl
  have hfields : (0x0A : UInt8) ∉ m.fields := by
    simp [fields, hfield m.isField_addresses, hfield m.perms_field, hfield (isField_hexAtLeast 8 m.offset),
      hfield m.isField_deviceText, hfield (isField_ofNat m.inode.toNat)]
  unfold line
  split
  next => exact hfields
  next p hpath => simp [hfields, (m.path_named p hpath).2]

end KernelMapping

theorem foldl_line (lines : List Bytes) :
    (lines.foldl MapsState.line {}).out = firsts (fun m => (m.dev, m.inode)) (lines.filterMap mapLine) ∧
      (lines.foldl MapsState.line {}).seen = (lines.foldl MapsState.line {}).out.map fun m => (m.dev, m.inode) := by
  induction lines using List.reverseRecOn with
  | nil => exact ⟨rfl, rfl⟩
  | append_singleton lines line ih =>
    rw [foldl_concat, MapsState.line, filterMap_append]
    cases hline : mapLine line with
    | none =>
      have hlast : [line].filterMap mapLine = [] := by simp [hline]
      rw [hlast, append_nil]
      exact ih
    | some m =>
      have hlast : [line].filterMap mapLine = [m] := by simp [hline]
      rw [hlast, firsts_concat, keepFirst, ← ih.1, ← ih.2]
      by_cases hseen : (m.dev, m.inode) ∈ (lines.foldl MapsState.line {}).seen
      · simp only [contains_iff_mem, if_pos hseen]
        exact ⟨trivial, ih.2⟩
      · simp only [contains_iff_mem, if_neg hseen, map_append, map_singleton, ← ih.2]
        exact ⟨trivial, trivial⟩

theorem parseMapsBytes_eq (data : Bytes) :
    parseMapsBytes data = firsts (fun m => (m.dev, m.inode)) ((rawLines data).filterMap mapLine) :=
  (foldl_line (rawLines data)).1

theorem filterMap_printMaps (width : Nat) (ms : List KernelMapping) :
    (rawLines (printMaps width ms)).filterMap mapLine = (ms.filter KernelMapping.counts).map KernelMapping.mapping := by
  have hlines : rawLines (printMaps width ms) = ms.map (KernelMapping.line · width) ++ [[]] := by
    have hclean : ∀ line ∈ ms.map (KernelMapping.line · width), (0x0A : UInt8) ∉ line := by
      intro line hline
      rcases mem_map.mp hline with ⟨m, -, hm⟩
      exact hm ▸ m.newline_not_mem_line width
    have hsplit := splitOn_flatMap hclean
    rw [flatMap_map] at hsplit
    exact hsplit
  have hread : mapLine ∘ (KernelMapping.line · width) =
      fun m => if m.counts then some m.mapping else none := funext fun m => m.mapLine_line width
  have hlast : [[]].filterMap mapLine = [] := rfl
  rw [hlines, filterMap_append, filterMap_map, hread, hlast, append_nil, ← filterMap_eq_map, filterMap_filter]
  rfl

theorem firsts_file (ms : List KernelMapping) :
    firsts (fun m : KernelMapping => (m.mapping.dev, m.mapping.inode)) ms = firsts KernelMapping.file ms := by
  apply firsts_congr
  intro m n
  simp only [KernelMapping.mapping, KernelMapping.file, Prod.mk.injEq,
    makedev_inj m.major_lt m.minor_lt n.major_lt n.minor_lt, and_assoc]

theorem bytes_mapping (m : KernelMapping) : m.mapping.bytes = (stripDeleted (m.path.getD [])).1 := by
  unfold Mapping.bytes KernelMapping.mapping
  dsimp only
  cases hdecode : Utf8.decode (stripDeleted (m.path.getD [])).1 with
  | none => rfl
  | some t =>
    have hbytes := Utf8.bytes_of_decode hdecode
    have hshown : Utf8.decodeLossy (stripDeleted (m.path.getD [])).1 = t := by
      rw [hbytes]
      exact Utf8.decodeLossy_bytes t
    rw [hshown]
    exact hbytes.symm

theorem stripDeleted_spec {path : Bytes} (hpath : path ≠ deletedMark) :
    if deletedMark <:+ path then
      (stripDeleted path).2 = true ∧ (stripDeleted path).1 ++ deletedMark = path
    else (stripDeleted path).2 = false ∧ (stripDeleted path).1 = path := by
  unfold stripDeleted
  by_cases hmark : deletedMark <:+ path
  · rcases hmark with ⟨name, rfl⟩
    have hname : name ≠ [] := fun h => hpath (by rw [h]; rfl)
    simp [hname]
  · have hnot : deletedMark.isSuffixOf path = false :=
      Bool.eq_false_iff.mpr (mt isSuffixOf_iff_suffix.mp hmark)
    simp [hmark, hnot]

/-- One entry for the first line of each file that has a path, in order; its path
is the line's, byte for byte, less one mark at its end, which alone says that
the file is deleted. -/
theorem parseMapsBytes_printMaps (width : Nat) (ms : List KernelMapping) :
    parseMapsBytes (printMaps width ms) =
        (firsts KernelMapping.file (ms.filter KernelMapping.counts)).map KernelMapping.mapping ∧
      ∀ m ∈ ms, ∀ path, m.path = some path →
        if deletedMark <:+ path then m.mapping.deleted = true ∧ m.mapping.bytes ++ deletedMark = path
        else m.mapping.deleted = false ∧ m.mapping.bytes = path := by
  constructor
  · rw [parseMapsBytes_eq, filterMap_printMaps, firsts_map, ← firsts_file]
    rfl
  · intro m _ path hpath
    have hne : path ≠ deletedMark := by
      intro heq
      rcases (m.path_named path hpath).1 with ⟨b, rest, hb, hspace⟩
      rw [heq] at hb
      have hhead : b = 0x20 := (List.cons.inj hb).1.symm
      rw [hhead] at hspace
      exact absurd hspace (by decide)
    have hspec := stripDeleted_spec hne
    have hbytes := bytes_mapping m
    rw [hpath, Option.getD_some] at hbytes
    have hdeleted : m.mapping.deleted = (stripDeleted path).2 := by
      simp [KernelMapping.mapping, hpath]
    rw [hbytes, hdeleted]
    exact hspec

end Lsof.Linux
