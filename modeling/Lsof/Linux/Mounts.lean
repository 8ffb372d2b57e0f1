import Lsof.Basis.Framing
import Lsof.Basis.Lines

/-! # The kernel's mount table

Each line of the table is a mount: what is mounted, where, and its type, one
blank after each. The kernel writes a blank or a newline within a field as a
backslash and three octal digits. The first two fields are read back to the
bytes they stand for; the third is kept as it is written.
-/

namespace Lsof.Linux

open Lsof.Basis List

def blank : UInt8 := 0x20

def newline : UInt8 := 0x0A

def backslash : UInt8 := 0x5C

structure MountLine where
  source : Bytes
  dir : Bytes
  fstype : Bytes
  deriving DecidableEq, Repr

def isOctal (b : UInt8) : Bool := 0x30 ≤ b && b ≤ 0x37

/-- Three octal digits, of which a byte holds the low eight bits. -/
def octalValue (d₀ d₁ d₂ : UInt8) : UInt8 :=
  UInt8.ofNat (((d₀ - 0x30).toNat * 64 + (d₁ - 0x30).toNat * 8 + (d₂ - 0x30).toNat) &&& 0xFF)

def unescapeLoop : Bytes → Bytes
  | b :: d₀ :: d₁ :: d₂ :: rest =>
    if b == backslash && (isOctal d₀ && isOctal d₁ && isOctal d₂) then
      octalValue d₀ d₁ d₂ :: unescapeLoop rest
    else b :: unescapeLoop (d₀ :: d₁ :: d₂ :: rest)
  | b :: rest => b :: unescapeLoop rest
  | [] => []

def unescapeOctal (b : Bytes) : Bytes := if b.contains backslash then unescapeLoop b else b

def mountLine (line : Bytes) : Option MountLine :=
  match line.splitOn blank with
  | source :: dir :: fstype :: _ =>
    if source.isEmpty || dir.isEmpty || fstype.isEmpty then none
    else some { source := unescapeOctal source, dir := unescapeOctal dir, fstype }
  | _ => none

def parseMounts (text : Bytes) : List MountLine := (rawLines text).filterMap mountLine

/-- The bytes of a field that are escaped. -/
structure Escaping where
  set : List UInt8
  blank : blank ∈ set
  newline : newline ∈ set
  backslash : backslash ∈ set

/-- How a mount's source is escaped: blank, tab, newline, backslash and hash. -/
def Escaping.mangle : Escaping where
  set := [0x20, 0x09, 0x0A, 0x5C, 0x23]
  blank := by decide
  newline := by decide
  backslash := by decide

def octalEscape (b : UInt8) : Bytes :=
  [backslash, UInt8.ofNat (b.toNat / 64 + 48), UInt8.ofNat (b.toNat / 8 % 8 + 48), UInt8.ofNat (b.toNat % 8 + 48)]

def Escaping.byte (esc : Escaping) (b : UInt8) : Bytes := if b ∈ esc.set then octalEscape b else [b]

def Escaping.escape (esc : Escaping) (bs : Bytes) : Bytes := bs.flatMap esc.byte

/-- A mount the kernel lists. Its type is a word, escaped already where a
subtype in it needs it; its options are on the same line. -/
structure KernelMount where
  source : Bytes
  dir : Bytes
  fstype : Bytes
  options : Bytes
  typed : fstype ≠ []
  word : blank ∉ fstype ∧ newline ∉ fstype
  oneLine : newline ∉ options

def lastFields : Bytes := Text.bytes " 0 0".toList

def KernelMount.line (esc : Escaping) (m : KernelMount) : Bytes :=
  Escaping.mangle.escape m.source ++ blank :: esc.escape m.dir ++ blank :: m.fstype ++ blank :: m.options ++
    lastFields

def printMounts (esc : Escaping) (ms : List KernelMount) : Bytes := ms.flatMap fun m => m.line esc ++ [newline]

def KernelMount.read (m : KernelMount) : Option MountLine :=
  if m.source.isEmpty || m.dir.isEmpty then none
  else some { source := m.source, dir := m.dir, fstype := m.fstype }

theorem unescapeLoop_of_ne {b : UInt8} (hb : b ≠ backslash) (rest : Bytes) :
    unescapeLoop (b :: rest) = b :: unescapeLoop rest := by
  have hnot : (b == backslash) = false := beq_eq_false_iff_ne.mpr hb
  match rest with
  | [] => rfl
  | [_] => rfl
  | [_, _] => rfl
  | d₀ :: d₁ :: d₂ :: rest => simp [unescapeLoop, hnot]

theorem unescapeLoop_of_not_mem {bs : Bytes} (h : backslash ∉ bs) : unescapeLoop bs = bs := by
  induction bs with
  | nil => rfl
  | cons b bs ih =>
    have hb : b ≠ backslash := fun heq => h (heq ▸ mem_cons_self)
    have hbs : backslash ∉ bs := fun hmem => h (mem_cons_of_mem b hmem)
    rw [unescapeLoop_of_ne hb, ih hbs]

theorem unescapeOctal_eq (bs : Bytes) : unescapeOctal bs = unescapeLoop bs := by
  unfold unescapeOctal
  split
  next => rfl
  next h =>
    have hnot : backslash ∉ bs := by simpa using h
    exact (unescapeLoop_of_not_mem hnot).symm

theorem isOctal_digit {n : Nat} (hn : n < 8) : isOctal (UInt8.ofNat (n + 48)) = true := by
  have hall : ∀ k < 8, isOctal (UInt8.ofNat (k + 48)) = true := by decide
  exact hall n hn

theorem octalDigit_sub {n : Nat} (hn : n < 8) : (UInt8.ofNat (n + 48) - 0x30).toNat = n := by
  have hall : ∀ k < 8, (UInt8.ofNat (k + 48) - 0x30).toNat = k := by decide
  exact hall n hn

theorem unescapeLoop_octalEscape (b : UInt8) (rest : Bytes) :
    unescapeLoop (octalEscape b ++ rest) = b :: unescapeLoop rest := by
  have hb : b.toNat < 256 := b.toNat_lt
  have hvalue : octalValue (UInt8.ofNat (b.toNat / 64 + 48)) (UInt8.ofNat (b.toNat / 8 % 8 + 48))
      (UInt8.ofNat (b.toNat % 8 + 48)) = b := by
    have hsum : b.toNat / 64 * 64 + b.toNat / 8 % 8 * 8 + b.toNat % 8 = b.toNat := by omega
    have hmask : b.toNat &&& 0xFF = b.toNat := by
      rw [show (0xFF : Nat) = 2 ^ 8 - 1 from rfl, Nat.and_two_pow_sub_one_eq_mod]
      exact Nat.mod_eq_of_lt hb
    rw [octalValue, octalDigit_sub (by omega), octalDigit_sub (by omega), octalDigit_sub (by omega), hsum, hmask,
      UInt8.ofNat_toNat]
  show unescapeLoop (backslash :: _ :: _ :: _ :: rest) = _
  rw [unescapeLoop, isOctal_digit (by omega), isOctal_digit (by omega), isOctal_digit (by omega), hvalue]
  rfl

theorem unescapeOctal_escape (esc : Escaping) (bs : Bytes) : unescapeOctal (esc.escape bs) = bs := by
  rw [unescapeOctal_eq]
  induction bs with
  | nil => rfl
  | cons b bs ih =>
    rw [Escaping.escape, flatMap_cons, Escaping.byte]
    split
    next =>
      rw [unescapeLoop_octalEscape]
      exact congrArg (b :: ·) ih
    next hb =>
      have hne : b ≠ backslash := fun heq => hb (heq ▸ esc.backslash)
      rw [singleton_append, unescapeLoop_of_ne hne]
      exact congrArg (b :: ·) ih

theorem mem_octalEscape {b c : UInt8} (h : c ∈ octalEscape b) : c = backslash ∨ isOctal c = true := by
  have hb : b.toNat < 256 := b.toNat_lt
  simp only [octalEscape, mem_cons, not_mem_nil, or_false] at h
  rcases h with hc | hc | hc | hc
  · exact .inl hc
  · exact .inr (hc ▸ isOctal_digit (by omega))
  · exact .inr (hc ▸ isOctal_digit (by omega))
  · exact .inr (hc ▸ isOctal_digit (by omega))

theorem not_mem_escape {esc : Escaping} {c : UInt8} (hc : c ∈ esc.set) (hslash : c ≠ backslash)
    (hdigit : isOctal c = false) (bs : Bytes) : c ∉ esc.escape bs := by
  intro hmem
  rcases mem_flatMap.mp hmem with ⟨b, -, hb⟩
  unfold Escaping.byte at hb
  split at hb
  next =>
    rcases mem_octalEscape hb with heq | hoctal
    · exact hslash heq
    · rw [hdigit] at hoctal
      exact absurd hoctal nofun
  next hout => exact hout (mem_singleton.mp hb ▸ hc)

theorem blank_not_mem_escape (esc : Escaping) (bs : Bytes) : blank ∉ esc.escape bs :=
  not_mem_escape esc.blank (by decide) (by decide) bs

theorem newline_not_mem_escape (esc : Escaping) (bs : Bytes) : newline ∉ esc.escape bs :=
  not_mem_escape esc.newline (by decide) (by decide) bs

theorem escape_isEmpty (esc : Escaping) (bs : Bytes) : (esc.escape bs).isEmpty = bs.isEmpty := by
  cases bs with
  | nil => rfl
  | cons b bs =>
    rw [Escaping.escape, flatMap_cons, Escaping.byte]
    split
    all_goals rfl

theorem newline_not_mem_line (esc : Escaping) (m : KernelMount) : newline ∉ m.line esc := by
  have hblank : newline ≠ blank := by decide
  have hlast : newline ∉ lastFields := by decide
  simp [KernelMount.line, newline_not_mem_escape, hblank, m.word.2, m.oneLine, hlast]

theorem mountLine_line (esc : Escaping) (m : KernelMount) : mountLine (m.line esc) = m.read := by
  have hline : m.line esc = Escaping.mangle.escape m.source ++ blank :: (esc.escape m.dir ++ blank ::
      (m.fstype ++ blank :: (m.options ++ lastFields))) := by
    simp [KernelMount.line]
  have htyped : m.fstype.isEmpty = false := by simpa using m.typed
  rw [mountLine, hline, splitOn_token (blank_not_mem_escape _ _), splitOn_token (blank_not_mem_escape _ _),
    splitOn_token m.word.1]
  simp only [escape_isEmpty, unescapeOctal_escape, htyped, Bool.or_false, KernelMount.read]

theorem parseMounts_printMounts (esc : Escaping) (ms : List KernelMount) :
    parseMounts (printMounts esc ms) = ms.filterMap KernelMount.read := by
  have hlines : rawLines (printMounts esc ms) = ms.map (KernelMount.line esc) ++ [[]] := by
    have hclean : ∀ line ∈ ms.map (KernelMount.line esc), newline ∉ line := by
      intro line hline
      rcases mem_map.mp hline with ⟨m, -, hm⟩
      exact hm ▸ newline_not_mem_line esc m
    have hsplit := splitOn_flatMap hclean
    rw [flatMap_map] at hsplit
    exact hsplit
  rw [parseMounts, hlines, filterMap_append, filterMap_map]
  have hread : mountLine ∘ KernelMount.line esc = KernelMount.read := funext (mountLine_line esc)
  have hlast : [[]].filterMap mountLine = [] := rfl
  rw [hread, hlast, append_nil]

/-- The mounts whose source and directory are not empty come back in order, and
every byte string comes back from its escaped form. -/
theorem parseMounts_round_trip (esc : Escaping) :
    (∀ ms : List KernelMount, parseMounts (printMounts esc ms) =
      (ms.filter fun m => !m.source.isEmpty && !m.dir.isEmpty).map fun m =>
        { source := m.source, dir := m.dir, fstype := m.fstype }) ∧
      ∀ bs : Bytes, unescapeOctal (esc.escape bs) = bs := by
  constructor
  · intro ms
    have hread : KernelMount.read = fun m => if !m.source.isEmpty && !m.dir.isEmpty then
        some { source := m.source, dir := m.dir, fstype := m.fstype } else none := by
      funext m
      rw [KernelMount.read]
      cases m.source.isEmpty <;> cases m.dir.isEmpty <;> rfl
    rw [parseMounts_printMounts, hread, ← filterMap_eq_map, filterMap_filter]
    rfl
  · exact unescapeOctal_escape esc

def unnamedSource : KernelMount where
  source := []
  dir := Text.bytes "/mnt".toList
  fstype := Text.bytes "tmpfs".toList
  options := Text.bytes "rw".toList
  typed := by decide
  word := by decide
  oneLine := by decide

theorem parseMounts_drops_unnamed :
    printMounts .mangle [unnamedSource] = Text.bytes " /mnt tmpfs rw 0 0\n".toList ∧
      parseMounts (printMounts .mangle [unnamedSource]) = [] := by
  decide

end Lsof.Linux
