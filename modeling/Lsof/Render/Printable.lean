import Lsof.Render.Fields
import Lsof.Render.Table

/-! # What reaches a terminal

No printed form of a character is one that a terminal acts on, whatever the
character and the mode; what COMMAND shows is visible ASCII. Every other cell is
a number or one of a few fixed texts, so a row can hold a control only through
its TYPE, DEVICE or NODE.
-/

namespace Lsof.Core

open Lsof.Basis List

/-- Text with nothing in it a terminal acts on. -/
def Printable (t : Text) : Prop := ∀ c ∈ t, isUnprintableUnicode c = false

def Graphic (t : Text) : Prop := ∀ c ∈ t, 0x21 ≤ c.toNat ∧ c.toNat < 0x7F

instance (t : Text) : Decidable (Printable t) := List.decidableBAll _ t

instance (t : Text) : Decidable (Graphic t) := List.decidableBAll _ t

theorem printable_nil : Printable [] := fun _ hc => absurd hc not_mem_nil

theorem printable_cons {c : Char} {t : Text} :
    Printable (c :: t) ↔ isUnprintableUnicode c = false ∧ Printable t := forall_mem_cons

theorem printable_append {s t : Text} : Printable (s ++ t) ↔ Printable s ∧ Printable t :=
  forall_mem_append

theorem printable_flatMap {α : Type} {l : List α} {f : α → Text} (h : ∀ a ∈ l, Printable (f a)) :
    Printable (l.flatMap f) := by
  intro c hc
  obtain ⟨a, ha, hca⟩ := mem_flatMap.mp hc
  exact h a ha c hca

theorem printable_of_range {c : Char} (hlo : 0x20 ≤ c.toNat) (hhi : c.toNat < 0x7F) :
    isUnprintableUnicode c = false := by
  simp only [isUnprintableUnicode, isControl, Bool.or_eq_false_iff, Bool.and_eq_false_iff,
    decide_eq_false_iff_not, beq_eq_false_iff_ne]
  omega

theorem printable_of_plain {t : Text} (h : t.Plain) : Printable t :=
  fun c hc => printable_of_range (h c hc).1 (h c hc).2

theorem Graphic.printable {t : Text} (h : Graphic t) : Printable t := fun c hc =>
  have hrange := h c hc
  printable_of_range (by omega) hrange.2

theorem graphic_flatMap {α : Type} {l : List α} {f : α → Text} (h : ∀ a ∈ l, Graphic (f a)) :
    Graphic (l.flatMap f) := by
  intro c hc
  obtain ⟨a, ha, hca⟩ := mem_flatMap.mp hc
  exact h a ha c hca

theorem char_eq_of_toNat {c d : Char} (h : c.toNat = d.toNat) : c = d := by
  rw [← Char.ofNat_toNat c, h, Char.ofNat_toNat]

theorem graphic_hexDigit (n : Nat) : 0x21 ≤ (hexDigit n).toNat ∧ (hexDigit n).toNat < 0x7F := by
  by_cases hn : n < 16
  · have hall : ∀ n ∈ List.range 16, 0x21 ≤ (hexDigit n).toNat ∧ (hexDigit n).toNat < 0x7F := by
      decide
    exact hall n (mem_range.mpr hn)
  · have hlen : "0123456789abcdef".toList.length ≤ n := by
      have hsixteen : "0123456789abcdef".toList.length = 16 := by decide
      omega
    have hzero : hexDigit n = '0' := by
      rw [hexDigit, getD_eq_getElem?_getD, getElem?_eq_none hlen]
      rfl
    rw [hzero]
    decide

theorem graphic_pushHex (b : UInt8) : Graphic (pushHex b) := by
  simp only [pushHex, Graphic, forall_mem_cons, not_mem_nil, false_implies, implies_true, and_true]
  exact ⟨by decide, by decide, graphic_hexDigit _, graphic_hexDigit _⟩

namespace Escaper

variable (esc : Escaper) (mode : EscapeMode)

theorem push_graphic {c : Char} (h : esc.escapedWidth mode c ≠ 1) : Graphic (esc.push mode c) := by
  unfold push
  rw [if_neg h]
  split_ifs with hb hf hn hr ht hbs hctl
  · decide
  · decide
  · decide
  · decide
  · decide
  · decide
  · have hcaret : (Char.ofNat (c.toNat + 0x40)).toNat = c.toNat + 0x40 :=
      Utf8.toNat_ofNat_of_valid (.inl (by omega))
    simp only [Graphic, forall_mem_cons, not_mem_nil, false_implies, implies_true, and_true, hcaret]
    exact ⟨by decide, by omega, by omega⟩
  · exact graphic_flatMap fun b _ => graphic_pushHex b

theorem pass_cases {c : Char} (h : esc.escapedWidth mode c = 1) :
    isUnprintableUnicode c = false ∧ (mode = .command → 0x21 ≤ c.toNat ∧ c.toNat < 0x7F) := by
  have hsize := Char.utf8Size_pos c
  unfold escapedWidth at h
  split_ifs at h with hb hs hctl hascii hex
  · omega
  · omega
  · omega
  · refine ⟨printable_of_range (by omega) (by omega), fun hmode => ?_⟩
    have hblank : c.toNat ≠ 0x20 := fun hc => hs ⟨char_eq_of_toNat hc, by rw [hmode]; decide⟩
    omega
  · omega
  · simp only [not_or, Bool.not_eq_true] at hex
    exact ⟨hex.2.2, fun hmode => absurd hmode hex.2.1⟩

theorem printable_push (c : Char) : Printable (esc.push mode c) := by
  by_cases h : esc.escapedWidth mode c = 1
  · rw [push, if_pos h]
    exact printable_cons.mpr ⟨(esc.pass_cases mode h).1, printable_nil⟩
  · exact (esc.push_graphic mode h).printable

theorem graphic_push_command (c : Char) : Graphic (esc.push .command c) := by
  by_cases h : esc.escapedWidth .command c = 1
  · rw [push, if_pos h]
    intro d hd
    rw [mem_singleton.mp hd]
    exact (esc.pass_cases .command h).2 rfl
  · exact esc.push_graphic .command h

theorem printable_text (s : Text) : Printable (esc.text s) := by
  rw [text, escape_eq_flatMap]
  exact printable_flatMap fun c _ => esc.printable_push .text c

theorem printable_bytes (b : Bytes) : Printable (esc.bytes b) := by
  unfold bytes
  split
  next s _ => exact esc.printable_text s
  next =>
    refine printable_flatMap fun p _ => ?_
    cases p with
    | char c => exact esc.printable_push .text c
    | invalid bad => exact printable_flatMap fun byte _ => (graphic_pushHex byte).printable

theorem graphic_cutTo {width : Nat} {forms : List (Nat × Text)} (h : ∀ form ∈ forms, Graphic form.2)
    (used : Nat) : Graphic (cutTo width used forms) := by
  induction forms generalizing used with
  | nil => exact fun c hc => absurd hc not_mem_nil
  | cons form forms ih =>
    obtain ⟨hform, hforms⟩ := forall_mem_cons.mp h
    rw [cutTo]
    split
    · exact fun c hc => absurd hc not_mem_nil
    · exact forall_mem_append.mpr ⟨hform, ih hforms _⟩

theorem graphic_commandTruncated (s : Text) (width : Nat) : Graphic (esc.commandTruncated s width) := by
  refine graphic_cutTo (fun form hform => ?_) 0
  obtain ⟨c, -, rfl⟩ := mem_map.mp hform
  exact esc.graphic_push_command c

theorem graphic_commandBytesTruncated (b : Bytes) (width : Nat) : Graphic (esc.commandBytesTruncated b width) := by
  unfold commandBytesTruncated
  split
  next s _ => exact esc.graphic_commandTruncated s width
  next =>
    refine graphic_cutTo (fun form hform => ?_) 0
    obtain ⟨p, -, hp⟩ := mem_flatMap.mp hform
    cases p with
    | char c =>
      rw [mem_singleton.mp hp]
      exact esc.graphic_push_command c
    | invalid bad =>
      obtain ⟨byte, -, rfl⟩ := mem_map.mp hp
      exact graphic_pushHex byte

end Escaper

theorem printable_ofNat (n : Nat) : Printable (Text.ofNat n) := printable_of_plain (Text.plain_ofNat n)

theorem plain_toDigits (n : Nat) : Text.Plain (Nat.toDigits 16 n) := by
  have hdigit : ∀ d ∈ List.range 16, 0x20 ≤ (Nat.digitChar d).toNat ∧ (Nat.digitChar d).toNat < 0x7F := by
    decide
  induction n using Nat.strong_induction_on with
  | _ n ih =>
    by_cases hn : n < 16
    · rw [Nat.toDigits_of_lt_base hn]
      intro c hc
      rw [mem_singleton.mp hc]
      exact hdigit n (mem_range.mpr hn)
    · rw [Nat.toDigits_of_base_le (by decide) (by omega)]
      refine Text.plain_append.mpr ⟨ih (n / 16) (by omega), ?_⟩
      intro c hc
      rw [mem_singleton.mp hc]
      exact hdigit _ (mem_range.mpr (Nat.mod_lt _ (by decide)))

theorem printable_hexText (n : Nat) : Printable (hexText n) :=
  printable_append.mpr ⟨by decide, printable_of_plain (plain_toDigits n)⟩

theorem printable_signedText (n : BitVec 32) : Printable (signedText n) := by
  unfold signedText
  split
  · exact printable_cons.mpr ⟨by decide, printable_ofNat _⟩
  · exact printable_ofNat _

theorem FdType.printable_code (fd : FdType) : Printable fd.code := by
  cases fd with
  | handle n => exact printable_ofNat n
  | _ => decide

theorem FdType.printable_columnCode (host : Host) (fd : FdType) : Printable (fd.columnCode host) := by
  have hzeros : ∀ k, Printable (List.replicate k '0') := fun k c hc => by
    rw [(mem_replicate.mp hc).2]
    decide
  unfold columnCode
  split
  next n =>
    split
    · exact printable_cons.mpr ⟨by decide, printable_append.mpr ⟨hzeros _, printable_ofNat _⟩⟩
    · exact printable_code (.handle n)
  next => exact printable_code _

theorem SockState.printable_asStr (s : SockState) : Printable s.asStr := by
  cases s with
  | tcp t => cases t <;> decide
  | unix u => cases u <;> decide

theorem OpenFile.printable_printedName (esc : Escaper) (f : OpenFile) : Printable (f.printedName esc) := by
  unfold printedName
  split
  next => exact esc.printable_text f.name
  next text tail _ =>
    split
    next => exact esc.printable_text f.name
    next htail =>
      refine printable_append.mpr ⟨esc.printable_text text, fun c hc => ?_⟩
      rw [any_eq_true] at htail
      exact Bool.eq_false_iff.mpr fun h => htail ⟨c, hc, h⟩

end Lsof.Core

namespace Lsof.Render

open Lsof.Basis Lsof.Core List

theorem printable_offsetText (offset : Nat) (digits : BitVec 32) : Printable (offsetText offset digits) := by
  unfold offsetText
  dsimp only
  split_ifs
  · decide
  · exact printable_hexText offset
  · exact printable_append.mpr ⟨by decide, printable_ofNat offset⟩

theorem printable_joinPart {out part : Text} (hout : Printable out) (hpart : Printable part) :
    Printable (joinPart out part) := by
  unfold joinPart
  split
  · exact printable_append.mpr ⟨printable_nil, hpart⟩
  · exact printable_append.mpr ⟨printable_append.mpr ⟨hout, by decide⟩, hpart⟩

theorem printable_nameFlags {entries : List (BitVec 32 × Text)} (h : ∀ entry ∈ entries, Printable entry.2)
    {acc : Text × BitVec 32} (hacc : Printable acc.1) : Printable (entries.foldl nameFlag acc).1 := by
  induction entries generalizing acc with
  | nil => exact hacc
  | cons entry entries ih =>
    obtain ⟨hentry, hrest⟩ := forall_mem_cons.mp h
    refine ih hrest ?_
    unfold nameFlag
    split
    · exact printable_joinPart hacc hentry
    · exact hacc

theorem printable_flags (arch : Arch) (flags : BitVec 32) (style : FileFlags) :
    Printable (FileFlags.text arch flags style) := by
  have hnames : ∀ entry ∈ flagNames arch, Printable entry.2 := by
    cases arch <;> decide
  have htail : ∀ (hex : Bool) (named : Text × BitVec 32), Printable named.1 →
      Printable (if hex then (if named.2 ≠ 0 ∨ hex then joinPart named.1 (hexText named.2.toNat)
        else named.1) ++ ";0x0".toList else if named.2 ≠ 0 ∨ hex then
          joinPart named.1 (hexText named.2.toNat) else named.1) := by
    intro hex named hnamed
    have hjoined := printable_joinPart hnamed (printable_hexText named.2.toNat)
    split_ifs
    · exact printable_append.mpr ⟨hjoined, by decide⟩
    · exact printable_append.mpr ⟨hnamed, by decide⟩
    · exact hjoined
    · exact hnamed
  refine htail (style == .hex) _ ?_
  split
  · exact printable_nil
  · exact printable_nameFlags hnames printable_nil

theorem forall_optional {α β : Type} {Q : β → Prop} {value : Option α} {shown : α → β}
    (h : ∀ a, Q (shown a)) : ∀ b ∈ (value.map shown).toList, Q b := by
  intro b hb
  obtain ⟨a, -, rfl⟩ := Option.map_eq_some_iff.mp (Option.mem_toList.mp hb)
  exact h a

theorem forall_if {β : Type} {Q : β → Prop} {c : Prop} [Decidable c] {l : List β} (h : ∀ b ∈ l, Q b) :
    ∀ b ∈ (if c then l else []), Q b := by
  split
  · exact h
  · exact fun b hb => absurd hb not_mem_nil

theorem printable_getD {α : Type} {value : Option α} {shown : α → Text} (h : ∀ a, Printable (shown a)) :
    Printable ((value.map shown).getD []) := by
  cases value with
  | none => exact printable_nil
  | some a => exact h a

theorem printable_tagged {tag : Text} (htag : Printable tag) (n : Nat) :
    Printable (tag ++ Text.ofNat n) := printable_append.mpr ⟨htag, printable_ofNat n⟩

/-- The three cells a backend fills with text of its own. -/
structure Cells (P : Text → Prop) (f : OpenFile) : Prop where
  type : P f.fileType.code
  device : ∀ device, f.device = some device → P device
  node : ∀ node, f.node = some node → P node

theorem printable_accessCode (f : OpenFile) : Printable [(accessCode f).getD ' '] := by
  unfold accessCode
  cases f.access <;> decide

theorem printable_lockCode (f : OpenFile) : Printable [(lockCode f).getD ' '] := by
  unfold lockCode
  cases f.lock with
  | none => decide
  | some lock => cases lock <;> decide

namespace FieldOpts

variable {P : Text → Prop} (hP : ∀ t, Printable t → P t) (o : FieldOpts)

theorem forall_field {c : Char} {value : Option Text} (h : ∀ v, value = some v → P v) :
    ∀ field ∈ o.field c value, P field.2 := by
  intro entry hentry
  unfold field at hentry
  split at hentry
  next =>
    obtain ⟨v, hv, rfl⟩ := Option.map_eq_some_iff.mp (Option.mem_toList.mp hentry)
    exact h v hv
  next => exact absurd hentry not_mem_nil

include hP in
theorem forall_field_map {α : Type} {c : Char} {value : Option α} {shown : α → Text}
    (h : ∀ a, Printable (shown a)) : ∀ field ∈ o.field c (value.map shown), P field.2 :=
  o.forall_field fun v hv => by
    obtain ⟨a, -, rfl⟩ := Option.map_eq_some_iff.mp hv
    exact hP _ (h a)

include hP in
theorem forall_procFields (p : Process) : ∀ field ∈ o.procFields p, P field.2 := by
  unfold procFields
  simp only [forall_mem_cons, forall_mem_append]
  exact ⟨hP _ (printable_ofNat _), ⟨⟨⟨⟨⟨⟨o.forall_field_map hP printable_ofNat,
    o.forall_field_map hP o.esc.printable_text⟩, o.forall_field_map hP printable_ofNat⟩,
    o.forall_field_map hP printable_ofNat⟩,
    o.forall_field fun v hv => Option.some.inj hv ▸ hP _ (o.esc.printable_bytes _)⟩,
    o.forall_field_map hP fun _ => printable_signedText _⟩,
    o.forall_field_map hP o.esc.printable_bytes⟩⟩

include hP in
theorem forall_tcpFields (f : OpenFile) : ∀ field ∈ o.tcpFields f, P field.2 := by
  unfold tcpFields
  refine forall_if ?_
  split
  next => exact fun field hfield => absurd hfield not_mem_nil
  next sock _ =>
    refine forall_mem_append.mpr ⟨forall_if (forall_optional fun st => ?_), ?_⟩
    · exact hP _ (printable_append.mpr ⟨by decide, st.printable_asStr⟩)
    · split
      next => exact fun field hfield => absurd hfield not_mem_nil
      next tcp _ =>
        refine forall_mem_append.mpr ⟨forall_if (forall_mem_append.mpr ⟨?_, ?_⟩), forall_if ?_⟩
        · exact forall_optional fun q => hP _ (printable_tagged (by decide) q)
        · exact forall_optional fun q => hP _ (printable_tagged (by decide) q)
        · exact forall_optional fun w => hP _ (printable_tagged (by decide) w)

include hP in
theorem forall_fileFields {f : OpenFile} (hcells : Cells P f) : ∀ field ∈ o.fileFields f, P field.2 := by
  have hsome : ∀ {c : Char} {t : Text}, Printable t → ∀ field ∈ o.field c (some t), P field.2 :=
    fun ht => o.forall_field fun v hv => Option.some.inj hv ▸ hP _ ht
  have htype : ∀ v, (if f.fileType.hasCode then some f.fileType.code else none) = some v → P v := by
    intro v hv
    split at hv
    · exact Option.some.inj hv ▸ hcells.type
    · cases hv
  have hflags : ∀ v, o.shownFlags f = some v → P v := by
    intro v hv
    obtain ⟨g, -, rfl⟩ := Option.map_eq_some_iff.mp hv
    exact hP _ (printable_flags o.arch g o.fileFlags)
  have hdevice : ∀ v, deviceText f = some v → P v := by
    intro v hv
    unfold deviceText at hv
    split at hv
    · exact hcells.device v hv
    · cases hv
  have hinode : ∀ v, (if nodeIsProtocol f then none else f.node) = some v → P v := by
    intro v hv
    split at hv
    · cases hv
    · exact hcells.node v hv
  have hprotocol : ∀ v, (if nodeIsProtocol f then f.node else none) = some v → P v := by
    intro v hv
    split at hv
    · exact hcells.node v hv
    · cases hv
  have hname : ∀ v, (if f.name.isEmpty then none else some (f.printedName o.esc)) = some v → P v := by
    intro v hv
    split at hv
    · cases hv
    · exact Option.some.inj hv ▸ hP _ (f.printable_printedName o.esc)
  unfold fileFields
  simp only [forall_mem_append]
  refine ⟨⟨⟨⟨⟨⟨⟨⟨⟨⟨⟨⟨⟨⟨hsome f.fd.printable_code, hsome (printable_accessCode f)⟩,
    hsome (printable_lockCode f)⟩, o.forall_field htype⟩, o.forall_field hflags⟩,
    o.forall_field hdevice⟩, ?_⟩, ?_⟩, ?_⟩, ?_⟩, o.forall_field hinode⟩, ?_⟩,
    o.forall_field hprotocol⟩, o.forall_field hname⟩, o.forall_tcpFields hP f⟩
  · exact o.forall_field_map hP fun _ => printable_hexText _
  · exact o.forall_field_map hP fun _ => printable_hexText _
  · exact o.forall_field_map hP printable_ofNat
  · exact o.forall_field_map hP fun _ => printable_offsetText _ _
  · exact o.forall_field_map hP printable_ofNat

end FieldOpts

theorem printable_tcpSuffix (f : OpenFile) (show_ : TcpInfoFlags) : Printable (tcpSuffix f show_) := by
  have hgroup : ∀ parts : List Text, (∀ part ∈ parts, Printable part) →
      Printable (' ' :: if parts.isEmpty then [] else '(' :: ((parts.intersperse [' ']).flatten ++ [')'])) := by
    intro parts hparts
    have hblank : Printable [' '] := by decide
    refine printable_cons.mpr ⟨by decide, ?_⟩
    split
    · exact printable_nil
    · refine printable_cons.mpr ⟨by decide, printable_append.mpr ⟨?_, by decide⟩⟩
      exact Text.forall_mem_intercalate hblank hparts
  unfold tcpSuffix
  split
  · exact printable_nil
  · split
    next => exact printable_nil
    next sock _ =>
      refine hgroup _ (forall_mem_append.mpr ⟨forall_if (forall_optional fun st => ?_), ?_⟩)
      · exact st.printable_asStr
      · split
        next => exact fun part hpart => absurd hpart not_mem_nil
        next tcp _ =>
          refine forall_mem_append.mpr ⟨forall_if ?_, forall_if (forall_mem_append.mpr ⟨?_, ?_⟩)⟩
          · exact forall_optional fun w => printable_tagged (by decide) w
          · exact forall_optional fun q => printable_tagged (by decide) q
          · exact forall_optional fun q => printable_tagged (by decide) q

theorem printable_fdMode (f : OpenFile) : Printable (fdMode f) := by
  have hlock : ∀ lock : LockKind, isUnprintableUnicode lock.code = false := by
    intro lock
    cases lock <;> decide
  have hmode : ∀ mode : AccessMode, isUnprintableUnicode mode.code = false := by
    intro mode
    cases mode <;> decide
  have haccess : isUnprintableUnicode (fdAccess f) = false := by
    unfold fdAccess
    split
    · decide
    · exact hmode _
    · decide
  unfold fdMode
  split
  next => exact printable_cons.mpr ⟨haccess, by decide⟩
  next lock _ =>
    refine printable_cons.mpr ⟨?_, printable_cons.mpr ⟨hlock lock, printable_nil⟩⟩
    split
    · decide
    · exact haccess

theorem printable_humanSize (size : Nat) : Printable (humanSize size) := by
  have hunit : ∀ (letters : List Char) (unit : Nat), Printable letters →
      isUnprintableUnicode (sizeUnit size letters unit).1 = false := by
    intro letters
    induction letters with
    | nil => exact fun _ _ => rfl
    | cons letter letters ih =>
      intro unit hletters
      obtain ⟨hletter, hrest⟩ := printable_cons.mp hletters
      rw [sizeUnit]
      split
      · exact hletter
      · exact ih _ hrest
  have htenths : ∀ n, Printable (tenths n) := fun n =>
    printable_append.mpr ⟨printable_ofNat _, printable_cons.mpr ⟨by decide, printable_ofNat _⟩⟩
  unfold humanSize
  split
  · exact printable_append.mpr ⟨printable_ofNat _, by decide⟩
  · exact printable_append.mpr ⟨htenths _, printable_cons.mpr ⟨hunit _ _ (by decide), printable_nil⟩⟩

theorem printable_sizeOffCell (f : OpenFile) (mode : SizeOff) (human : Bool) (digits : BitVec 32) :
    Printable (sizeOffCell f mode human digits) := by
  have hsize : ∀ s, Printable (if human then humanSize s else Text.ofNat s) := by
    intro s
    split
    · exact printable_humanSize s
    · exact printable_ofNat s
  have hoffset : Printable ((if mode ≠ .size then f.offset.map (offsetText · digits) else none).getD []) := by
    split
    · exact printable_getD fun offset => printable_offsetText offset digits
    · exact printable_nil
  unfold sizeOffCell
  cases f.size with
  | none => simpa using hoffset
  | some s =>
    by_cases hmode : mode ≠ .offset
    · simpa [hmode] using hsize s
    · simpa [hmode] using hoffset

theorem printable_numericUser (uid : Nat) : Printable (numericUser uid) := fun c hc =>
  printable_of_plain ((Text.plain_ofNat uid).padLeft 8) c (mem_of_mem_take hc)

namespace TableOpts

variable (o : TableOpts)

theorem printable_userCell (p : Process) : Printable (o.userCell p) := by
  unfold userCell
  split
  next => exact o.esc.printable_bytes _
  next => exact printable_numericUser _
  next => exact printable_nil

theorem printable_flagsCell (f : OpenFile) : Printable (o.flagsCell f) := by
  unfold flagsCell
  split
  next g _ =>
    split
    · exact printable_flags o.arch g o.fileFlags
    · exact printable_nil
  next => exact printable_nil

theorem printable_rowFor (procs : List Process) (p : Process) {f : OpenFile} (hcells : Cells Printable f) :
    ∀ cell ∈ o.rowFor procs p f, Printable cell := by
  have hone : ∀ {t : Text}, Printable t → ∀ cell ∈ [t], Printable cell := fun ht cell hcell =>
    mem_singleton.mp hcell ▸ ht
  have hcell : ∀ {value : Option Text}, (∀ t, value = some t → Printable t) → Printable (value.getD []) := by
    intro value h
    cases value with
    | none => exact printable_nil
    | some t => exact h t rfl
  have hcommand := (o.esc.graphic_commandBytesTruncated p.commandBytes (o.cmdCut procs)).printable
  have htask := fun c => (o.esc.graphic_commandTruncated c (o.taskCut procs)).printable
  have hlinks : ∀ n, Printable (' ' :: Text.ofNat n) := fun n =>
    printable_cons.mpr ⟨by decide, printable_ofNat n⟩
  have hname := printable_append.mpr ⟨f.printable_printedName o.esc, printable_tcpSuffix f o.tcpShow⟩
  unfold rowFor
  simp only [forall_mem_append]
  refine ⟨⟨⟨⟨⟨⟨⟨⟨?_, forall_if ?_⟩, forall_if (hone (printable_getD printable_ofNat))⟩,
    forall_if (hone (printable_getD printable_ofNat))⟩, ?_⟩, forall_if (hone (o.printable_flagsCell f))⟩,
    ?_⟩, forall_if (hone (printable_getD hlinks))⟩, ?_⟩
  · exact forall_mem_cons.mpr ⟨hcommand, hone (printable_ofNat _)⟩
  · exact forall_mem_cons.mpr ⟨printable_getD printable_ofNat, hone (printable_getD htask)⟩
  · exact forall_mem_cons.mpr ⟨o.printable_userCell p, forall_mem_cons.mpr
      ⟨f.fd.printable_columnCode o.host, forall_mem_cons.mpr ⟨printable_fdMode f, hone hcells.type⟩⟩⟩
  · exact forall_mem_cons.mpr ⟨hcell hcells.device, hone (printable_sizeOffCell f _ _ _)⟩
  · exact forall_mem_cons.mpr ⟨hcell hcells.node, hone hname⟩

end TableOpts

end Lsof.Render
