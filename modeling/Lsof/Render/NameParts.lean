import Lsof.Render.Printable

/-! # NAME over any order of operations

A row's NAME is one text, a length and a flag. `NameParts` is what they stand
for: a base, and the additions as they are shown. Each operation on the row is
the operation on the parts, so the parts are what any sequence of operations
leaves printed.
-/

namespace Lsof.Core

open Lsof.Basis List

inductive NameOp where
  | addNameAddition (text : Text)
  | addPrintedAddition (text : Text)
  | setBaseName (base : Text)
  deriving DecidableEq, Repr

def NameOp.apply (host : Host) (f : OpenFile) : NameOp → OpenFile
  | .addNameAddition text => f.addNameAddition host text
  | .addPrintedAddition text => f.addPrintedAddition host text
  | .setBaseName base => f.setBaseName base

def NameOp.applyAll (host : Host) (f : OpenFile) (ops : List NameOp) : OpenFile :=
  ops.foldl (NameOp.apply host) f

/-- A base, and after it the additions as the table shows them. -/
structure NameParts where
  base : Text
  shown : List Text
  deriving DecidableEq, Repr

namespace NameParts

def apply (esc : Escaper) (n : NameParts) : NameOp → NameParts
  | .addNameAddition text => { n with shown := n.shown ++ [esc.text text] }
  | .addPrintedAddition text => { n with shown := n.shown ++ [text] }
  | .setBaseName base => { n with base := base }

def applyAll (esc : Escaper) (n : NameParts) (ops : List NameOp) : NameParts := ops.foldl (apply esc) n

/-- The escaped base and the additions, one blank between each and the next. -/
def printed (esc : Escaper) (n : NameParts) : Text :=
  [' '].intercalate ((if n.base = [] then [] else [esc.text n.base]) ++ n.shown)

/-- What an operation may be given: a text that is not empty, in printed form
where it is said to be, and a base whose length is recorded. An empty base takes
the place of another only where no addition follows. -/
def Admits (n : NameParts) : NameOp → Prop
  | .addNameAddition text => text ≠ []
  | .addPrintedAddition text => text ≠ [] ∧ Printable text
  | .setBaseName base => base.byteLen ≤ 32766 ∧ (base = [] → n.base = [] ∨ n.shown = [])

def AdmitsAll (esc : Escaper) (n : NameParts) : List NameOp → Prop
  | [] => True
  | op :: ops => n.Admits op ∧ (n.apply esc op).AdmitsAll esc ops

instance (n : NameParts) : (op : NameOp) → Decidable (n.Admits op)
  | .addNameAddition text => inferInstanceAs (Decidable (text ≠ []))
  | .addPrintedAddition text => inferInstanceAs (Decidable (text ≠ [] ∧ Printable text))
  | .setBaseName base =>
    inferInstanceAs (Decidable (base.byteLen ≤ 32766 ∧ (base = [] → n.base = [] ∨ n.shown = [])))

def decidableAdmitsAll (esc : Escaper) : (n : NameParts) → (ops : List NameOp) → Decidable (n.AdmitsAll esc ops)
  | _, [] => inferInstanceAs (Decidable True)
  | n, op :: ops =>
    have := decidableAdmitsAll esc (n.apply esc op) ops
    inferInstanceAs (Decidable (n.Admits op ∧ (n.apply esc op).AdmitsAll esc ops))

instance (esc : Escaper) (n : NameParts) (ops : List NameOp) : Decidable (n.AdmitsAll esc ops) :=
  decidableAdmitsAll esc n ops

end NameParts

def joined (parts : List Text) : Text := [' '].intercalate parts

theorem joined_cons (first : Text) {parts : List Text} (h : parts ≠ []) :
    joined (first :: parts) = first ++ ' ' :: joined parts := by
  cases parts with
  | nil => exact absurd rfl h
  | cons part parts =>
    rw [joined, joined, Text.intercalate_cons, Text.intercalate_cons, flatMap_cons]
    rfl

theorem joined_concat {parts : List Text} (h : parts ≠ []) (last : Text) :
    joined (parts ++ [last]) = joined parts ++ ' ' :: last := by
  cases parts with
  | nil => exact absurd rfl h
  | cons part parts =>
    rw [joined, joined, cons_append, Text.intercalate_cons, Text.intercalate_cons, flatMap_append,
      flatMap_singleton, append_assoc]
    rfl

namespace Escaper

variable (esc : Escaper)

theorem text_append (s t : Text) : esc.text (s ++ t) = esc.text s ++ esc.text t := by
  rw [text, text, text, escape_eq_flatMap, escape_eq_flatMap, escape_eq_flatMap, flatMap_append]

theorem text_blank (t : Text) : esc.text (' ' :: t) = ' ' :: esc.text t := by
  have hblank : esc.push .text ' ' = [' '] := by cases esc with | mk b => cases b <;> decide
  rw [text, text, escape_eq_flatMap, escape_eq_flatMap, flatMap_cons, hblank]
  rfl

theorem push_ne_nil (mode : EscapeMode) (c : Char) : esc.push mode c ≠ [] := by
  have hsize := Char.utf8Size_pos c
  unfold push
  split_ifs
  case neg =>
    intro hnil
    have hlen := String.length_utf8EncodeChar c
    cases hencode : String.utf8EncodeChar c with
    | nil =>
      rw [hencode, length_nil] at hlen
      omega
    | cons b bs => simp [hencode, pushHex] at hnil
  all_goals exact cons_ne_nil _ _

theorem text_ne_nil {t : Text} (h : t ≠ []) : esc.text t ≠ [] := by
  cases t with
  | nil => exact absurd rfl h
  | cons c t =>
    rw [text, escape_eq_flatMap, flatMap_cons]
    exact append_ne_nil_of_left_ne_nil (esc.push_ne_nil .text c) _

end Escaper

def glue (base : Text) : Text := if base = [] then [] else [' ']

theorem text_glue (esc : Escaper) (base : Text) : esc.text (glue base) = glue base := by
  unfold glue
  split
  · rfl
  · exact esc.text_blank []

/-- The joined additions of a row: as they are shown where they are in printed
form, and else the plain texts they are the escapes of. -/
def ShownAs (esc : Escaper) (printed : Bool) (tail : Text) (shown : List Text) : Prop :=
  if printed then tail = joined shown ∧ Printable tail else esc.text tail = joined shown

/-- A row that holds the parts: without an addition the base alone, else the
base, the joined additions, and the mark between the two. -/
def HoldsParts (esc : Escaper) (f : OpenFile) (n : NameParts) : Prop :=
  n.base.byteLen < 32767 ∧
    ((n.shown = [] ∧ f.HasParts n.base none) ∨
      (n.shown ≠ [] ∧ ∃ tail printed, tail ≠ [] ∧ ShownAs esc printed tail n.shown ∧
        f.HasParts n.base (some ⟨glue n.base ++ tail, printed⟩)))

namespace ShownAs

variable {esc : Escaper} {tail : Text} {shown : List Text}

theorem single_plain (text : Text) : ShownAs esc false text [esc.text text] := intercalate_singleton.symm

theorem single_printed {text : Text} (h : Printable text) : ShownAs esc true text [text] :=
  ⟨intercalate_singleton.symm, h⟩

theorem concat_plain (h : ShownAs esc false tail shown) (hshown : shown ≠ []) (text : Text) :
    ShownAs esc false (tail ++ ' ' :: text) (shown ++ [esc.text text]) := by
  have htail : esc.text tail = joined shown := h
  show esc.text _ = _
  rw [esc.text_append, esc.text_blank, joined_concat hshown, htail]

theorem concat_printed (h : ShownAs esc true tail shown) (hshown : shown ≠ []) {text : Text}
    (htext : Printable text) : ShownAs esc true (tail ++ ' ' :: text) (shown ++ [text]) := by
  obtain ⟨htail, hprintable⟩ : tail = joined shown ∧ Printable tail := h
  refine ⟨by rw [joined_concat hshown, htail], ?_⟩
  exact printable_append.mpr ⟨hprintable, printable_cons.mpr ⟨by decide, htext⟩⟩

theorem escaped (h : ShownAs esc false tail shown) : ShownAs esc true (esc.text tail) shown :=
  ⟨h, esc.printable_text tail⟩

end ShownAs

section Pushing

variable {f : OpenFile} {base tail : Text} {printed : Bool}

theorem pushAddition_first (h : f.HasParts base none) (hfit : base.byteLen < 32767) (text : Text)
    (printed : Bool) : (f.pushAddition text printed).HasParts base (some ⟨glue base ++ text, printed⟩) := by
  obtain ⟨hname, hnone⟩ := h
  by_cases hbase : base = []
  · subst hbase
    refine ⟨?_, hfit, ?_⟩
    · rw [OpenFile.pushAddition, hname]
      rfl
    · rw [OpenFile.pushAddition, hname, hnone]
      exact NameAddition.at?_of_lt printed hfit
  · have hne : f.name ≠ [] := hname ▸ hbase
    have hparts := OpenFile.pushAddition_hasParts hne hfit (hname.trans (append_nil base).symm)
      (.inl ⟨rfl, hnone⟩) text printed
    rw [glue, if_neg hbase]
    exact hparts

theorem pushAddition_next (h : f.HasParts base (some ⟨glue base ++ tail, printed⟩)) (htail : tail ≠ [])
    (text : Text) (printed' : Bool) :
    (f.pushAddition text printed').HasParts base (some ⟨glue base ++ (tail ++ ' ' :: text), printed'⟩) := by
  obtain ⟨hname, hfit, hadd⟩ := h
  have hne : f.name ≠ [] := by
    rw [hname]
    exact append_ne_nil_of_right_ne_nil _ (append_ne_nil_of_right_ne_nil _ htail)
  have hparts := OpenFile.pushAddition_hasParts hne hfit hname (.inr ⟨printed, hadd⟩) text printed'
  rw [append_assoc] at hparts
  exact hparts

end Pushing

section Steps

variable {host : Host} {f : OpenFile} {n : NameParts}

variable {base : Text}

theorem hasPrintedAddition_of_parts {add : OpenFile.Addition} (h : f.HasParts base (some add)) :
    f.hasPrintedAddition = add.printed := by
  obtain ⟨-, hlt, hadd⟩ := h
  rw [OpenFile.hasPrintedAddition, hadd]
  rfl

theorem byteLen_baseName {add : Option OpenFile.Addition} (h : f.HasParts base add) :
    (f.baseName.map Text.byteLen).getD 0 = base.byteLen := by
  rw [OpenFile.baseName, h.baseText]
  cases base with
  | nil => rfl
  | cons c base => rfl

theorem HoldsParts.addNameAddition (h : HoldsParts (.forHost host) f n) {text : Text} (htext : text ≠ []) :
    HoldsParts (.forHost host) (f.addNameAddition host text) (n.apply (.forHost host) (.addNameAddition text)) := by
  obtain ⟨hfit, ⟨hshown, hparts⟩ | ⟨hshown, tail, printed, htail, hshows, hparts⟩⟩ := h
  · have hplain : f.hasPrintedAddition = false := by
      rw [OpenFile.hasPrintedAddition, hparts.2]
      rfl
    refine ⟨hfit, .inr ⟨by simp [NameParts.apply], text, false, htext, ?_, ?_⟩⟩
    · rw [NameParts.apply, hshown]
      exact ShownAs.single_plain text
    · rw [OpenFile.addNameAddition, hplain]
      exact pushAddition_first hparts hfit text false
  · have hflag := hasPrintedAddition_of_parts hparts
    have hlonger : ∀ t, tail ++ ' ' :: t ≠ [] := fun t => append_ne_nil_of_left_ne_nil htail _
    refine ⟨hfit, .inr ⟨by simp [NameParts.apply], ?_⟩⟩
    rw [OpenFile.addNameAddition, hflag]
    cases printed with
    | true =>
      refine ⟨_, true, hlonger _, ?_, pushAddition_next hparts htail _ true⟩
      exact hshows.concat_printed hshown (Escaper.printable_text _ text)
    | false => exact ⟨_, false, hlonger _, hshows.concat_plain hshown text, pushAddition_next hparts htail _ false⟩

theorem HoldsParts.addPrintedAddition (h : HoldsParts (.forHost host) f n) {text : Text} (htext : text ≠ [])
    (hprintable : Printable text) :
    HoldsParts (.forHost host) (f.addPrintedAddition host text)
      (n.apply (.forHost host) (.addPrintedAddition text)) := by
  obtain ⟨hfit, ⟨hshown, hparts⟩ | ⟨hshown, tail, printed, htail, hshows, hparts⟩⟩ := h
  · refine ⟨hfit, .inr ⟨by simp [NameParts.apply], text, true, htext, ?_, ?_⟩⟩
    · rw [NameParts.apply, hshown]
      exact ShownAs.single_printed hprintable
    · rw [OpenFile.addPrintedAddition, hparts.2]
      exact pushAddition_first hparts hfit text true
  · refine ⟨hfit, .inr ⟨by simp [NameParts.apply], ?_⟩⟩
    obtain ⟨hname, _, hadd⟩ := id hparts
    rw [OpenFile.addPrintedAddition, hadd]
    cases printed with
    | true =>
      have hlonger : tail ++ ' ' :: text ≠ [] := append_ne_nil_of_left_ne_nil htail _
      exact ⟨_, true, hlonger, hshows.concat_printed hshown hprintable, pushAddition_next hparts htail text true⟩
    | false =>
      -- what was plain is escaped once, with the blank before it
      have hescaped := (Escaper.forHost host).text_ne_nil htail
      have hlonger : (Escaper.forHost host).text tail ++ ' ' :: text ≠ [] :=
        append_ne_nil_of_left_ne_nil hescaped _
      have hnew : OpenFile.HasParts
          { f with
            name := n.base ++ (Escaper.forHost host).text (glue n.base ++ tail)
            nameAddition := NameAddition.at? n.base.byteLen true }
          n.base (some ⟨glue n.base ++ (Escaper.forHost host).text tail, true⟩) :=
        ⟨by rw [Escaper.text_append, text_glue], hfit, NameAddition.at?_of_lt true hfit⟩
      refine ⟨_, true, hlonger, hshows.escaped.concat_printed hshown hprintable, ?_⟩
      dsimp only
      rw [if_neg Bool.false_ne_true, hname, Text.splitAt?_append]
      exact pushAddition_next hnew hescaped text true

theorem HoldsParts.setBaseName (h : HoldsParts (.forHost host) f n) (hlen : base.byteLen ≤ 32766)
    (hempty : base = [] → n.base = [] ∨ n.shown = []) :
    HoldsParts (.forHost host) (f.setBaseName base) (n.apply (.forHost host) (.setBaseName base)) := by
  have hnew : base.byteLen < 32767 := by omega
  obtain ⟨hfit, ⟨hshown, hparts⟩ | ⟨hshown, tail, printed, htail, hshows, hparts⟩⟩ := h
  · have htail : Text.splitAt? n.base.byteLen f.name = some (n.base, []) := by
      rw [hparts.1]
      simpa using Text.splitAt?_append n.base []
    refine ⟨hnew, .inl ⟨hshown, ?_⟩⟩
    rw [OpenFile.setBaseName, byteLen_baseName hparts, htail]
    exact ⟨rfl, rfl⟩
  · have hsplit : Text.splitAt? n.base.byteLen f.name = some (n.base, glue n.base ++ tail) := by
      rw [hparts.1]
      exact Text.splitAt?_append _ _
    have hsome : (glue n.base ++ tail).isEmpty = false :=
      isEmpty_eq_false_iff.mpr (append_ne_nil_of_right_ne_nil _ htail)
    refine ⟨hnew, .inr ⟨hshown, tail, printed, htail, hshows, ?_⟩⟩
    rw [OpenFile.setBaseName, byteLen_baseName hparts, hsplit, hasPrintedAddition_of_parts hparts]
    dsimp only [Option.map_some, Option.getD_some]
    rw [if_neg fun h => Bool.false_ne_true (hsome.symm.trans h)]
    by_cases hold : n.base = []
    · -- an addition that stood alone
      rw [if_pos (Text.byteLen_eq_zero.mpr hold), glue, if_pos hold]
      exact pushAddition_first ⟨rfl, rfl⟩ hnew tail printed
    · have hbase : base ≠ [] := fun h => (hempty h).elim hold hshown
      rw [if_neg fun h => hold (Text.byteLen_eq_zero.mp h)]
      refine ⟨?_, hnew, NameAddition.at?_of_lt printed hnew⟩
      show base ++ (glue n.base ++ tail) = base ++ (glue base ++ tail)
      rw [glue, glue, if_neg hold, if_neg hbase]

theorem HoldsParts.apply (h : HoldsParts (.forHost host) f n) {op : NameOp} (hop : n.Admits op) :
    HoldsParts (.forHost host) (op.apply host f) (n.apply (.forHost host) op) := by
  cases op with
  | addNameAddition text => exact h.addNameAddition hop
  | addPrintedAddition text => exact h.addPrintedAddition hop.1 hop.2
  | setBaseName base => exact h.setBaseName hop.1 hop.2

theorem HoldsParts.applyAll (h : HoldsParts (.forHost host) f n) {ops : List NameOp}
    (hops : n.AdmitsAll (.forHost host) ops) :
    HoldsParts (.forHost host) (NameOp.applyAll host f ops) (n.applyAll (.forHost host) ops) := by
  induction ops generalizing f n with
  | nil => exact h
  | cons op ops ih => exact ih (h.apply hops.1) hops.2

end Steps

section Printing

variable {esc : Escaper} {f : OpenFile} {n : NameParts}

theorem HoldsParts.baseName (h : HoldsParts esc f n) : f.baseName = if n.base = [] then none else some n.base := by
  have hbase : f.baseText = n.base := by
    obtain ⟨-, ⟨-, hparts⟩ | ⟨-, tail, printed, -, -, hparts⟩⟩ := h
    · exact hparts.baseText
    · exact hparts.baseText
  simp only [OpenFile.baseName, hbase, List.isEmpty_iff]

theorem printed_of_shown (hshown : n.shown ≠ []) :
    n.printed esc = esc.text n.base ++ (glue n.base ++ joined n.shown) := by
  unfold NameParts.printed glue
  split
  next hbase =>
    rw [hbase]
    rfl
  next => exact joined_cons _ hshown

theorem HoldsParts.printedName (h : HoldsParts esc f n) : f.printedName esc = n.printed esc := by
  obtain ⟨-, ⟨hshown, hname, hadd⟩ | ⟨hshown, tail, printed, -, hshows, hname, hlt, hadd⟩⟩ := h
  · have hwhole : f.printedName esc = esc.text n.base := by
      rw [OpenFile.printedName, hadd, hname]
      rfl
    rw [hwhole, NameParts.printed, hshown, append_nil]
    split
    next hbase =>
      rw [hbase]
      rfl
    next => exact intercalate_singleton.symm
  rw [printed_of_shown hshown]
  cases printed with
  | false =>
    have htail : esc.text tail = joined n.shown := hshows
    have hwhole : f.printedName esc = esc.text f.name := by
      rw [OpenFile.printedName, hadd]
      rfl
    rw [hwhole, hname, esc.text_append, esc.text_append, text_glue, htail]
  | true =>
    obtain ⟨rfl, hprintable⟩ : tail = joined n.shown ∧ Printable tail := hshows
    have hclean : Printable (glue n.base ++ joined n.shown) := by
      refine printable_append.mpr ⟨?_, hprintable⟩
      unfold glue
      split <;> decide
    have hsplit : (f.nameAddition.filter NameAddition.printed).bind (fun a => Text.splitAt? a.base f.name) =
        some (n.base, glue n.base ++ joined n.shown) := by
      rw [hadd, hname]
      exact Text.splitAt?_append _ _
    rw [OpenFile.printedName, hsplit]
    refine if_neg fun hany => ?_
    obtain ⟨c, hc, hbad⟩ := any_eq_true.mp hany
    exact absurd (hclean c hc) (by simp [hbad])

end Printing

/-- Over any sequence of operations on a row that has no addition yet, the base
is the one set last, and what is printed is the escaped base and the additions
in their order. -/
theorem nameOps_compose (host : Host) (f : OpenFile) (ops : List NameOp) (hnone : f.nameAddition = none)
    (hfit : f.name.byteLen ≤ 32766) (hops : (NameParts.mk f.name []).AdmitsAll (.forHost host) ops) :
    let n := (NameParts.mk f.name []).applyAll (.forHost host) ops
    (NameOp.applyAll host f ops).baseName = (if n.base = [] then none else some n.base) ∧
      (NameOp.applyAll host f ops).printedName (.forHost host) = n.printed (.forHost host) := by
  have hstart : HoldsParts (.forHost host) f ⟨f.name, []⟩ :=
    ⟨Nat.lt_succ_of_le hfit, .inl ⟨rfl, rfl, hnone⟩⟩
  have hend := hstart.applyAll hops
  exact ⟨hend.baseName, hend.printedName⟩

/-- A plain addition, one in printed form after it, and a new base. -/
theorem nameOps_compose_three :
    let f : OpenFile := { fd := .handle 3, fileType := .fifo, name := "pipe".toList }
    (NameOp.applyAll .linux f [.addNameAddition "a\t".toList, .addPrintedAddition "7,\\xc3,1w".toList,
        .setBaseName "p\n".toList]).printedName (.forHost .linux) =
      "p\\n a\\t 7,\\xc3,1w".toList := by
  intro f
  have hops : (NameParts.mk f.name []).AdmitsAll (.forHost .linux) [.addNameAddition "a\t".toList,
      .addPrintedAddition "7,\\xc3,1w".toList, .setBaseName "p\n".toList] := by decide
  have hcompose := nameOps_compose .linux f _ rfl (by decide) hops
  exact hcompose.2.trans (by decide)

/-- A text given as printed that holds an escape sequence has the whole name
escaped again; an empty base over a named row leaves the blank that joined its
addition. -/
theorem nameOps_part :
    let f : OpenFile := { fd := .handle 3, fileType := .fifo, name := "p".toList }
    (let ops := [NameOp.addPrintedAddition "a\\x1b\x1b".toList];
      (NameOp.applyAll .linux f ops).printedName (.forHost .linux) = "p a\\\\x1b^[".toList ∧
        ((NameParts.mk f.name []).applyAll (.forHost .linux) ops).printed (.forHost .linux) =
          "p a\\x1b\x1b".toList) ∧
    (let ops := [NameOp.addNameAddition "b".toList, NameOp.setBaseName []];
      (NameOp.applyAll .linux f ops).printedName (.forHost .linux) = " b".toList ∧
        ((NameParts.mk f.name []).applyAll (.forHost .linux) ops).printed (.forHost .linux) = "b".toList) := by
  decide +kernel

end Lsof.Core
