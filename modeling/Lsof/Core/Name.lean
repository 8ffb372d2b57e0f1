import Lsof.Core.Escape

/-! # NAME's base and its addition

A row's NAME is a base, the C's `Lf->nm`, followed by an addition, its
`Lf->nma`. The row keeps one text and where the base ends in it. `HasParts`
says what a row's base and addition are; each operation is then an equation
between parts.
-/

namespace Lsof.Core

open Lsof.Basis

namespace NameAddition

/-- The record of a base of `base` bytes; nothing where it is too long. -/
def at? (base : Nat) (printed : Bool) : Option NameAddition :=
  if h : base < 32767 then some ⟨base, printed, h⟩ else none

theorem at?_of_lt {base : Nat} (printed : Bool) (h : base < 32767) :
    at? base printed = some ⟨base, printed, h⟩ := dif_pos h

end NameAddition

namespace OpenFile

/-- The whole of NAME up to its addition. A record that does not fall on a
character boundary is no addition at all. -/
def baseText (f : OpenFile) : Text :=
  match f.nameAddition.bind (fun a => Text.splitAt? a.base f.name) with
  | some halves => halves.1
  | none => f.name

def baseName (f : OpenFile) : Option Text :=
  if f.baseText.isEmpty then none else some f.baseText

def hasPrintedAddition (f : OpenFile) : Bool :=
  f.nameAddition.any NameAddition.printed

def pushAddition (f : OpenFile) (text : Text) (printed : Bool) : OpenFile :=
  let base := match f.nameAddition with
    | some a => if a.base ≤ f.name.byteLen then a.base else f.name.byteLen
    | none => f.name.byteLen
  { f with
    name := (if f.name.isEmpty then [] else f.name ++ [' ']) ++ text
    nameAddition := NameAddition.at? base printed }

def addNameAddition (host : Host) (f : OpenFile) (text : Text) : OpenFile :=
  if f.hasPrintedAddition then f.pushAddition ((Escaper.forHost host).text text) true
  else f.pushAddition text false

/-- Append text that is already in printed form. An addition in plain text
before it is escaped now, so that the whole addition is printed text. -/
def addPrintedAddition (host : Host) (f : OpenFile) (text : Text) : OpenFile :=
  let escaped := match f.nameAddition with
    | some a =>
      if a.printed then f
      else match Text.splitAt? a.base f.name with
        | some (base, plain) =>
          { f with
            name := base ++ (Escaper.forHost host).text plain
            nameAddition := NameAddition.at? a.base true }
        | none => f
    | none => f
  escaped.pushAddition text true

/-- Replace NAME's base, keeping its addition. An addition that stood alone is
joined to the new base by a space. -/
def setBaseName (f : OpenFile) (base : Text) : OpenFile :=
  let old := (f.baseName.map Text.byteLen).getD 0
  let tail := ((Text.splitAt? old f.name).map Prod.snd).getD []
  let bare := { f with name := base, nameAddition := none }
  if tail.isEmpty then bare
  else if old = 0 then bare.pushAddition tail f.hasPrintedAddition
  else
    { bare with
      name := base ++ tail
      nameAddition := NameAddition.at? base.byteLen f.hasPrintedAddition }

/-- An addition with the blank that joins it, and whether it is printed text. -/
structure Addition where
  text : Text
  printed : Bool
  deriving DecidableEq, Repr

/-- NAME is `base` and then `addition`, and the row records where the one ends. -/
def HasParts (f : OpenFile) (base : Text) : Option Addition → Prop
  | none => f.name = base ∧ f.nameAddition = none
  | some add =>
    f.name = base ++ add.text ∧
      ∃ h : base.byteLen < 32767, f.nameAddition = some ⟨base.byteLen, add.printed, h⟩

def unnamed (f : OpenFile) : OpenFile := { f with name := [], nameAddition := none }

def clearBase (f : OpenFile) : OpenFile :=
  match f.nameAddition.bind (fun a => (Text.splitAt? a.base f.name).map (fun halves => (a, halves.2))) with
  | some (a, tail) =>
    { f with name := tail, nameAddition := some ⟨0, a.printed, by decide⟩ }
  | none => f.unnamed

/-- What is left of a row whose base is cleared: its other cells, and its addition. -/
def withAddition (f : OpenFile) : Option Addition → OpenFile
  | none => f.unnamed
  | some add => { f with name := add.text, nameAddition := some ⟨0, add.printed, by decide⟩ }

variable {f : OpenFile} {add : Option Addition} {base : Text}

theorem HasParts.baseText (h : f.HasParts base add) : f.baseText = base := by
  cases add with
  | none => simp [OpenFile.baseText, h.1, h.2]
  | some add =>
    obtain ⟨hname, hlt, hadd⟩ := h
    simp [OpenFile.baseText, hname, hadd, Text.splitAt?_append]

theorem HasParts.clearBase (h : f.HasParts base add) : f.clearBase = f.withAddition add := by
  cases add with
  | none => simp [OpenFile.clearBase, withAddition, h.2]
  | some add =>
    obtain ⟨hname, hlt, hadd⟩ := h
    simp [OpenFile.clearBase, withAddition, hname, hadd, Text.splitAt?_append]

/-- The addition a row keeps when its base is replaced: none, its own with the
blank that joins it, or one that stood alone with a blank put before it. -/
def keptAddition (f : OpenFile) : Option Addition :=
  let old := (f.baseName.map Text.byteLen).getD 0
  let tail := ((Text.splitAt? old f.name).map Prod.snd).getD []
  if tail.isEmpty then none
  else if old = 0 then some ⟨' ' :: tail, f.hasPrintedAddition⟩
  else some ⟨tail, f.hasPrintedAddition⟩

theorem setBaseName_hasParts (f : OpenFile) (hne : base ≠ [])
    (hfit : base.byteLen < 32767) : (f.setBaseName base).HasParts base f.keptAddition := by
  unfold setBaseName keptAddition
  dsimp only
  split
  · exact ⟨rfl, rfl⟩
  · split
    · refine ⟨?_, hfit, ?_⟩
      · simp [pushAddition, hne]
      · simp [pushAddition, NameAddition.at?_of_lt _ hfit]
    · exact ⟨rfl, hfit, by simp [NameAddition.at?_of_lt _ hfit]⟩

theorem setBaseName_unnamed (f : OpenFile) (base : Text) : (f.setBaseName base).unnamed = f.unnamed := by
  unfold setBaseName
  dsimp only
  split
  · rfl
  · split
    · rfl
    · rfl

theorem HasParts.setBaseName_none (h : f.HasParts [] none) (base : Text) :
    (f.setBaseName base).HasParts base none := by
  have hname : f.name = [] := h.1
  simp [OpenFile.setBaseName, hname, HasParts, Text.splitAt?, OpenFile.baseName, h.baseText]

theorem HasParts.setBaseName_some {add : Addition} (h : f.HasParts [] (some add))
    (hadd : add.text ≠ []) (base : Text) :
    (f.setBaseName base).name = (if base.isEmpty then add.text else base ++ ' ' :: add.text) ∧
      (f.setBaseName base).nameAddition = NameAddition.at? base.byteLen add.printed := by
  have hold : (f.baseName.map Text.byteLen).getD 0 = 0 := by
    simp [OpenFile.baseName, h.baseText]
  have hname : f.name = add.text := h.1
  have hprinted : f.hasPrintedAddition = add.printed := by
    rcases h with ⟨_, _, hrecord⟩
    simp [hasPrintedAddition, hrecord]
  have htail : ((Text.splitAt? 0 f.name).map Prod.snd).getD [] = add.text := by
    simp [hname, Text.splitAt?]
  unfold OpenFile.setBaseName
  dsimp only
  rw [hold, htail, if_neg (by simpa using hadd), if_pos rfl, hprinted]
  constructor
  · cases base with
    | nil => simp [pushAddition]
    | cons c base => simp [pushAddition]
  · simp [pushAddition]

theorem clearBase_unnamed (f : OpenFile) : f.clearBase.unnamed = f.unnamed := by
  unfold clearBase
  split <;> rfl

theorem withAddition_congr {f g : OpenFile} (h : f.unnamed = g.unnamed) (add : Option Addition) :
    f.withAddition add = g.withAddition add := by
  simp only [unnamed, OpenFile.mk.injEq] at h
  cases f; cases g
  cases add <;> simp_all [withAddition, unnamed]

def Addition.join (host : Host) (add : Option Addition) (text : Text) : Addition where
  text := (match add with
    | none => []
    | some a => if a.printed then a.text else (Escaper.forHost host).text a.text) ++ ' ' :: text
  printed := true

theorem pushAddition_hasParts {base tail : Text} (hne : f.name ≠ [])
    (hfit : base.byteLen < 32767) (hname : f.name = base ++ tail) (hadd : (tail = [] ∧ f.nameAddition = none) ∨
      ∃ printed, f.nameAddition = some ⟨base.byteLen, printed, hfit⟩) (text : Text) (printed : Bool) :
    (f.pushAddition text printed).HasParts base (some ⟨tail ++ ' ' :: text, printed⟩) := by
  have hbase : (match f.nameAddition with
      | some a => if a.base ≤ f.name.byteLen then a.base else f.name.byteLen
      | none => f.name.byteLen) = base.byteLen := by
    rcases hadd with ⟨htail, hnone⟩ | ⟨_, hsome⟩
    · simp [hnone, hname, htail]
    · simp [hsome, hname]
  refine ⟨?_, hfit, ?_⟩
  · rw [pushAddition, List.isEmpty_eq_false_iff.mpr hne, hname]
    simp
  · simp only [pushAddition, hbase, NameAddition.at?_of_lt _ hfit]

theorem HasParts.addPrintedAddition
    (h : f.HasParts base add) (hne : base ≠ []) (hfit : base.byteLen < 32767) (host : Host) (text : Text) :
    (f.addPrintedAddition host text).HasParts base (some (Addition.join host add text)) := by
  unfold OpenFile.addPrintedAddition
  cases add with
  | none =>
    have hname : f.name ≠ [] := h.1 ▸ hne
    rw [h.2]
    exact pushAddition_hasParts hname hfit (by simpa using h.1) (Or.inl ⟨rfl, h.2⟩) _ _
  | some add =>
    obtain ⟨hname, _, hadd⟩ := h
    have hjoined : ∀ tail, base ++ tail ≠ [] := List.append_ne_nil_of_left_ne_nil hne
    rw [hadd]
    cases hp : add.printed with
    | true =>
      rw [hp] at hadd
      simpa [Addition.join, hp] using
        pushAddition_hasParts (hname ▸ hjoined _) hfit hname (Or.inr ⟨true, hadd⟩) text true
    | false =>
      simp only [Bool.false_eq_true, if_false, hname, Text.splitAt?_append,
        NameAddition.at?_of_lt _ hfit, Addition.join, hp]
      exact pushAddition_hasParts (hjoined _) hfit rfl (Or.inr ⟨true, rfl⟩) text true

theorem addPrintedAddition_unnamed (host : Host) (f : OpenFile) (text : Text) :
    (f.addPrintedAddition host text).unnamed = f.unnamed := by
  unfold addPrintedAddition
  dsimp only
  split
  · split
    · rfl
    · split <;> rfl
  · rfl

/-- Two rows that differ in nothing but the base part of NAME. -/
structure Twins (f g : OpenFile) : Prop where
  cells : f.unnamed = g.unnamed
  parts : ∃ base base' add, f.HasParts base add ∧ g.HasParts base' add ∧
    (base ≠ [] ∧ base.byteLen < 32767) ∧ (base' ≠ [] ∧ base'.byteLen < 32767)

theorem Twins.clearBase {f g : OpenFile} (h : Twins f g) : f.clearBase = g.clearBase := by
  obtain ⟨base, base', add, hf, hg, _, _⟩ := h.parts
  rw [hf.clearBase, hg.clearBase]
  exact withAddition_congr h.cells add

theorem Twins.addPrintedAddition {f g : OpenFile} (h : Twins f g) (host : Host) (text : Text) :
    Twins (f.addPrintedAddition host text) (g.addPrintedAddition host text) := by
  obtain ⟨base, base', add, hf, hg, hb, hb'⟩ := h.parts
  refine ⟨?_, base, base', _, hf.addPrintedAddition hb.1 hb.2 host text,
    hg.addPrintedAddition hb'.1 hb'.2 host text, hb, hb'⟩
  rw [addPrintedAddition_unnamed, addPrintedAddition_unnamed, h.cells]

theorem setBaseName_twins (f : OpenFile) {base base' : Text} (hb : base ≠ [] ∧ base.byteLen < 32767)
    (hb' : base' ≠ [] ∧ base'.byteLen < 32767) :
    Twins (f.setBaseName base) (f.setBaseName base') where
  cells := (f.setBaseName_unnamed base).trans (f.setBaseName_unnamed base').symm
  parts := ⟨base, base', f.keptAddition, f.setBaseName_hasParts hb.1 hb.2,
    f.setBaseName_hasParts hb'.1 hb'.2, hb, hb'⟩

end OpenFile

theorem eq_named_of_unnamed {f g : OpenFile} (h : f.unnamed = g.unnamed) :
    f = { g with name := f.name, nameAddition := f.nameAddition } := by
  simp only [OpenFile.unnamed, OpenFile.mk.injEq] at h
  cases f; cases g
  simp_all

end Lsof.Core
