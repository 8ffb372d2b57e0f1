import Lsof.Render.FieldStream

/-! # Terminal safety of the table and of `-F`

With TYPE, DEVICE and NODE printable, each line of the table and each token of
`-F` is: what is left of controls are the newlines and NULs the renderers put
there themselves.
-/

namespace Lsof.Render

open Lsof.Basis Lsof.Core List

def IsLine (line : Text) : Prop := ∃ shown, line = shown ++ ['\n'] ∧ Printable shown

/-- Lines one after another, and nothing else. -/
def Lined (out : Text) : Prop :=
  ∃ lines : List Text, out = (lines.flatMap fun line => line ++ ['\n']) ∧ ∀ line ∈ lines, Printable line

theorem lined_flatMap {α : Type} {items : List α} {shown : α → Text} (h : ∀ a ∈ items, IsLine (shown a)) :
    Lined (items.flatMap shown) := by
  induction items with
  | nil => exact ⟨[], rfl, fun line hline => absurd hline not_mem_nil⟩
  | cons a items ih =>
    obtain ⟨hfirst, hrest⟩ := forall_mem_cons.mp h
    obtain ⟨line, hline, hprintable⟩ := hfirst
    obtain ⟨lines, hlines, hall⟩ := ih hrest
    refine ⟨line :: lines, ?_, forall_mem_cons.mpr ⟨hprintable, hall⟩⟩
    rw [flatMap_cons, hline, hlines, flatMap_cons]

theorem exists_emitLine {P : Char → Prop} (hblank : P ' ') {cells : List Text} (widths : List Nat)
    (cols : List Col) (h : ∀ cell ∈ cells, ∀ c ∈ cell, P c) :
    ∃ shown, emitLine cells widths cols = shown ++ ['\n'] ∧ ∀ c ∈ shown, P c := by
  have hblanks : ∀ k, ∀ c ∈ List.replicate k ' ', P c := fun k c hc => by
    rw [(mem_replicate.mp hc).2]
    exact hblank
  refine ⟨_, rfl, forall_mem_flatMap.mpr fun entry hentry => ?_⟩
  have hcell : ∀ c ∈ entry.1.1, P c := by
    have hzip := fst_mem_of_mem_zipIdx hentry
    exact h _ (of_mem_zip hzip).1
  refine forall_mem_append.mpr ⟨?_, ?_⟩
  · split
    · exact hblanks 1
    · exact fun c hc => absurd hc not_mem_nil
  · split
    · exact hcell
    · split
      · exact forall_mem_append.mpr ⟨hblanks _, hcell⟩
      · exact forall_mem_append.mpr ⟨hcell, hblanks _⟩

theorem isLine_emitLine {cells : List Text} (widths : List Nat) (cols : List Col)
    (h : ∀ cell ∈ cells, Printable cell) : IsLine (emitLine cells widths cols) :=
  exists_emitLine (by decide) widths cols h

namespace TableOpts

variable (o : TableOpts)

theorem cells_blank : Cells Printable blank :=
  ⟨by decide, nofun, nofun⟩

theorem cells_rowsOf {procs : List Process} (hcells : ∀ p ∈ procs, ∀ f ∈ p.files, Cells Printable f) :
    ∀ row ∈ rowsOf procs, Cells Printable row.2 := by
  intro row hrow
  obtain ⟨p, hp, hrow⟩ := mem_flatMap.mp hrow
  obtain ⟨f, hf, rfl⟩ := mem_map.mp hrow
  split at hf
  · exact mem_singleton.mp hf ▸ cells_blank
  · exact hcells p hp f hf

theorem printable_titles (tasks : Bool) : ∀ title ∈ (o.cols tasks).map Col.title, Printable title := by
  have hcols : ∀ col ∈ o.cols tasks, Printable col.title := by
    have hsizeOff : Printable o.sizeOff.header := by cases o.sizeOff <;> decide
    unfold cols
    simp only [forall_mem_append]
    refine ⟨⟨⟨⟨⟨⟨⟨⟨by decide, forall_if (by decide)⟩, forall_if (by decide)⟩, forall_if (by decide)⟩,
      by decide⟩, forall_if (by decide)⟩, ?_⟩, forall_if (by decide)⟩, by decide⟩
    exact forall_mem_cons.mpr ⟨by decide, fun col hcol => mem_singleton.mp hcol ▸ hsizeOff⟩
  intro title htitle
  obtain ⟨col, hcol, rfl⟩ := mem_map.mp htitle
  exact hcols col hcol

theorem lined_render {procs : List Process} (hcells : ∀ p ∈ procs, ∀ f ∈ p.files, Cells Printable f) :
    Lined (o.render procs) := by
  have hrows : ∀ row ∈ o.rows procs, ∀ cell ∈ row, Printable cell := by
    intro cells hrow
    obtain ⟨row, hmem, rfl⟩ := mem_map.mp hrow
    exact o.printable_rowFor procs row.1 (cells_rowsOf hcells row hmem)
  unfold render
  split
  · exact lined_flatMap fun pid _ => ⟨_, rfl, printable_ofNat pid⟩
  · split
    · exact ⟨[], rfl, fun line hline => absurd hline not_mem_nil⟩
    · have htable : ∀ row ∈ (o.cols (showTasks procs)).map Col.title :: o.rows procs,
          IsLine (emitLine row (o.widths procs) (o.cols (showTasks procs))) :=
        forall_mem_cons.mpr ⟨isLine_emitLine _ _ (o.printable_titles _),
          fun row hrow => isLine_emitLine _ _ (hrows row hrow)⟩
      exact lined_flatMap htable

end TableOpts

/-- Tokens, each ended by the terminator of its stream, in sets that under `-F0`
end in a newline. -/
def Tokened (o : FieldOpts) (out : Text) : Prop :=
  ∃ sets : List (List Text),
    out = (sets.flatMap fun set => (set.flatMap fun t => t ++ [o.term]) ++
      if o.nul && !set.isEmpty then ['\n'] else []) ∧
    ∀ set ∈ sets, ∀ t ∈ set, Printable t

theorem tokened_render (o : FieldOpts) {procs : List Process}
    (hcells : ∀ p ∈ procs, ∀ f ∈ p.files, Cells Printable f) : Tokened o (o.render procs) := by
  have htokens := o.forall_tokens (fun t ht => ht) (fun c t hc ht => printable_cons.mpr ⟨hc, ht⟩) hcells
  refine ⟨(o.sets procs).map (List.map FieldOpts.token), ?_, ?_⟩
  · rw [o.render_eq, flatMap_map]
    refine flatMap_congr fun set _ => ?_
    rw [FieldOpts.setText, flatMap_map, isEmpty_map]
  · intro tokens hset t ht
    obtain ⟨set, hmem, rfl⟩ := mem_map.mp hset
    obtain ⟨field, hfield, rfl⟩ := mem_map.mp ht
    exact htokens set hmem field hfield

/-- Whatever the names and their additions hold and in either style, the table
is printable lines, `-F` is printable tokens, and COMMAND is ASCII without
blanks. -/
theorem render_terminal_safe (procs : List Process)
    (hcells : ∀ p ∈ procs, ∀ f ∈ p.files, Cells Printable f) (t : TableOpts) (o : FieldOpts) :
    Lined (t.render procs) ∧ Tokened o (o.render procs) ∧
      ∀ row ∈ t.rows procs, ∃ command rest, row = command :: rest ∧ Graphic command := by
  refine ⟨t.lined_render hcells, tokened_render o hcells, fun cells hrow => ?_⟩
  obtain ⟨row, -, rfl⟩ := mem_map.mp hrow
  exact ⟨_, _, rfl, t.esc.graphic_commandBytesTruncated _ _⟩

/-- A name that holds an escape sequence, marked as already printed. -/
theorem render_terminal_safe_forged :
    let file : OpenFile :=
      { fd := .handle 3, fileType := .regular, name := "p\x1b[2J".toList, nameAddition := some ⟨1, true, by decide⟩ }
    let procs : List Process := [{ pid := 1, command := "\x1b c".toList, files := [file] }]
    Lined (TableOpts.render { esc := { backslash := true } } procs) := by
  intro file procs
  have hfile : Cells Printable file := ⟨by decide, nofun, nofun⟩
  have hcells : ∀ p ∈ procs, ∀ f ∈ p.files, Cells Printable f := by
    simp [procs, hfile]
  exact (render_terminal_safe procs hcells { esc := { backslash := true } } { esc := { backslash := true } }).1

end Lsof.Render
