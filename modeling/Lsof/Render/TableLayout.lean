import Lsof.Render.CommandCut
import Lsof.Render.Safety

/-! # The layout of the table

Every column is sized to its widest cell in bytes before a line is printed. So
all that comes before NAME takes the same number of bytes in every row, although
right-aligned cells are padded by bytes and left-aligned ones by characters.
-/

namespace Lsof.Render

open Lsof.Basis Lsof.Core List

def gap (i : Nat) (col : Col) : Text := if 0 < i ∧ col.glued = false then [' '] else []

def padded (width : Nat) (col : Col) (cell : Text) : Text :=
  if col.right then List.replicate (width - cell.byteLen) ' ' ++ cell
  else cell ++ List.replicate (width - cell.length) ' '

/-- A cell its column is wide enough for. A left-aligned one is ASCII, so that
its characters are its bytes. -/
def Fits (width : Nat) (col : Col) (cell : Text) : Prop :=
  cell.byteLen ≤ width ∧ (col.right = false → cell.byteLen = cell.length)

theorem byteLen_blanks (k : Nat) : Text.byteLen (List.replicate k ' ') = k := by
  induction k with
  | zero => rfl
  | succ k ih =>
    rw [replicate_succ, Text.byteLen_cons, ih, Nat.add_comm]
    rfl

theorem byteLen_padded {width : Nat} {col : Col} {cell : Text} (h : Fits width col cell) :
    (padded width col cell).byteLen = width := by
  obtain ⟨hwide, hascii⟩ := h
  unfold padded
  split
  next =>
    rw [Text.byteLen_append, byteLen_blanks]
    omega
  next hleft =>
    have hlen := hascii (Bool.eq_false_of_not_eq_true hleft)
    rw [Text.byteLen_append, byteLen_blanks, ← hlen]
    omega

def leadWidth (i : Nat) : List (Nat × Col) → Nat
  | [] => 0
  | (width, col) :: rest => (gap i col).byteLen + width + leadWidth (i + 1) rest

theorem byteLen_lead {entries : List (Text × Nat × Col)} (h : ∀ e ∈ entries, Fits e.2.1 e.2.2 e.1) (i : Nat) :
    Text.byteLen ((entries.zipIdx i).flatMap fun e => gap e.2 e.1.2.2 ++ padded e.1.2.1 e.1.2.2 e.1.1) =
      leadWidth i (entries.map Prod.snd) := by
  induction entries generalizing i with
  | nil => rfl
  | cons e entries ih =>
    obtain ⟨hfirst, hrest⟩ := forall_mem_cons.mp h
    rw [zipIdx_cons, flatMap_cons, Text.byteLen_append, Text.byteLen_append, ih hrest, byteLen_padded hfirst]
    rfl

variable {cells : List Text} {cols : List Col}

theorem emitLine_concat {widths : List Nat}
    (hwidths : widths.length = cells.length) (hcols : cols.length = cells.length)
    (name : Text) (width : Nat) (col : Col) :
    emitLine (cells ++ [name]) (widths ++ [width]) (cols ++ [col]) =
      ((cells.zip (widths.zip cols)).zipIdx.flatMap fun e => gap e.2 e.1.2.2 ++ padded e.1.2.1 e.1.2.2 e.1.1) ++
        gap cells.length col ++ name ++ ['\n'] := by
  have hzip : (cells ++ [name]).zip ((widths ++ [width]).zip (cols ++ [col])) =
      cells.zip (widths.zip cols) ++ [(name, width, col)] := by
    rw [zip_append (hwidths.trans hcols.symm), zip_append (by rw [length_zip]; omega)]
    rfl
  have hlen : (cells.zip (widths.zip cols)).length = cells.length := by
    rw [length_zip, length_zip]
    omega
  have hlast : (cols ++ [col]).length - 1 = cells.length := by
    rw [length_append, length_singleton]
    omega
  unfold emitLine
  rw [hzip, zipIdx_append, flatMap_append, hlast, Nat.zero_add, hlen]
  congr 1
  rw [append_assoc]
  congr 1
  · refine flatMap_congr fun e he => ?_
    rcases e with ⟨⟨cell, w, k⟩, i⟩
    have hlt := snd_lt_of_mem_zipIdx he
    rw [Nat.add_zero, hlen] at hlt
    dsimp only at hlt ⊢
    rw [if_neg (Nat.ne_of_lt hlt)]
    rfl
  · rw [zipIdx_singleton, flatMap_singleton]
    exact congrArg _ (if_pos rfl)

def Covers (widths : List Nat) (row : List Text) : Prop :=
  ∀ (i : Nat) (cell : Text), row[i]? = some cell → ∃ w, widths[i]? = some w ∧ cell.byteLen ≤ w

def grow (widths : List Nat) (row : List Text) : List Nat :=
  widths.zipWith (fun w cell => max w cell.byteLen) row

section Growing

variable {widths : List Nat} {row : List Text} (hlen : row.length = widths.length)

include hlen

theorem length_grow : (grow widths row).length = widths.length := by
  rw [grow, length_zipWith]
  omega

theorem grow_getElem? {i w : Nat} (h : widths[i]? = some w) :
    ∃ cell, row[i]? = some cell ∧ (grow widths row)[i]? = some (max w cell.byteLen) := by
  have hi := (List.getElem?_eq_some_iff.mp h).1
  have hcell : row[i]? = some row[i] := getElem?_eq_getElem (by omega)
  refine ⟨row[i], hcell, ?_⟩
  rw [grow, getElem?_zipWith, h, hcell]

theorem covers_grow {other : List Text} (h : Covers widths other) : Covers (grow widths row) other := by
  intro i cell hcell
  obtain ⟨w, hw, hle⟩ := h i cell hcell
  obtain ⟨c, -, hgrown⟩ := grow_getElem? hlen hw
  exact ⟨_, hgrown, Nat.le_trans hle (Nat.le_max_left _ _)⟩

theorem covers_grow_self : Covers (grow widths row) row := by
  intro i cell hcell
  have hi := (List.getElem?_eq_some_iff.mp hcell).1
  obtain ⟨c, hc, hgrown⟩ := grow_getElem? hlen (getElem?_eq_getElem (i := i) (by omega))
  obtain rfl := Option.some.inj (hc.symm.trans hcell)
  exact ⟨_, hgrown, Nat.le_max_right _ _⟩

end Growing

theorem covers_foldl {rows : List (List Text)} {widths : List Nat} (hlen : ∀ row ∈ rows, row.length = widths.length) :
    (rows.foldl grow widths).length = widths.length ∧
      (∀ row, Covers widths row → Covers (rows.foldl grow widths) row) ∧
      ∀ row ∈ rows, Covers (rows.foldl grow widths) row := by
  induction rows generalizing widths with
  | nil => exact ⟨rfl, fun _ h => h, fun _ h => absurd h not_mem_nil⟩
  | cons row rows ih =>
    obtain ⟨hrow, hrows⟩ := forall_mem_cons.mp hlen
    have hgrown := length_grow hrow
    obtain ⟨hlength, hkeep, hall⟩ := @ih (grow widths row) fun r hr => (hrows r hr).trans hgrown.symm
    refine ⟨hlength.trans hgrown, fun r hr => hkeep r (covers_grow hrow hr), ?_⟩
    exact forall_mem_cons.mpr ⟨hkeep row (covers_grow_self hrow), hall⟩

/-- What a cell printed by characters needs, to take its width in bytes. -/
def Aligned (cell : Text) (col : Col) : Prop := col.right = false → cell.byteLen = cell.length

theorem aligned_if {c : Prop} [Decidable c] (h : List.Forall₂ Aligned cells cols) :
    List.Forall₂ Aligned (if c then cells else []) (if c then cols else []) := by
  split
  · exact h
  · exact .nil

theorem aligned_right (cell : Text) {col : Col} (h : col.right = true) : Aligned cell col :=
  fun hleft => absurd (h.symm.trans hleft) (by decide)

theorem aligned_fdMode (f : OpenFile) (col : Col) : Aligned (fdMode f) col := by
  have hascii : ∀ c d : Char, c.utf8Size = 1 → d.utf8Size = 1 →
      Text.byteLen [c, d] = List.length [c, d] := by
    intro c d hc hd
    rw [Text.byteLen_cons, Text.byteLen_cons, hc, hd]
    rfl
  have haccess : (fdAccess f).utf8Size = 1 := by
    unfold fdAccess
    split
    · rfl
    · rename_i mode _
      cases f.access <;> rfl
    · rfl
  intro _
  unfold fdMode
  split
  · exact hascii _ _ haccess rfl
  · rename_i lock _
    refine hascii _ _ ?_ (by cases lock <;> rfl)
    split
    · rfl
    · exact haccess

theorem fits_of_covers {widths : List Nat} {name : Text} {width : Nat}
    (hcover : Covers (widths ++ [width]) (cells ++ [name])) (hlen : widths.length = cells.length)
    (haligned : List.Forall₂ Aligned cells cols) : ∀ e ∈ cells.zip (widths.zip cols), Fits e.2.1 e.2.2 e.1 := by
  intro e he
  obtain ⟨i, hi⟩ := mem_iff_getElem?.mp he
  obtain ⟨hcell, hrest⟩ := getElem?_zip_eq_some.mp hi
  obtain ⟨hwidth, hcol⟩ := getElem?_zip_eq_some.mp hrest
  have hlt := (List.getElem?_eq_some_iff.mp hcell).1
  obtain ⟨w, hw, hle⟩ := hcover i e.1 (by rw [getElem?_append_left hlt]; exact hcell)
  rw [getElem?_append_left (by omega), hwidth] at hw
  obtain rfl := Option.some.inj hw
  have hpair : (e.1, e.2.2) ∈ cells.zip cols :=
    mem_of_getElem? (getElem?_zip_eq_some.mpr ⟨hcell, hcol⟩)
  exact ⟨hle, (forall₂_iff_zip.mp haligned).2 hpair⟩

namespace TableOpts

variable (o : TableOpts)

theorem rowFor_aligned (procs : List Process) (p : Process) (f : OpenFile) :
    ∃ cells cols, o.rowFor procs p f = cells ++ [f.printedName o.esc ++ tcpSuffix f o.tcpShow] ∧
      o.cols (showTasks procs) = cols ++ [Col.leftAligned "NAME".toList] ∧ List.Forall₂ Aligned cells cols := by
  refine ⟨_, _, (append_assoc _ [f.node.getD []] _).symm,
    (append_assoc _ [Col.rightAligned "NODE".toList] _).symm, ?_⟩
  have hcommand : Aligned (o.esc.commandBytesTruncated p.commandBytes (o.cmdCut procs))
      (Col.leftAligned "COMMAND".toList) :=
    fun _ => Escaper.byteLen_of_graphic (o.esc.graphic_commandBytesTruncated _ _)
  have htask : Aligned ((p.taskCommand.map (o.esc.commandTruncated · (o.taskCut procs))).getD [])
      (Col.leftAligned "TASKCMD".toList) := by
    intro _
    cases p.taskCommand with
    | none => rfl
    | some c => exact Escaper.byteLen_of_graphic (o.esc.graphic_commandTruncated c _)
  have hright : ∀ cell title, Aligned cell (Col.rightAligned title) :=
    fun cell _ => aligned_right cell rfl
  have hone : ∀ cell title, List.Forall₂ Aligned [cell] [Col.rightAligned title] :=
    fun cell title => .cons (hright cell title) .nil
  refine rel_append (rel_append (rel_append (rel_append (rel_append
    (rel_append (rel_append (rel_append ?_ ?_) ?_) ?_) ?_) ?_) ?_) ?_) (hone _ _)
  · exact .cons hcommand (hone _ _)
  · exact aligned_if (.cons (hright _ _) (.cons htask .nil))
  · exact aligned_if (hone _ _)
  · exact aligned_if (hone _ _)
  · exact .cons (hright _ _) (.cons (aligned_right _ rfl) (.cons (aligned_fdMode f _) (hone _ _)))
  · exact aligned_if (hone _ _)
  · exact .cons (hright _ _) (hone _ _)
  · exact aligned_if (hone _ _)

theorem length_rowFor (procs : List Process) (p : Process) (f : OpenFile) :
    (o.rowFor procs p f).length = (o.cols (showTasks procs)).length := by
  obtain ⟨cells, cols, hrow, hcols, haligned⟩ := o.rowFor_aligned procs p f
  rw [hrow, hcols, length_append, length_append, haligned.length_eq]
  rfl

theorem covers_widths (procs : List Process) :
    (o.widths procs).length = (o.cols (showTasks procs)).length ∧
      ∀ row ∈ o.rows procs, Covers (o.widths procs) row := by
  have hlen : ∀ row ∈ o.rows procs, row.length =
      ((o.cols (showTasks procs)).map fun c => if c.seeded then c.title.byteLen else 0).length := by
    intro row hrow
    obtain ⟨pf, -, rfl⟩ := mem_map.mp hrow
    rw [length_rowFor, length_map]
  obtain ⟨hlength, -, hall⟩ := covers_foldl hlen
  rw [length_map] at hlength
  exact ⟨hlength, hall⟩

def nameCell (f : OpenFile) : Text := f.printedName o.esc ++ tcpSuffix f o.tcpShow

/-- Where NAME begins: after all columns before it, and the blank. -/
def nameOffset (procs : List Process) : Nat :=
  let cols := o.cols (showTasks procs)
  leadWidth 0 ((o.widths procs).dropLast.zip cols.dropLast) +
    (gap (cols.length - 1) (Col.leftAligned "NAME".toList)).byteLen

variable {procs : List Process}

theorem emitLine_rowFor {p : Process} {f : OpenFile} (h : (p, f) ∈ rowsOf procs) :
    ∃ lead, emitLine (o.rowFor procs p f) (o.widths procs) (o.cols (showTasks procs)) =
        lead ++ o.nameCell f ++ ['\n'] ∧ lead.byteLen = o.nameOffset procs := by
  obtain ⟨cells, cols, hrow, hcols, haligned⟩ := o.rowFor_aligned procs p f
  obtain ⟨hlength, hcovers⟩ := o.covers_widths procs
  have hcover := hcovers _ (mem_map.mpr ⟨(p, f), h, rfl⟩)
  rw [hcols, length_append, length_singleton] at hlength
  obtain ⟨widths, width, hwidths⟩ : ∃ ws w, o.widths procs = ws ++ [w] :=
    ⟨_, _, (dropLast_append_getLast (ne_nil_of_length_eq_add_one hlength)).symm⟩
  rw [hwidths, length_append, length_singleton] at hlength
  have hlens : widths.length = cells.length ∧ cols.length = cells.length := by
    have hsame := haligned.length_eq
    omega
  rw [hrow, hwidths] at hcover
  have hline := emitLine_concat hlens.1 hlens.2 (o.nameCell f) width (Col.leftAligned "NAME".toList)
  rw [nameOffset, hrow, hwidths, hcols]
  refine ⟨_, hline, ?_⟩
  rw [Text.byteLen_append, byteLen_lead (fits_of_covers hcover hlens.1 haligned)]
  simp only [dropLast_concat, length_append, length_singleton, Nat.add_sub_cancel]
  rw [map_snd_zip (by rw [length_zip]; omega), hlens.2]

theorem rowsOf_eq_nil : rowsOf procs = [] ↔ procs = [] := by
  constructor
  · intro h
    cases procs with
    | nil => rfl
    | cons p procs =>
      have hempty := (append_eq_nil_iff.mp h).1
      cases hfiles : p.files <;> simp [hfiles] at hempty
  · rintro rfl
    rfl

theorem length_rowsOf (procs : List Process) :
    (rowsOf procs).length = (procs.map fun p => max 1 p.files.length).sum := by
  induction procs with
  | nil => rfl
  | cons p procs ih =>
    have hfirst : ((if p.files.isEmpty then [blank] else p.files).map fun f => (p, f)).length =
        max 1 p.files.length := by
      cases hfiles : p.files with
      | nil => rfl
      | cons f files =>
        rw [length_map, isEmpty_cons, if_neg Bool.false_ne_true, length_cons]
        omega
    rw [map_cons, sum_cons, ← ih, ← hfirst, ← length_append]
    rfl

def Shows (procs : List Process) (row : Process × OpenFile) (line : Text) : Prop :=
  ∃ lead : Text, line = lead ++ o.nameCell row.2 ∧ lead.byteLen = o.nameOffset procs

theorem exists_lines (hcells : ∀ row ∈ o.rows procs, ∀ cell ∈ row, '\n' ∉ cell)
    {rows : List (Process × OpenFile)} (hrows : ∀ row ∈ rows, row ∈ rowsOf procs) :
    ∃ data : List Text, ((rows.map fun row => o.rowFor procs row.1 row.2).flatMap fun row =>
        emitLine row (o.widths procs) (o.cols (showTasks procs))) = (data.flatMap fun line => line ++ ['\n']) ∧
      (∀ line ∈ data, '\n' ∉ line) ∧ List.Forall₂ (o.Shows procs) rows data := by
  induction rows with
  | nil => exact ⟨[], rfl, fun _ h => absurd h not_mem_nil, .nil⟩
  | cons row rows ih =>
    obtain ⟨hrow, hrest⟩ := forall_mem_cons.mp hrows
    obtain ⟨data, hdata, hclean, hshows⟩ := ih hrest
    obtain ⟨lead, hline, hlead⟩ := o.emitLine_rowFor hrow
    have hfree := hcells _ (mem_map.mpr ⟨row, hrow, rfl⟩)
    obtain ⟨shown, hshown, hshownFree⟩ := exists_emitLine (P := (· ≠ '\n')) (by decide)
      (o.widths procs) (o.cols (showTasks procs)) fun cell hcell c hc heq => hfree cell hcell (heq ▸ hc)
    have heq : shown = lead ++ o.nameCell row.2 := append_cancel_right (hshown.symm.trans hline)
    refine ⟨shown :: data, ?_, forall_mem_cons.mpr ⟨fun h => hshownFree _ h rfl, hclean⟩,
      .cons ⟨lead, heq, hlead⟩ hshows⟩
    rw [map_cons, flatMap_cons, hdata, hshown, flatMap_cons]

/-- The table is its title line and a line for each row; NAME begins at the
same byte in every row. -/
theorem render_layout (procs : List Process) (hterse : o.terse = false)
    (hcells : ∀ row ∈ o.rows procs, ∀ cell ∈ row, '\n' ∉ cell) :
    (procs = [] → o.render procs = []) ∧
    (procs ≠ [] → ∃ (header : Text) (data : List Text) (offset : Nat),
      o.render procs = ((header :: data).flatMap fun line => line ++ ['\n']) ∧
      (∀ line ∈ header :: data, '\n' ∉ line) ∧
      data.length = (procs.map fun p => max 1 p.files.length).sum ∧
      List.Forall₂ (fun row line => ∃ lead : Text, line = lead ++ o.nameCell row.2 ∧ lead.byteLen = offset)
        (rowsOf procs) data) ∧
    (∀ row ∈ o.rows procs, ∀ cell, row.head? = some cell → cell.byteLen ≤ o.cmdCut procs) ∧
    ∀ row ∈ o.rows procs, ∀ (i : Nat) cell, row[i]? = some cell →
      ∃ w, (o.widths procs)[i]? = some w ∧ cell.byteLen ≤ w := by
  refine ⟨?_, ?_, ?_, (o.covers_widths procs).2⟩
  · rintro rfl
    rw [render, if_neg (by simp [hterse])]
    rfl
  · intro hprocs
    have hsome : (rowsOf procs).isEmpty = false :=
      List.isEmpty_eq_false_iff.mpr fun h => hprocs (rowsOf_eq_nil.mp h)
    obtain ⟨header, hheader, htitles⟩ := exists_emitLine (P := (isUnprintableUnicode · = false)) (by decide)
      (o.widths procs) (o.cols (showTasks procs)) (o.printable_titles (showTasks procs))
    obtain ⟨data, hdata, hclean, hshows⟩ := o.exists_lines hcells fun _ h => h
    have hheaderClean : '\n' ∉ header := fun h => absurd (htitles _ h) (by decide)
    refine ⟨header, data, o.nameOffset procs, ?_, forall_mem_cons.mpr ⟨hheaderClean, hclean⟩, ?_, hshows⟩
    · rw [render, if_neg (by simp [hterse]), if_neg (by simp [hsome])]
      dsimp only
      rw [hheader, flatMap_cons, ← hdata]
      rfl
    · rw [← hshows.length_eq, length_rowsOf]
  · intro row hrow cell hcell
    obtain ⟨pf, -, rfl⟩ := mem_map.mp hrow
    obtain rfl := Option.some.inj hcell
    exact o.esc.byteLen_commandBytesTruncated_le _ _

/-- A login of more bytes than characters beside a process without files. -/
theorem render_layout_two :
    let o : TableOpts := { esc := { backslash := true } }
    let file : OpenFile := { fd := .handle 3, fileType := .regular, name := "/tmp/ö".toList }
    let procs : List Process :=
      [{ pid := 1, command := "sh é".toList, user := some "jöhn".toList, files := [file] }, { pid := 22 }]
    ∃ (header : Text) (data : List Text), o.render procs = (header :: data).flatMap (· ++ ['\n']) ∧
      data.length = 2 := by
  intro o file procs
  have hcells : ∀ row ∈ o.rows procs, ∀ cell ∈ row, '\n' ∉ cell := by decide +kernel
  obtain ⟨-, hlines, -⟩ := o.render_layout procs rfl hcells
  obtain ⟨header, data, -, hrender, -, hlen, -⟩ := hlines (by decide)
  exact ⟨header, data, hrender, hlen⟩

end TableOpts

end Lsof.Render
