import Lsof.Linux.UnixPaths
import Lsof.Render.Safety

/-! # The rows of UNIX sockets

A row takes its DEVICE from the first column of the line its entry was read
from, and DEVICE is printed as it is. That column is the kernel's, but a line
that a newline in a bound path begins has whatever first column the path gives
it, and the last line of an inode is the one that counts.
-/

namespace Lsof.Linux

open Lsof.Basis Lsof.Core Lsof.Render List

/-- What a descriptor's `fdinfo` says that a socket's row shows. -/
structure FdInfo where
  access : Option AccessMode := none
  flags : Option Nat := none
  deriving DecidableEq, Repr

/-- What a row is built from besides the tables: how an Internet socket's
addresses are shown, and what a path argument finds a bound path by, where one
was given. -/
structure RowContext where
  displayName : SocketInfo → Text
  boundPaths : Bool := false
  boundId : BitVec 64 → Option FileId := fun _ => none

def SocketEntry.rowName (ctx : RowContext) (e : SocketEntry) : Text :=
  match e.name, e.typeSuffix, e.info with
  | some name, _, _ => name
  | none, some tail, _ =>
    match e.path with
    | some path => path ++ ' ' :: tail
    | none => tail
  | none, none, some info => ctx.displayName info
  | none, none, none => []

def boundTo? (ctx : RowContext) (tbl : SocketTable) (inode : BitVec 64) (e : SocketEntry)
    (info : SocketInfo) : SocketInfo :=
  if ctx.boundPaths then
    { info with
      bound := e.path.map fun path =>
        { path := if (tbl.rawPaths inode).isNone then some path else none, id := ctx.boundId inode } }
  else info

def socketRow (ctx : RowContext) (tbl : SocketTable) (inode : BitVec 64) (fd : FdType) (info : FdInfo) :
    Option OpenFile :=
  (tbl.byInode inode).map fun e =>
    { fd
      access := info.access.getD .unknown
      fileType := e.fileType
      name := e.rowName ctx
      device := e.device
      offset := some 0
      node := some e.node
      fileFlags := info.flags
      socket := e.info.map (boundTo? ctx tbl inode e) }

def lineFields (line : Text) : Option (BitVec 64 × List Text) :=
  (lineEntry line).map fun e => (e.1, Text.fieldsWithRest line (unixPath + 1))

def fieldsOf (bytes : Bytes) : List (BitVec 64 × List Text) :=
  ((Utf8.decodeLossy bytes).lines.drop 1).filterMap lineFields

theorem lineEntry_eq (line : Text) : lineEntry line = (lineFields line).map fun e => (e.1, unixEntry e.2 e.1) := by
  unfold lineFields lineEntry
  dsimp only
  split
  next => rfl
  next =>
    rw [Option.map_map, Option.map_map]
    rfl

theorem entriesOf_eq (bytes : Bytes) :
    entriesOf (Utf8.decodeLossy bytes) = (fieldsOf bytes).map fun e => (e.1, unixEntry e.2 e.1) := by
  rw [entriesOf, fieldsOf, map_filterMap]
  exact congrArg (List.filterMap · _) (funext lineEntry_eq)

theorem socketRow_unix (ctx : RowContext) (tbl : SocketTable) {bytes : Bytes} {inode : BitVec 64}
    {fields : List Text} (h : lastOf inode (fieldsOf bytes) = some fields) (fd : FdType) (info : FdInfo) :
    ∃ row, socketRow ctx (parseUnixBytes tbl bytes) inode fd info = some row ∧
      row.fileType = .unix ∧ row.fsDevice = none ∧
      row.device = some ("0x".toList ++ Text.trimEndMatches ':' (fields.getD 0 [])) ∧
      row.node = some (Text.ofNat inode.toNat) := by
  have hentry : (parseUnixBytes tbl bytes).byInode inode = some (unixEntry fields inode) := by
    rw [parseUnixBytes_eq]
    dsimp only
    rw [updateAll_apply, entriesOf_eq, lastOf_map (fun inode fields => unixEntry fields inode), h]
    rfl
  rw [socketRow, hentry]
  exact ⟨_, rfl, rfl, rfl, rfl, rfl⟩

theorem solid_address {bytes : Bytes} {inode : BitVec 64} {fields : List Text}
    (h : lastOf inode (fieldsOf bytes) = some fields) : Text.Solid (fields.getD 0 []) := by
  obtain ⟨line, -, hline⟩ := mem_filterMap.mp (mem_of_lastOf h)
  obtain ⟨e, hentry, heq⟩ := Option.map_eq_some_iff.mp hline
  cases heq
  refine Text.solid_of_columns ?_
  unfold lineEntry at hentry
  dsimp only at hentry
  split at hentry
  next => cases hentry
  next hlen => exact Nat.lt_of_lt_of_le (by decide) (Nat.le_of_not_lt hlen)

theorem printable_trimEnd {t : Text} : Printable (Text.trimEndMatches ':' t) ↔ Printable t := by
  have hcolons : Printable (t.rtakeWhile (· == ':')) := fun c hc => by
    have hcolon : (c == ':') = true := @List.mem_rtakeWhile_imp _ (· == ':') t c hc
    rw [beq_iff_eq.mp hcolon]
    decide
  have hsplit : Text.trimEndMatches ':' t ++ t.rtakeWhile (· == ':') = t :=
    rdropWhile_append_rtakeWhile
  constructor
  · intro h
    exact hsplit ▸ printable_append.mpr ⟨h, hcolons⟩
  · intro h
    exact (printable_append.mp (hsplit.symm ▸ h)).1

theorem printable_or_term {o : FieldOpts} {out : Text} (h : Tokened o out) {c : Char} (hc : c ∈ out) :
    isUnprintableUnicode c = false ∨ c = o.term ∨ c = '\n' := by
  obtain ⟨sets, rfl, hsets⟩ := h
  obtain ⟨set, hset, hc⟩ := mem_flatMap.mp hc
  rcases mem_append.mp hc with hc | hc
  · obtain ⟨t, ht, hc⟩ := mem_flatMap.mp hc
    rcases mem_append.mp hc with hc | hc
    · exact .inl (hsets set hset t ht c hc)
    · exact .inr (.inl (mem_singleton.mp hc))
  · split at hc
    · exact .inr (.inr (mem_singleton.mp hc))
    · exact absurd hc not_mem_nil

theorem mem_render_of_field {o : FieldOpts} {procs : List Process} {set : List (Char × Text)}
    (hset : set ∈ o.sets procs) {field : Char × Text} (hfield : field ∈ set) {c : Char}
    (hc : c ∈ field.2) : c ∈ o.render procs := by
  rw [o.render_eq]
  refine mem_flatMap.mpr ⟨set, hset, mem_append_left _ (mem_flatMap.mpr ⟨field, hfield, ?_⟩)⟩
  exact mem_append_left _ (mem_cons_of_mem _ hc)

/-- `-F d`: DEVICE and nothing else that has a choice. -/
def onlyDevice : FieldOpts := { only := some ['d'], esc := { backslash := true } }

theorem mem_fileFields_device {row : OpenFile} {device : Text} (hfs : row.fsDevice = none)
    (h : row.device = some device) : ('d', device) ∈ onlyDevice.fileFields row := by
  have hfield : onlyDevice.field 'd' (deviceText row) = [('d', device)] := by
    rw [deviceText, hfs, h]
    rfl
  unfold FieldOpts.fileFields
  rw [hfield]
  simp only [mem_append, mem_singleton, true_or, or_true]

variable {row : OpenFile} {column : Text}

theorem clean_iff (htype : row.fileType = .unix) (hfs : row.fsDevice = none)
    (hdevice : row.device = some ("0x".toList ++ Text.trimEndMatches ':' column))
    {n : Nat} (hnode : row.node = some (Text.ofNat n)) (hsolid : column.Solid) :
    (∀ (p : Process) (t : TableOpts) (o : FieldOpts),
        Lined (t.render [{ p with files := [row] }]) ∧ Tokened o (o.render [{ p with files := [row] }])) ↔
      Printable column := by
  constructor
  · intro h
    have htokens := (h { pid := 1 } { esc := { backslash := true } } onlyDevice).2
    rw [← printable_trimEnd]
    intro c hc
    have hset : onlyDevice.fileFields row ∈ onlyDevice.sets [{ pid := 1, files := [row] }] := by
      simp [FieldOpts.sets]
    have hout := mem_render_of_field hset (mem_fileFields_device hfs hdevice)
      (mem_append_right "0x".toList hc)
    have hnl : c ≠ '\n' := by
      rintro rfl
      have hspace := hsolid _ ((List.rdropWhile_prefix _ _).subset hc)
      exact absurd hspace (by decide)
    rcases printable_or_term htokens hout with hclean | hterm | hend
    · exact hclean
    · exact absurd hterm hnl
    · exact absurd hend hnl
  · intro hcolumn p t o
    have hcells : Cells Printable row := by
      refine ⟨by rw [htype]; decide, fun device h => ?_, fun node h => ?_⟩
      · rw [hdevice] at h
        exact Option.some.inj h ▸ printable_append.mpr ⟨by decide, printable_trimEnd.mpr hcolumn⟩
      · rw [hnode] at h
        exact Option.some.inj h ▸ printable_ofNat n
    have hall : ∀ q ∈ [{ p with files := [row] }], ∀ f ∈ q.files, Cells Printable f := by
      simp [hcells]
    exact ⟨t.lined_render hall, tokened_render o hall⟩

variable (ctx : RowContext) (tbl : SocketTable) {bytes : Bytes} {inode : BitVec 64} {fields : List Text}
  (fd : FdType) (info : FdInfo)

/-- The row of a socket the table lists prints clean exactly where the first
column of the last line that is an entry for its inode is printable: of all
that the row takes from the table this is what no renderer escapes. -/
theorem socketRow_clean_iff (h : lastOf inode (fieldsOf bytes) = some fields) :
    (∃ row, socketRow ctx (parseUnixBytes tbl bytes) inode fd info = some row ∧
      ∀ (p : Process) (t : TableOpts) (o : FieldOpts),
        Lined (t.render [{ p with files := [row] }]) ∧ Tokened o (o.render [{ p with files := [row] }])) ↔
      Printable (fields.getD 0 []) := by
  obtain ⟨row, hrow, htype, hfs, hdevice, hnode⟩ := socketRow_unix ctx tbl h fd info
  have hclean := clean_iff htype hfs hdevice hnode (solid_address h)
  constructor
  · intro hprints
    obtain ⟨row', hrow', hprints⟩ := hprints
    cases hrow.symm.trans hrow'
    exact hclean.mp hprints
  · intro hcolumn
    exact ⟨row, hrow, hclean.mpr hcolumn⟩

/-- A path whose second line is an entry for the socket that is bound to it. -/
def forgedTable : Bytes :=
  kernelTable [listening 7 (some (Text.bytes "/a\n\x1b[2J 0 0 0 1 1 7".toList))]

/-- The escape that clears a screen is in the table and in the `-F` stream. -/
theorem socketRow_prints_escape :
    ∃ row ∈ socketRow { displayName := fun _ => [] } (parseUnixBytes {} forgedTable) 7 (.handle 3) {},
      '\x1b' ∈ TableOpts.render { esc := { backslash := true } } [{ pid := 1, files := [row] }] ∧
        '\x1b' ∈ onlyDevice.render [{ pid := 1, files := [row] }] := by
  decide +kernel

/-- A path of escapes on one line does no harm: NAME is escaped. -/
theorem socketRow_clean_one_line :
    ∃ row, socketRow { displayName := fun _ => [] }
        (parseUnixBytes {} (kernelTable [listening 7 (some [0x2F, 0x1B, 0xFF])])) 7 (.handle 3) {} = some row ∧
      ∀ (p : Process) (t : TableOpts) (o : FieldOpts),
        Lined (t.render [{ p with files := [row] }]) ∧ Tokened o (o.render [{ p with files := [row] }]) := by
  have hlast : lastOf 7 (fieldsOf (kernelTable [listening 7 (some [0x2F, 0x1B, 0xFF])])) =
      some (["ffff888003a2c000:", "00000002", "00000000", "00010000", "0001", "01", "7",
        "/\x1b\uFFFD"].map String.toList) := by
    decide +kernel
  exact (socketRow_clean_iff { displayName := fun _ => [] } {} (.handle 3) {} hlast).mpr (by decide)

end Lsof.Linux
