import Lsof.Linux.UnixTable

/-! # What the table of UNIX sockets says of a socket

A line enters at most one socket, and the last line with an inode is the one
that counts. For the kernel's table this settles which bound paths come back as
they are, and what one socket's path can do to the entry of another: nothing
by itself, and anything once it has a newline in it, since what follows it is
read as lines of the table.
-/

namespace Lsof.Linux

open Lsof.Basis Lsof.Core List

def entriesOf (text : Text) : List (BitVec 64 × SocketEntry) := (text.lines.drop 1).filterMap lineEntry

def rawPathsOf (bytes : Bytes) : List (BitVec 64 × Bytes) := ((rawLines bytes).drop 1).filterMap lineRaw

theorem parseUnix_eq (tbl : SocketTable) (text : Text) :
    parseUnix tbl text = { tbl with byInode := updateAll tbl.byInode (entriesOf text) } := by
  unfold parseUnix entriesOf
  generalize text.lines.drop 1 = lines
  induction lines generalizing tbl with
  | nil => rfl
  | cons line lines ih =>
    rw [foldl_cons, ih, filterMap_cons, parseLine]
    cases lineEntry line <;> rfl

theorem keepRawUnixPaths_eq (tbl : SocketTable) (bytes : Bytes)
    (hentered : ∀ e ∈ rawPathsOf bytes, (tbl.byInode e.1).isSome = true) :
    keepRawUnixPaths tbl bytes = { tbl with rawPaths := updateAll tbl.rawPaths (rawPathsOf bytes) } := by
  unfold keepRawUnixPaths rawPathsOf at *
  generalize (rawLines bytes).drop 1 = lines at *
  induction lines generalizing tbl with
  | nil => rfl
  | cons line lines ih =>
    rw [filterMap_cons] at hentered ⊢
    rw [foldl_cons, keepRawPath]
    cases hraw : lineRaw line with
    | none =>
      rw [hraw] at hentered
      exact ih tbl hentered
    | some e =>
      rw [hraw] at hentered
      obtain ⟨hhead, htail⟩ := forall_mem_cons.mp hentered
      have hfold := ih { tbl with rawPaths := update tbl.rawPaths e.1 e.2 } htail
      show lines.foldl keepRawPath (if (tbl.byInode e.1).isSome = true then _ else _) = _
      rw [if_pos hhead, hfold]
      rfl

theorem lineEntry_of_fields {line : Text} {inode : BitVec 64}
    (hlen : unixInode < (Text.fieldsWithRest line (unixPath + 1)).length)
    (hinode : (Text.fieldsWithRest line (unixPath + 1))[unixInode]?.bind (Text.parseUnsigned 64) = some inode) :
    lineEntry line = some (inode, unixEntry (Text.fieldsWithRest line (unixPath + 1)) inode) := by
  rw [getElem?_eq_getElem hlen, Option.bind_some] at hinode
  unfold lineEntry
  dsimp only
  rw [if_neg (by omega), getD_eq_getElem?_getD, getElem?_eq_getElem hlen, Option.getD_some, hinode, Option.map_some]

variable {e : BitVec 64 × Bytes}

theorem lineRaw_fields {line : Bytes} (h : lineRaw line = some e) :
    unixPath < (Text.fieldsWithRest (Utf8.decodeLossy line) (unixPath + 1)).length ∧
      (Text.fieldsWithRest (Utf8.decodeLossy line) (unixPath + 1))[unixInode]?.bind
        (Text.parseUnsigned 64) = some e.1 := by
  unfold lineRaw at h
  split at h
  next => cases h
  next =>
    dsimp only at h
    split at h
    next inode path hinode hpath =>
      have hlen := (List.getElem?_eq_some_iff.mp hpath).1
      split at h
      next =>
        split at h
        next =>
          cases h
          exact ⟨hlen, hinode⟩
        next => cases h
      next => cases h
    next => cases h

theorem lineEntry_of_lineRaw {line : Bytes} (h : lineRaw line = some e)
    {text : Text} (htext : text = Utf8.decodeLossy line ∨ text = Text.stripCr (Utf8.decodeLossy line)) :
    ∃ entry, lineEntry text = some (e.1, entry) := by
  obtain ⟨hlen, hinode⟩ := lineRaw_fields h
  rcases htext with rfl | rfl
  · exact ⟨_, lineEntry_of_fields (Nat.lt_trans (by decide) hlen) hinode⟩
  · obtain ⟨hcols, hshort⟩ := Text.fieldsWithRest_stripCr (Nat.succ_pos _) (Nat.succ_le_of_lt hlen)
    have hcell := congrArg (fun f => f[unixInode]?) hcols
    rw [getElem?_take_of_lt (by decide), getElem?_take_of_lt (by decide)] at hcell
    exact ⟨_, lineEntry_of_fields (Nat.lt_of_lt_of_le (by decide) hshort) (hcell ▸ hinode)⟩

theorem entered_of_rawPathsOf {bytes : Bytes} (h : e ∈ rawPathsOf bytes) :
    (lastOf e.1 (entriesOf (Utf8.decodeLossy bytes))).isSome = true := by
  obtain ⟨line, hline, hraw⟩ := mem_filterMap.mp h
  have hne : Utf8.decodeLossy line ≠ [] := by
    intro hnil
    rw [Utf8.decodeLossy_eq_nil.mp hnil] at hraw
    cases hraw
  have hpart : Utf8.decodeLossy line ∈
      ((Utf8.decodeLossy bytes).splitOnP (· == '\n')).drop 1 := by
    rw [Utf8.splitOnP_decodeLossy, ← map_drop]
    exact mem_map_of_mem hline
  rcases Text.mem_lines_drop hpart hne with htext | htext
  · obtain ⟨entry, hentry⟩ := lineEntry_of_lineRaw hraw (.inl rfl)
    exact lastOf_isSome (mem_filterMap.mpr ⟨_, htext, hentry⟩)
  · obtain ⟨entry, hentry⟩ := lineEntry_of_lineRaw hraw (.inr rfl)
    exact lastOf_isSome (mem_filterMap.mpr ⟨_, htext, hentry⟩)

theorem parseUnixBytes_eq (tbl : SocketTable) (bytes : Bytes) :
    parseUnixBytes tbl bytes =
      { byInode := updateAll tbl.byInode (entriesOf (Utf8.decodeLossy bytes))
        rawPaths := updateAll tbl.rawPaths (rawPathsOf bytes) } := by
  unfold parseUnixBytes
  split
  next text hdecode =>
    have hraw : rawPathsOf bytes = [] := by
      refine filterMap_eq_nil_iff.mpr fun line hline => ?_
      have hvalid := Utf8.decode_rawLines (by rw [hdecode]; rfl) (mem_of_mem_drop hline)
      rw [lineRaw, if_pos hvalid]
    rw [parseUnix_eq, Utf8.decodeLossy_of_decode hdecode, hraw]
    rfl
  next =>
    rw [keepRawUnixPaths_eq, parseUnix_eq]
    intro e he
    rw [parseUnix_eq]
    dsimp only
    rw [updateAll_apply, Option.isSome_or, entered_of_rawPathsOf he, Bool.true_or]

/-- What a line of the table enters, read from its bytes. -/
def bytesEntry (line : Bytes) : Option (BitVec 64 × SocketEntry) :=
  lineEntry (Text.stripCr (Utf8.decodeLossy line))

theorem rawLines_kernelTable (sockets : List KernelSocket) :
    rawLines (kernelTable sockets) = tableHeader.bytes :: sockets.flatMap (fun s => rawLines s.line) ++ [[]] := by
  have hrows : rawLines (sockets.flatMap (fun s => s.line ++ [0x0A])) =
      sockets.flatMap (fun s => rawLines s.line) ++ [[]] := by
    induction sockets with
    | nil => rfl
    | cons s sockets ih =>
      rw [flatMap_cons, append_assoc, singleton_append, rawLines_append, ih, flatMap_cons, append_assoc]
  have hheader : (0x0A : UInt8) ∉ tableHeader.bytes := by decide
  rw [kernelTable, rawLines_append, hrows, rawLines_of_not_mem hheader, singleton_append, cons_append]

theorem entriesOf_kernelTable (sockets : List KernelSocket) :
    entriesOf (Utf8.decodeLossy (kernelTable sockets)) =
      sockets.flatMap (fun s => (rawLines s.line).filterMap bytesEntry) := by
  have hparts : (Utf8.decodeLossy (kernelTable sockets)).splitOnP (· == '\n') =
      (tableHeader.bytes :: sockets.flatMap (fun s => rawLines s.line)).map Utf8.decodeLossy ++
        [[]] := by
    rw [Utf8.splitOnP_decodeLossy, rawLines_kernelTable, map_append]
    rfl
  rw [entriesOf, Text.lines_of_terminated hparts, map_cons, map_cons, drop_one,
    tail_cons, map_map, filterMap_map, filterMap_flatMap]
  rfl

theorem rawPathsOf_kernelTable (sockets : List KernelSocket) :
    rawPathsOf (kernelTable sockets) = sockets.flatMap (fun s => (rawLines s.line).filterMap lineRaw) := by
  rw [rawPathsOf, rawLines_kernelTable, cons_append, drop_one, tail_cons, filterMap_append, filterMap_flatMap]
  exact append_nil _

namespace KernelSocket

variable (s : KernelSocket)

def typeTail : Text := "type=".toList ++ unixKind (some s.type.toNat)

def shownState : UnixState := unixStateOf (some s.flags.toNat) (some s.state.toNat)

def shownAddress : Text := "0x".toList ++ Text.hexPad Text.lowerHex 16 s.address.toNat

def fields : List Text :=
  [s.addressColumn, Text.hexPad Text.upperHex 8 s.refCount.toNat, Text.hexPad Text.upperHex 8 0,
    Text.hexPad Text.upperHex 8 s.flags.toNat, Text.hexPad Text.upperHex 4 s.type.toNat,
    Text.hexPad Text.upperHex 2 s.state.toNat, Text.ofNat s.inode.toNat]

theorem fieldsWithRest_columns {tail : Text} (htail : tail = [] ∨ Text.Spaced tail) :
    Text.fieldsWithRest (s.columns ++ tail) (unixPath + 1) = s.fields ++ Text.columns 0 (Text.trimStart tail) := by
  have hhex := fun w n => Text.solid_hexPad (.inl rfl : Text.upperHex = Text.upperHex ∨ _) w n
  have hne := fun w hw n => Text.hexPad_ne_nil Text.upperHex (w := w) hw n
  have haddress : s.addressColumn.Solid := by
    intro c hc
    rcases mem_append.mp hc with hc | hc
    · exact Text.solid_hexPad (.inr rfl) _ _ c hc
    · rw [mem_singleton.mp hc]
      decide
  have hinode := Text.solid_ofNat s.inode.toNat
  have hlast : Text.columns 1 (Text.ofNat s.inode.toNat ++ tail) =
      Text.ofNat s.inode.toNat :: Text.columns 0 (Text.trimStart tail) := by
    rcases htail with rfl | htail
    · rw [append_nil, Text.columns_last hinode (Text.ofNat_ne_nil _)]
      rfl
    · exact Text.columns_succ hinode htail
  unfold Text.fieldsWithRest columns
  simp only [append_assoc, cons_append]
  rw [Text.trimStart_of_solid haddress (by simp [addressColumn])]
  show Text.columns 7 _ = _
  rw [Text.columns_blank haddress, Text.trimStart_of_solid (hhex 8 _) (hne 8 (by decide) _),
    Text.columns_blank (hhex 8 _), Text.trimStart_of_solid (hhex 8 _) (hne 8 (by decide) _),
    Text.columns_blank (hhex 8 _), Text.trimStart_of_solid (hhex 8 _) (hne 8 (by decide) _),
    Text.columns_blank (hhex 8 _), Text.trimStart_of_solid (hhex 4 _) (hne 4 (by decide) _),
    Text.columns_blank (hhex 4 _), Text.trimStart_of_solid (hhex 2 _) (hne 2 (by decide) _),
    Text.columns_blank (hhex 2 _), Text.trimStart_padLeft hinode (Text.ofNat_ne_nil _), hlast]
  rfl

def entry (path : Option Text) : SocketEntry :=
  { fileType := .unix
    info := some { protocol := .other "unix".toList, state := some (.unix s.shownState) }
    path
    device := some s.shownAddress
    node := Text.ofNat s.inode.toNat
    name := none
    typeSuffix := some s.typeTail }

theorem unixEntry_fields (rest : List Text) : unixEntry (s.fields ++ rest) s.inode = s.entry rest.head? := by
  have hflags : Text.parseHex 32 (Text.hexPad Text.upperHex 8 s.flags.toNat) = some s.flags.toNat :=
    Text.parseHex_hexPad (.inl rfl) (by decide) s.flags.isLt s.flags.isLt
  have htype : Text.parseHex 32 (Text.hexPad Text.upperHex 4 s.type.toNat) = some s.type.toNat :=
    Text.parseHex_hexPad (.inl rfl) (by decide) s.type.isLt (Nat.lt_trans s.type.isLt (by decide))
  have hstate : Text.parseHex 32 (Text.hexPad Text.upperHex 2 s.state.toNat) = some s.state.toNat :=
    Text.parseHex_hexPad (.inl rfl) (by decide) s.state.isLt (Nat.lt_trans s.state.isLt (by decide))
  have hshown : unixState (Text.hexPad Text.upperHex 8 s.flags.toNat)
      (Text.hexPad Text.upperHex 2 s.state.toNat) = s.shownState :=
    congrArg₂ unixStateOf hflags hstate
  have htail : unixSuffix (Text.hexPad Text.upperHex 4 s.type.toNat) = s.typeTail :=
    congrArg ("type=".toList ++ unixKind ·) htype
  have hdevice : Text.trimEndMatches ':' s.addressColumn =
      Text.hexPad Text.lowerHex 16 s.address.toNat := by
    refine Text.trimEndMatches_concat fun hcolon => ?_
    have hdigit := Text.mem_hexPad (.inr rfl) hcolon
    exact absurd hdigit (by decide)
  have hpath : (s.fields ++ rest)[unixPath]? = rest.head? := by
    have hlen : s.fields.length = unixPath := rfl
    rw [← hlen, getElem?_append_right (Nat.le_refl _), Nat.sub_self, head?_eq_getElem?]
  have hcells : (s.fields ++ rest).getD 0 [] = s.addressColumn ∧
      (s.fields ++ rest).getD unixFlags [] = Text.hexPad Text.upperHex 8 s.flags.toNat ∧
      (s.fields ++ rest).getD unixType [] = Text.hexPad Text.upperHex 4 s.type.toNat ∧
      (s.fields ++ rest).getD unixStateColumn [] = Text.hexPad Text.upperHex 2 s.state.toNat :=
    ⟨rfl, rfl, rfl, rfl⟩
  simp only [unixEntry, hpath, hcells, hdevice, htail, hshown]
  rfl

theorem plain_columns : s.columns.Plain := by
  have hhex := fun w n => Text.plain_hexPad (.inl rfl : Text.upperHex = Text.upperHex ∨ _) w n
  have hblank : 0x20 ≤ (' ').toNat ∧ (' ').toNat < 0x7F := by decide
  have haddress : s.addressColumn.Plain :=
    Text.plain_append.mpr ⟨Text.plain_hexPad (.inr rfl) _ _, by decide⟩
  have hinode := (Text.plain_ofNat s.inode.toNat).padLeft 5
  unfold columns
  simp only [Text.plain_append, Text.plain_cons]
  exact ⟨haddress, hblank, hhex _ _, hblank, hhex _ _, hblank, hhex _ _, hblank, hhex _ _, hblank,
    hhex _ _, hblank, hinode⟩

theorem lineEntry_columns {tail : Text} (htail : tail = [] ∨ Text.Spaced tail) :
    lineEntry (s.columns ++ tail) = some (s.inode, s.entry (Text.columns 0 (Text.trimStart tail)).head?) := by
  have hfields := s.fieldsWithRest_columns htail
  have hlen : unixInode < (Text.fieldsWithRest (s.columns ++ tail) (unixPath + 1)).length := by
    rw [hfields, length_append]
    exact Nat.lt_add_right _ (show unixInode < 7 by decide)
  rw [lineEntry_of_fields hlen, hfields, unixEntry_fields]
  rw [hfields]
  exact Text.parseUnsigned_ofNat s.inode

theorem stripCr_columns (u : Text) : Text.stripCr (s.columns ++ u) = s.columns ++ Text.stripCr u := by
  refine Text.stripCr_append (fun hcr => ?_) u
  exact absurd (s.plain_columns _ hcr).1 (by decide)

/-- The bytes before the path, the blank included. -/
def lead : Bytes := (s.columns ++ [' ']).bytes

theorem line_of_path {path : Bytes} (h : s.path = some path) : s.line = s.lead ++ path := by
  have hlead : s.lead = s.columns.bytes ++ [0x20] := flatMap_append
  rw [line, h, hlead, append_assoc]
  rfl

theorem decodeLossy_lead (u : Bytes) : Utf8.decodeLossy (s.lead ++ u) = s.columns ++ ' ' :: Utf8.decodeLossy u := by
  rw [lead, Utf8.decodeLossy_bytes_append, append_assoc]
  rfl

theorem newline_not_mem_lead : (0x0A : UInt8) ∉ s.lead := by
  refine Utf8.not_mem_bytes_of_newline fun h => ?_
  rcases mem_append.mp h with h | h
  · exact absurd (s.plain_columns _ h).1 (by decide)
  · exact absurd h (by decide)

theorem lead_ascii (b : UInt8) (hb : b ∈ s.lead) : b < 0x80 := by
  refine Utf8.lt_of_mem_bytes (fun c hc => ?_) hb
  rcases mem_append.mp hc with hc | hc
  · have hplain := s.plain_columns c hc
    omega
  · rw [mem_singleton.mp hc]
    decide

theorem bytesEntry_lead (u : Bytes) :
    bytesEntry (s.lead ++ u) = some (s.inode,
      s.entry (Text.columns 0 (Text.trimStart (Text.stripCr (Utf8.decodeLossy u)))).head?) := by
  rw [bytesEntry, decodeLossy_lead, stripCr_columns, Text.stripCr_cons (by decide),
    lineEntry_columns s (.inr ⟨' ', _, rfl, by decide⟩), Text.trimStart_blank]

end KernelSocket

end Lsof.Linux
