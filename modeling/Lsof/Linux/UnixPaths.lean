import Lsof.Linux.UnixLines

/-! # Bound paths through the table of UNIX sockets

A bound path on one line comes back byte for byte, but for a carriage return
that ends it: reading by lines takes that for part of the line's end, and the
second pass restores only paths that are not UTF-8. A path with a newline in it
goes on as lines of their own, each of which is an entry like any other, so one
socket's path can replace the entry of another.
-/

namespace Lsof.Linux

open Lsof.Basis Lsof.Core List

def SocketTable.boundBytes (tbl : SocketTable) (inode : BitVec 64) : Option Bytes :=
  (tbl.rawPaths inode).or (((tbl.byInode inode).bind SocketEntry.path).map Text.bytes)

namespace KernelSocket

variable (s : KernelSocket)

/-- The table says of a socket what the kernel printed: its path, type, state
and address. -/
structure GivenBack (tbl : SocketTable) : Prop where
  path : tbl.boundBytes s.inode = s.path
  entry : ∃ path, tbl.byInode s.inode = some (s.entry path)

/-- A path on one line, in the file system or abstract. -/
def OneLine (path : Bytes) : Prop :=
  (0x0A : UInt8) ∉ path ∧ (path.head? = some 0x2F ∨ path.head? = some 0x40)

def EndsInCr (path : Bytes) : Prop := ∃ t, Utf8.decode path = some (t ++ ['\r'])

instance (path : Bytes) : Decidable (OneLine path) := inferInstanceAs (Decidable (_ ∧ _))

instance (path : Bytes) : Decidable (EndsInCr path) :=
  decidable_of_iff ((Utf8.decode path).any (fun t => t.getLast? = some '\r') = true) (by
    simp [EndsInCr, Option.any_eq_true, getLast?_eq_some_iff])

theorem rawLines_line (hpath : ∀ path, s.path = some path → OneLine path) : rawLines s.line = [s.line] := by
  cases h : s.path with
  | none =>
    have hline : s.line = s.columns.bytes := by
      rw [line, h]
      exact append_nil _
    rw [hline]
    refine rawLines_of_not_mem (Utf8.not_mem_bytes_of_newline fun hnl => ?_)
    exact absurd (s.plain_columns _ hnl).1 (by decide)
  | some path =>
    rw [s.line_of_path h]
    refine rawLines_of_not_mem fun hnl => ?_
    exact (mem_append.mp hnl).elim s.newline_not_mem_lead (hpath path h).1

theorem shown_of_oneLine {path : Bytes} (h : OneLine path) :
    ∃ c rest, Utf8.decodeLossy path = c :: rest ∧ Text.isWhitespace c = false ∧ c ≠ '\r' := by
  obtain ⟨-, hhead⟩ := h
  rcases hhead with hhead | hhead
  · obtain ⟨rest, rfl⟩ := head?_eq_some_iff.mp hhead
    exact ⟨'/', _, Utf8.decodeLossy_append_ascii [] (by decide) rest, by decide, by decide⟩
  · obtain ⟨rest, rfl⟩ := head?_eq_some_iff.mp hhead
    exact ⟨'@', _, Utf8.decodeLossy_append_ascii [] (by decide) rest, by decide, by decide⟩

theorem columns_of_head {c : Char} (hc : Text.isWhitespace c = false) (rest : Text) :
    Text.columns 0 (Text.trimStart (c :: rest)) = [c :: rest] := by
  rw [Text.trimStart, dropWhile_cons, if_neg (by rw [hc]; decide)]
  rfl

def shownPath : Option Text := s.path.map fun path => Text.stripCr (Utf8.decodeLossy path)

theorem bytesEntry_line (hpath : ∀ path, s.path = some path → OneLine path) :
    bytesEntry s.line = some (s.inode, s.entry s.shownPath) := by
  cases h : s.path with
  | none =>
    have hline : s.line = s.columns.bytes := by
      rw [line, h]
      exact append_nil _
    have hcr : Text.stripCr s.columns = s.columns ++ [] := by
      have hnil := s.stripCr_columns []
      rwa [append_nil] at hnil
    rw [bytesEntry, hline, Utf8.decodeLossy_bytes, hcr, s.lineEntry_columns (.inl rfl), shownPath, h]
    rfl
  | some path =>
    obtain ⟨c, rest, hshown, hspace, hcr⟩ := shown_of_oneLine (hpath path h)
    rw [s.line_of_path h, bytesEntry_lead, shownPath, h, Option.map_some, hshown,
      Text.stripCr_cons hcr, columns_of_head hspace]
    rfl

def rawPath : Option Bytes := s.path.filter fun path => (Utf8.decode path).isNone

theorem lineRaw_line (hpath : ∀ path, s.path = some path → OneLine path) :
    lineRaw s.line = s.rawPath.map fun path => (s.inode, path) := by
  cases h : s.path with
  | none =>
    have hline : s.line = s.columns.bytes := by
      rw [line, h]
      exact append_nil _
    rw [hline, lineRaw, Utf8.decode_bytes, rawPath, h]
    rfl
  | some path =>
    rw [s.line_of_path h, rawPath, h]
    cases hdecode : Utf8.decode path with
    | some t =>
      have hvalid : (Utf8.decode (s.lead ++ path)).isSome = true := by
        rw [lead, Utf8.decode_bytes_append, hdecode]
        rfl
      rw [lineRaw, if_pos hvalid]
      simp [Option.filter, hdecode]
    | none =>
      have hinvalid : ¬ (Utf8.decode (s.lead ++ path)).isSome = true := by
        rw [lead, Utf8.decode_bytes_append, hdecode]
        decide
      obtain ⟨c, rest, hshown, hspace, -⟩ := shown_of_oneLine (hpath path h)
      have hfields : Text.fieldsWithRest (Utf8.decodeLossy (s.lead ++ path)) (unixPath + 1) =
          s.fields ++ [Utf8.decodeLossy path] := by
        rw [decodeLossy_lead, s.fieldsWithRest_columns (.inr ⟨' ', _, rfl, by decide⟩),
          Text.trimStart_blank, hshown, columns_of_head hspace]
      have hlen : (Utf8.decodeLossy (s.lead ++ path)).byteLen =
          s.lead.length + (Utf8.decodeLossy path).byteLen := by
        rw [lead, Utf8.decodeLossy_bytes_append, Text.byteLen_append, Text.bytes_length]
      have hascii : s.lead.all (fun b => decide (b < 0x80)) = true :=
        all_eq_true.mpr fun b hb => decide_eq_true (s.lead_ascii b hb)
      have hcells : (s.fields ++ [Utf8.decodeLossy path])[unixInode]?.bind (Text.parseUnsigned 64) =
          some s.inode ∧ (s.fields ++ [Utf8.decodeLossy path])[unixPath]? =
            some (Utf8.decodeLossy path) := ⟨Text.parseUnsigned_ofNat s.inode, rfl⟩
      rw [lineRaw, if_neg hinvalid]
      dsimp only
      rw [hfields, hlen, hcells.1, hcells.2]
      simp [hascii, Option.filter, hdecode]

end KernelSocket

section RoundTrip

variable {sockets : List KernelSocket}

theorem entriesOf_oneLine (hpaths : ∀ s ∈ sockets, ∀ path, s.path = some path → KernelSocket.OneLine path) :
    entriesOf (Utf8.decodeLossy (kernelTable sockets)) = sockets.map fun s => (s.inode, s.entry s.shownPath) := by
  rw [entriesOf_kernelTable, map_eq_flatMap]
  refine flatMap_congr fun s hs => ?_
  rw [s.rawLines_line (hpaths s hs), filterMap_cons, s.bytesEntry_line (hpaths s hs)]
  rfl

theorem rawPathsOf_oneLine (hpaths : ∀ s ∈ sockets, ∀ path, s.path = some path → KernelSocket.OneLine path) :
    rawPathsOf (kernelTable sockets) = sockets.filterMap fun s => s.rawPath.map fun path => (s.inode, path) := by
  rw [rawPathsOf_kernelTable, filterMap_eq_flatMap_toList]
  refine flatMap_congr fun s hs => ?_
  rw [s.rawLines_line (hpaths s hs), filterMap_cons, s.lineRaw_line (hpaths s hs)]
  cases s.rawPath <;> rfl

theorem read_of_nodup (entered : BitVec 64 → Option SocketEntry) (hinodes : (sockets.map KernelSocket.inode).Nodup)
    (hpaths : ∀ s ∈ sockets, ∀ path, s.path = some path → KernelSocket.OneLine path)
    {s : KernelSocket} (hs : s ∈ sockets) :
    (parseUnixBytes { byInode := entered } (kernelTable sockets)).byInode s.inode =
        some (s.entry s.shownPath) ∧
      (parseUnixBytes { byInode := entered } (kernelTable sockets)).rawPaths s.inode = s.rawPath := by
  have hsame : ∀ r ∈ sockets, r.inode = s.inode → r = s :=
    fun r hr h => inj_on_of_nodup_map hinodes hr hs h
  rw [parseUnixBytes_eq, entriesOf_oneLine hpaths, rawPathsOf_oneLine hpaths]
  dsimp only
  rw [updateAll_apply, updateAll_apply]
  constructor
  · have hmem : (s.inode, s.entry s.shownPath) ∈ sockets.map fun s => (s.inode, s.entry s.shownPath) :=
      mem_map.mpr ⟨s, hs, rfl⟩
    have hread := lastOf_of_unique hmem fun e he hkey => by
      obtain ⟨r, hr, rfl⟩ := mem_map.mp he
      rw [hsame r hr hkey]
    rw [hread]
    rfl
  · rw [Option.or_none]
    cases hraw : s.rawPath with
    | none =>
      refine lastOf_eq_none fun e he hkey => ?_
      obtain ⟨r, hr, hread⟩ := mem_filterMap.mp he
      obtain ⟨path, hpath, rfl⟩ := Option.map_eq_some_iff.mp hread
      rw [hsame r hr hkey, hraw] at hpath
      cases hpath
    | some path =>
      refine lastOf_of_unique (mem_filterMap.mpr ⟨s, hs, by rw [hraw]; rfl⟩) fun e he hkey => ?_
      obtain ⟨r, hr, hread⟩ := mem_filterMap.mp he
      obtain ⟨path', hpath', rfl⟩ := Option.map_eq_some_iff.mp hread
      rw [hsame r hr hkey, hraw] at hpath'
      exact (Option.some.inj hpath').symm

theorem boundBytes_iff {tbl : SocketTable} {s : KernelSocket}
    (hentry : tbl.byInode s.inode = some (s.entry s.shownPath)) (hraw : tbl.rawPaths s.inode = s.rawPath) :
    tbl.boundBytes s.inode = s.path ↔ ∀ path, s.path = some path → ¬ KernelSocket.EndsInCr path := by
  rw [SocketTable.boundBytes, hentry, hraw]
  cases h : s.path with
  | none => simp [KernelSocket.rawPath, KernelSocket.shownPath, KernelSocket.entry, h]
  | some path =>
    have hone : (∀ p, some path = some p → ¬ KernelSocket.EndsInCr p) ↔ ¬ KernelSocket.EndsInCr path := by
      simp
    rw [hone, KernelSocket.rawPath, KernelSocket.shownPath, h]
    cases hdecode : Utf8.decode path with
    | none => simp [Option.filter, KernelSocket.EndsInCr, hdecode]
    | some t =>
      have hbytes := Utf8.bytes_of_decode hdecode
      have hcr : KernelSocket.EndsInCr path ↔ Text.stripCr t ≠ t := by
        rw [Text.stripCr_ne_iff, KernelSocket.EndsInCr, hdecode]
        simp
      rw [hcr, not_not, Option.map_some, Utf8.decodeLossy_of_decode hdecode]
      simp only [Option.filter, hdecode, Option.isNone_some, Bool.false_eq_true, if_false,
        Option.none_or, Option.bind_some, KernelSocket.entry, Option.map_some, Option.some.injEq]
      constructor
      · intro hsame
        exact Utf8.bytes_injective (hsame.trans hbytes)
      · intro hsame
        rw [hsame, ← hbytes]

theorem parseUnixBytes_kernelTable_iff (entered : BitVec 64 → Option SocketEntry)
    (sockets : List KernelSocket) (hinodes : (sockets.map KernelSocket.inode).Nodup)
    (hpaths : ∀ s ∈ sockets, ∀ path, s.path = some path → KernelSocket.OneLine path) :
    (∀ s ∈ sockets, s.GivenBack (parseUnixBytes { byInode := entered } (kernelTable sockets))) ↔
      ∀ s ∈ sockets, ∀ path, s.path = some path → ¬ KernelSocket.EndsInCr path := by
  constructor
  · intro h s hs
    obtain ⟨hentry, hraw⟩ := read_of_nodup entered hinodes hpaths hs
    exact (boundBytes_iff hentry hraw).mp (h s hs).path
  · intro h s hs
    obtain ⟨hentry, hraw⟩ := read_of_nodup entered hinodes hpaths hs
    exact ⟨(boundBytes_iff hentry hraw).mpr (h s hs), s.shownPath, hentry⟩

def listening (inode : BitVec 64) (path : Option Bytes) : KernelSocket :=
  { address := 0xffff888003a2c000, refCount := 2, flags := 0x10000, type := 1, state := 1, inode, path }

/-- A path that is UTF-8 comes back without the carriage return that ends it. -/
theorem parseUnixBytes_loses_cr :
    ¬ (listening 7 (some [0x2F, 0x73, 0x0D])).GivenBack
        (parseUnixBytes {} (kernelTable [listening 7 (some [0x2F, 0x73, 0x0D])])) := by
  intro h
  have hread : (parseUnixBytes {} (kernelTable [listening 7 (some [0x2F, 0x73, 0x0D])])).boundBytes 7 =
      some [0x2F, 0x73] := by decide +kernel
  have hpath := hread.symm.trans h.path
  exact absurd hpath (by decide)

/-- A path that is not UTF-8 with blanks in it and a carriage return at its end,
and an abstract one. -/
theorem parseUnixBytes_given_back :
    let sockets := [listening 7 (some [0x2F, 0xFF, 0x20, 0x0D]), listening 8 (some [0x40, 0x09, 0x73])]
    ∀ s ∈ sockets, s.GivenBack (parseUnixBytes {} (kernelTable sockets)) := by
  refine (parseUnixBytes_kernelTable_iff _ _ (by decide) ?_).mpr ?_
  · simp [listening, KernelSocket.OneLine]
  · simp only [forall_mem_cons, listening, Option.some.injEq, forall_eq']
    decide

end RoundTrip

section Isolation

/-- What the lines after a newline in a path enter. -/
def forgedEntries (path : Bytes) : List (BitVec 64 × SocketEntry) :=
  (rawLines path).tail.filterMap bytesEntry

def forgedRawPaths (path : Bytes) : List (BitVec 64 × Bytes) := (rawLines path).tail.filterMap lineRaw

/-- What the lines of these sockets enter, those their paths forge included. -/
def socketEntries (sockets : List KernelSocket) : List (BitVec 64 × SocketEntry) :=
  sockets.flatMap fun s => (rawLines s.line).filterMap bytesEntry

def socketRawPaths (sockets : List KernelSocket) : List (BitVec 64 × Bytes) :=
  sockets.flatMap fun s => (rawLines s.line).filterMap lineRaw

def KernelSocket.boundTo (s : KernelSocket) (path : Bytes) : KernelSocket := { s with path := some path }

variable (s : KernelSocket) (path : Bytes) {inode : BitVec 64}

theorem rawLines_boundTo : rawLines (s.boundTo path).line =
    (s.lead ++ (rawLines path).headD []) :: (rawLines path).tail := by
  have hline : (s.boundTo path).line = s.lead ++ path := (s.boundTo path).line_of_path rfl
  rw [hline, rawLines_prefix s.newline_not_mem_lead]

theorem lastOf_entries_boundTo (h : inode ≠ s.inode) :
    lastOf inode ((rawLines (s.boundTo path).line).filterMap bytesEntry) = lastOf inode (forgedEntries path) := by
  rw [rawLines_boundTo, filterMap_cons, s.bytesEntry_lead]
  show (lastOf inode (forgedEntries path)).or (if s.inode = inode then _ else none) = _
  rw [if_neg (Ne.symm h), Option.or_none]

theorem lastOf_rawPaths_boundTo (h : inode ≠ s.inode) :
    lastOf inode ((rawLines (s.boundTo path).line).filterMap lineRaw) = lastOf inode (forgedRawPaths path) := by
  rw [rawLines_boundTo, filterMap_cons]
  cases hraw : lineRaw (s.lead ++ (rawLines path).headD []) with
  | none => rfl
  | some e =>
    -- the first line's entry is the socket's own, so its raw path is too
    have hown : e.1 = s.inode := by
      obtain ⟨entry, hentry⟩ := lineEntry_of_lineRaw hraw (.inr rfl)
      have hfirst := s.bytesEntry_lead ((rawLines path).headD [])
      rw [bytesEntry, hentry] at hfirst
      exact congrArg Prod.fst (Option.some.inj hfirst)
    show (lastOf inode (forgedRawPaths path)).or (if e.1 = inode then _ else none) = _
    rw [if_neg (hown ▸ Ne.symm h), Option.or_none]

variable (tbl : SocketTable) (before after : List KernelSocket)

def readWith : SocketTable := parseUnixBytes tbl (kernelTable (before ++ s.boundTo path :: after))

theorem readWith_byInode (h : inode ≠ s.inode) :
    (readWith s path tbl before after).byInode inode =
      (lastOf inode (socketEntries after)).or ((lastOf inode (forgedEntries path)).or
        ((lastOf inode (socketEntries before)).or (tbl.byInode inode))) := by
  rw [readWith, parseUnixBytes_eq]
  dsimp only
  rw [updateAll_apply, entriesOf_kernelTable, flatMap_append, flatMap_cons, lastOf_append,
    lastOf_append, lastOf_entries_boundTo s path h, Option.or_assoc, Option.or_assoc]
  rfl

theorem readWith_rawPaths (h : inode ≠ s.inode) :
    (readWith s path tbl before after).rawPaths inode =
      (lastOf inode (socketRawPaths after)).or ((lastOf inode (forgedRawPaths path)).or
        ((lastOf inode (socketRawPaths before)).or (tbl.rawPaths inode))) := by
  rw [readWith, parseUnixBytes_eq]
  dsimp only
  rw [updateAll_apply, rawPathsOf_kernelTable, flatMap_append, flatMap_cons, lastOf_append,
    lastOf_append, lastOf_rawPaths_boundTo s path h, Option.or_assoc, Option.or_assoc]
  rfl

variable (path₁ path₂ : Bytes)

end Isolation

end Lsof.Linux
