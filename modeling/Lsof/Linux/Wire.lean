import Lsof.Basis.Readers
import Lsof.Basis.Stopping
import Lsof.Linux.SafeFs

/-! # The wire to the helper

The process that makes the calls a limit bounds is asked and answers in frames: a
kind, a length, and that many bytes. A directory comes in as many frames as the time
it takes makes of it, and is what a direct reading of it is.
-/

namespace Lsof.Linux

open Lsof.Basis Lsof.Core List

/-- The largest payload either side sends or takes. -/
def MAX_FRAME : Nat := 2 ^ 16

def R_HELLO : UInt8 := 104

def R_STAT : UInt8 := 115

def R_LINK : UInt8 := 108

def R_NAMES : UInt8 := 110

def R_END : UInt8 := 101

def R_ERROR : UInt8 := 120

abbrev Frame := UInt8 × Bytes

def frame (kind : UInt8) (payload : Bytes) : Bytes := kind :: prefixed .little 4 payload

def readFrame (kinds : List UInt8) : Bytes → Option (Frame × Bytes)
  | [] => none
  | kind :: body =>
    if body.length < 4 then none
    else if !kinds.contains kind || MAX_FRAME < ByteOrder.little.value (body.take 4) then none
    else (takePrefixed .little 4 body).map fun read => ((kind, read.1), read.2)

def STAT_LEN : Nat := 5 * 8 + 3 * 4

def encodeStat (st : FileStat) : Bytes :=
  [st.dev.toNat, st.ino.toNat, st.rdev.toNat, st.nlink.toNat, st.size.toNat].flatMap (ByteOrder.little.bytes 8) ++
    [st.mode.toNat, st.uid.toNat, st.gid.toNat].flatMap (ByteOrder.little.bytes 4)

def decodeStat (b : Bytes) : Option FileStat :=
  let u64At := fun i => UInt64.ofNat (ByteOrder.little.placeAt 8 i b)
  let u32At := fun i => UInt32.ofNat (ByteOrder.little.placeAt 4 i (b.drop 40))
  if b.length ≠ STAT_LEN then none
  else
    some
      { dev := u64At 0
        ino := u64At 1
        rdev := u64At 2
        nlink := u64At 3
        size := u64At 4
        mode := u32At 0
        uid := u32At 1
        gid := u32At 2 }

/-- An `errno`, as its bits. -/
def encodeError (errno : UInt32) : Bytes := ByteOrder.little.bytes 4 errno.toNat

def decodeError (b : Bytes) : Option UInt32 :=
  if b.length ≠ 4 then none else some (UInt32.ofNat (ByteOrder.little.value b))

def MAX_NAME : Nat := Readlink.MAXPATHLEN

def READ_DIR_MAX_NAMES : Nat := 2 ^ 20

def READ_DIR_MAX_BYTES : Nat := 64 * 2 ^ 20

structure Listed where
  names : List Bytes := []
  bytes : Nat := 0
  deriving DecidableEq, Repr

def Listed.push (st : Listed) (name : Bytes) : Listed :=
  { names := st.names ++ [name], bytes := st.bytes + name.length }

def readEntry (st : Listed) (name : Bytes) : Listed × Option Unit :=
  if MAX_NAME < name.length then (st, none)
  else if st.names.length = READ_DIR_MAX_NAMES ∨ READ_DIR_MAX_BYTES < st.bytes + name.length then (st, some ())
  else (st.push name, none)

/-- `read_dir_now`, of the entries the system gives. -/
def readDirNow (entries : List Bytes) : List Bytes := (foldUntil readEntry entries {}).1.names

structure Sending where
  chunk : Bytes := []
  count : Nat := 0
  bytes : Nat := 0
  sent : List Bytes := []
  deriving DecidableEq, Repr

def Sending.flush (st : Sending) : Sending := { st with sent := st.sent ++ [frame R_NAMES st.chunk], chunk := [] }

def Sending.put (st : Sending) (name : Bytes) : Sending :=
  { st with
    count := st.count + 1
    bytes := st.bytes + name.length
    chunk := st.chunk ++ prefixed .little 2 name }

/-- One entry of `send_names`. `due` has for each entry whether the time for a frame
has come when it is in the chunk. -/
def sendName (due : Nat → Bool) (st : Sending) (entry : Bytes × Nat) : Sending × Option Unit :=
  if entry.1.isEmpty || MAX_NAME < entry.1.length then (st, none)
  else if st.count = READ_DIR_MAX_NAMES ∨ READ_DIR_MAX_BYTES < st.bytes + entry.1.length then (st, some ())
  else
    let st := if MAX_FRAME < st.chunk.length + 2 + entry.1.length then st.flush else st
    let st := st.put entry.1
    (if due entry.2 then st.flush else st, none)

def sendNames (due : Nat → Bool) (entries : List Bytes) : List Bytes :=
  let st := (foldUntil (sendName due) entries.zipIdx {}).1
  let st := if st.chunk.isEmpty then st else st.flush
  st.sent ++ [frame R_END []]

def nameReader : Reader UInt8 Bytes where
  next := takePrefixed .little 2
  shrinks := by
    intro r name rest h
    have hlen := length_of_takePrefixed h
    omega

def decodeName (st : Listed) (name : Bytes) : Option Listed :=
  if name.length = 0 ∨ MAX_NAME < name.length ∨ st.names.length = READ_DIR_MAX_NAMES then none
  else if READ_DIR_MAX_BYTES < st.bytes + name.length then none
  else some (st.push name)

def decodeNames (b : Bytes) (st : Listed) : Option Listed :=
  if b.isEmpty then none else nameReader.foldAll decodeName st b

def replyKinds : List UInt8 := [R_HELLO, R_STAT, R_LINK, R_NAMES, R_END, R_ERROR]

def frameReader : Reader UInt8 Frame where
  next := readFrame replyKinds
  shrinks := by
    intro r f rest h
    unfold readFrame at h
    split at h
    · cases h
    · split at h
      · cases h
      · split at h
        · cases h
        · rcases Option.map_eq_some_iff.mp h with ⟨read, hread, heq⟩
          have hlen := length_of_takePrefixed hread
          cases heq
          rw [length_cons]
          omega

def replies (r : Bytes) : List Frame := frameReader.all r

inductive Answer where
  | stat (st : FileStat)
  | link (target : Bytes)
  | names (names : List Bytes)
  | errno (n : UInt32)
  deriving DecidableEq, Repr

inductive Step where
  | done (answer : Answer)
  | more (st : Listed)
  | bad
  deriving DecidableEq, Repr

def takeError (payload : Bytes) : Step := ((decodeError payload).map fun n => Step.done (.errno n)).getD .bad

def takeStat (kind : UInt8) (payload : Bytes) : Step :=
  if kind = R_STAT then ((decodeStat payload).map fun st => Step.done (.stat st)).getD .bad
  else if kind = R_ERROR then takeError payload
  else .bad

def takeLink (kind : UInt8) (payload : Bytes) : Step :=
  if kind = R_LINK then .done (.link payload) else if kind = R_ERROR then takeError payload else .bad

def takeNames (st : Listed) (kind : UInt8) (payload : Bytes) : Step :=
  if kind = R_NAMES then ((decodeNames payload st).map Step.more).getD .bad
  else if kind = R_END ∧ payload.isEmpty then .done (.names st.names)
  else if kind = R_ERROR then takeError payload
  else .bad

def takeReply (request : FsRequest) (st : Listed) (f : Frame) : Step :=
  match request with
  | .stat _ | .lstat _ => takeStat f.1 f.2
  | .readlink _ => takeLink f.1 f.2
  | .readDir _ => takeNames st f.1 f.2

/-- The loop of `exchange`, over the frames that come: the answer, and the frames
after it. -/
def exchange (request : FsRequest) (st : Listed) : List Frame → Option (Answer × List Frame)
  | [] => none
  | f :: fs =>
    match takeReply request st f with
    | .done answer => some (answer, fs)
    | .more st => exchange request st fs
    | .bad => none

theorem readFrame_frame {kinds : List UInt8} {kind : UInt8} (hkind : kind ∈ kinds) {payload : Bytes}
    (hlen : payload.length ≤ MAX_FRAME) (rest : Bytes) :
    readFrame kinds (frame kind payload ++ rest) = some ((kind, payload), rest) := by
  have hsmall : payload.length < 256 ^ 4 := by
    unfold MAX_FRAME at hlen
    omega
  have hroom : ¬(prefixed .little 4 payload ++ rest).length < 4 := by
    rw [length_append, length_prefixed]
    omega
  have htake : (prefixed .little 4 payload ++ rest).take 4 = ByteOrder.little.bytes 4 payload.length := by
    rw [prefixed, append_assoc, take_left' (ByteOrder.length_bytes _ _ _)]
  rw [frame, cons_append, readFrame, if_neg hroom, htake, ByteOrder.value_bytes _ hsmall,
    if_neg (by simp [hkind, hlen]), takePrefixed_prefixed _ hsmall]
  rfl

theorem length_encodeStat (st : FileStat) : (encodeStat st).length = STAT_LEN := by
  simp [encodeStat, ByteOrder.length_bytes, STAT_LEN]

theorem decodeStat_encodeStat (st : FileStat) : decodeStat (encodeStat st) = some st := by
  have h64 : ∀ n : UInt64, n.toNat < 256 ^ 8 := fun n => n.toNat_lt
  have h32 : ∀ n : UInt32, n.toNat < 256 ^ 4 := fun n => n.toNat_lt
  have hdrop : (encodeStat st).drop 40 =
      [st.mode.toNat, st.uid.toNat, st.gid.toNat].flatMap (ByteOrder.little.bytes 4) ++ [] := by
    rw [encodeStat, append_nil]
    exact drop_left' (by simp [ByteOrder.length_bytes])
  have hwide : ∀ (i : Nat) (n : UInt64),
      [st.dev.toNat, st.ino.toNat, st.rdev.toNat, st.nlink.toNat, st.size.toNat][i]? = some n.toNat →
        UInt64.ofNat (ByteOrder.little.placeAt 8 i (encodeStat st)) = n := by
    intro i n hi
    rw [encodeStat, ByteOrder.placeAt_flatMap _ hi (h64 n), UInt64.ofNat_toNat]
  have hnarrow : ∀ (i : Nat) (n : UInt32), [st.mode.toNat, st.uid.toNat, st.gid.toNat][i]? = some n.toNat →
      UInt32.ofNat (ByteOrder.little.placeAt 4 i ((encodeStat st).drop 40)) = n := by
    intro i n hi
    rw [hdrop, ByteOrder.placeAt_flatMap _ hi (h32 n), UInt32.ofNat_toNat]
  unfold decodeStat
  dsimp only
  rw [if_neg (not_not.mpr (length_encodeStat st)), hwide 0 st.dev rfl, hwide 1 st.ino rfl, hwide 2 st.rdev rfl,
    hwide 3 st.nlink rfl, hwide 4 st.size rfl, hnarrow 0 st.mode rfl, hnarrow 1 st.uid rfl, hnarrow 2 st.gid rfl]

namespace Listed

def pushAll (st : Listed) (names : List Bytes) : Listed :=
  { names := st.names ++ names, bytes := st.bytes + names.flatten.length }

structure Holds (st : Listed) (names : List Bytes) : Prop where
  each : ∀ name ∈ names, name ≠ [] ∧ name.length ≤ MAX_NAME
  count : st.names.length + names.length ≤ READ_DIR_MAX_NAMES
  bytes : st.bytes + names.flatten.length ≤ READ_DIR_MAX_BYTES

variable {st : Listed}

theorem length_pushAll (st : Listed) (names : List Bytes) :
    (st.pushAll names).names.length = st.names.length + names.length := length_append

theorem bytes_pushAll (st : Listed) (names : List Bytes) :
    (st.pushAll names).bytes = st.bytes + names.flatten.length := rfl

theorem pushAll_nil (st : Listed) : st.pushAll [] = st := by
  simp [pushAll]

theorem pushAll_append (st : Listed) (names more : List Bytes) :
    st.pushAll (names ++ more) = (st.pushAll names).pushAll more := by
  simp [pushAll, Nat.add_assoc]

theorem holds_append {names more : List Bytes} :
    st.Holds (names ++ more) ↔ st.Holds names ∧ (st.pushAll names).Holds more := by
  constructor
  · intro h
    have hcount := h.count
    have hbytes := h.bytes
    rw [length_append] at hcount
    rw [flatten_append, length_append] at hbytes
    constructor
    · exact ⟨fun name hmem => h.each name (mem_append_left more hmem), by omega, by omega⟩
    · constructor
      · exact fun name hmem => h.each name (mem_append_right names hmem)
      · rw [length_pushAll]
        omega
      · rw [bytes_pushAll]
        omega
  · intro h
    have hcount := h.2.count
    have hbytes := h.2.bytes
    rw [length_pushAll] at hcount
    rw [bytes_pushAll] at hbytes
    constructor
    · intro name hmem
      rcases mem_append.mp hmem with hmem | hmem
      · exact h.1.each name hmem
      · exact h.2.each name hmem
    · rw [length_append]
      omega
    · rw [flatten_append, length_append]
      omega

theorem decodeName_eq {name : Bytes} (h : st.Holds [name]) : decodeName st name = some (st.pushAll [name]) := by
  have heach := h.each name mem_cons_self
  have hcount := h.count
  have hbytes := h.bytes
  have hpos := length_pos_iff.mpr heach.1
  rw [length_singleton] at hcount
  rw [flatten_singleton] at hbytes
  rw [decodeName, if_neg (by omega), if_neg (by omega), push, pushAll, flatten_singleton]

end Listed

def pack (names : List Bytes) : Bytes := names.flatMap (prefixed .little 2)

theorem reads_name {name : Bytes} (h : name.length ≤ MAX_NAME) : nameReader.Reads (prefixed .little 2) name := by
  intro rest
  apply takePrefixed_prefixed
  unfold MAX_NAME Readlink.MAXPATHLEN at h
  omega

variable {names : List Bytes} {st : Listed}

theorem foldAll_pack (h : st.Holds names) :
    nameReader.foldAll decodeName st (pack names) = some (st.pushAll names) := by
  induction names generalizing st with
  | nil => rw [pack, flatMap_nil, Reader.foldAll_nil, Listed.pushAll_nil]
  | cons name names ih =>
    have hsplit := Listed.holds_append.mp (show st.Holds ([name] ++ names) from h)
    have hname := (h.each name mem_cons_self).2
    rw [pack, flatMap_cons, Reader.foldAll_append (reads_name hname), Listed.decodeName_eq hsplit.1,
      Option.bind_some, ← pack, ih hsplit.2, ← Listed.pushAll_append]
    rfl

theorem pack_ne_nil (h : names ≠ []) : pack names ≠ [] := by
  cases names with
  | nil => exact absurd rfl h
  | cons name names =>
    intro hnil
    have hlen := congrArg List.length hnil
    rw [pack, flatMap_cons, length_append, length_prefixed] at hlen
    simp at hlen

theorem decodeNames_pack (hne : names ≠ []) (h : st.Holds names) :
    decodeNames (pack names) st = some (st.pushAll names) := by
  rw [decodeNames, if_neg (by simp [pack_ne_nil hne]), foldAll_pack h]

def listingFrames (packs : List (List Bytes)) : List Frame :=
  packs.map (fun names => (R_NAMES, pack names)) ++ [(R_END, [])]

theorem exchange_listingFrames (path : Bytes) {packs : List (List Bytes)} (hne : ∀ names ∈ packs, names ≠ [])
    (h : st.Holds packs.flatten) (fs : List Frame) :
    exchange (.readDir path) st (listingFrames packs ++ fs) = some (.names (st.names ++ packs.flatten), fs) := by
  induction packs generalizing st with
  | nil =>
    rw [flatten_nil, append_nil]
    rfl
  | cons names packs ih =>
    rw [flatten_cons] at h
    have hsplit := Listed.holds_append.mp h
    have htake : takeReply (.readDir path) st (R_NAMES, pack names) = .more (st.pushAll names) := by
      rw [takeReply, takeNames, if_pos rfl, decodeNames_pack (hne names mem_cons_self) hsplit.1]
      rfl
    have hcons : listingFrames (names :: packs) ++ fs = (R_NAMES, pack names) :: (listingFrames packs ++ fs) := rfl
    rw [hcons, exchange, htake]
    dsimp only
    rw [ih (fun more hmem => hne more (mem_cons_of_mem names hmem)) hsplit.2, flatten_cons,
      Listed.pushAll, append_assoc]

structure Sending.Sent (st : Sending) (direct : Listed) (packs : List (List Bytes)) (held : List Bytes) : Prop where
  sent : st.sent = packs.map fun names => frame R_NAMES (pack names)
  chunk : st.chunk = pack held
  listed : direct = Listed.pushAll {} (packs.flatten ++ held)
  count : st.count = direct.names.length
  bytes : st.bytes = direct.bytes
  holds : Listed.Holds {} (packs.flatten ++ held)
  frames : ∀ names ∈ packs, names ≠ [] ∧ (pack names).length ≤ MAX_FRAME
  fits : (pack held).length ≤ MAX_FRAME

def Sending.Tracks (st : Sending) (direct : Listed) : Prop := ∃ packs held, st.Sent direct packs held

namespace Sending.Sent

variable {st : Sending} {direct : Listed} {packs : List (List Bytes)} {held : List Bytes}

theorem flush (h : st.Sent direct packs held) (hne : held ≠ []) : st.flush.Sent direct (packs ++ [held]) [] where
  sent := by
    rw [Sending.flush, h.sent, h.chunk, map_append]
    rfl
  chunk := rfl
  listed := by
    rw [h.listed]
    simp
  count := h.count
  bytes := h.bytes
  holds := by simpa using h.holds
  frames := by
    intro names hmem
    rcases mem_append.mp hmem with hmem | hmem
    · exact h.frames names hmem
    · rw [mem_singleton.mp hmem]
      exact ⟨hne, h.fits⟩
  fits := Nat.zero_le _

theorem put (h : st.Sent direct packs held) {name : Bytes} (hname : direct.Holds [name])
    (hroom : st.chunk.length + 2 + name.length ≤ MAX_FRAME) :
    (st.put name).Sent (direct.push name) packs (held ++ [name]) where
  sent := h.sent
  chunk := by
    rw [Sending.put, h.chunk, pack, pack, flatMap_append]
    simp
  listed := by
    rw [← append_assoc, Listed.pushAll_append, ← h.listed]
    simp [Listed.push, Listed.pushAll]
  count := by
    rw [Sending.put, h.count]
    simp [Listed.push]
  bytes := by
    rw [Sending.put, h.bytes]
    rfl
  holds := by
    rw [← append_assoc, Listed.holds_append, ← h.listed]
    exact ⟨h.holds, hname⟩
  frames := h.frames
  fits := by
    have hchunk := congrArg List.length h.chunk
    rw [pack, flatMap_append, ← pack, length_append, flatMap_singleton, length_prefixed]
    omega

theorem making_room (h : st.Sent direct packs held) {name : Bytes} (hname : name.length ≤ MAX_NAME) :
    ∃ packs' held', (if MAX_FRAME < st.chunk.length + 2 + name.length then st.flush else st).Sent direct packs' held' ∧
      (if MAX_FRAME < st.chunk.length + 2 + name.length then st.flush else st).chunk.length + 2 + name.length ≤
        MAX_FRAME := by
  unfold MAX_NAME Readlink.MAXPATHLEN at hname
  have hframe : MAX_FRAME = 65536 := rfl
  by_cases hfull : MAX_FRAME < st.chunk.length + 2 + name.length
  · have hne : held ≠ [] := by
      intro hnil
      have hchunk := congrArg List.length h.chunk
      rw [hnil] at hchunk
      change st.chunk.length = 0 at hchunk
      omega
    rw [if_pos hfull]
    apply Exists.intro (packs ++ [held])
    apply Exists.intro []
    constructor
    · exact h.flush hne
    · change 0 + 2 + name.length ≤ MAX_FRAME
      omega
  · rw [if_neg hfull]
    exact ⟨packs, held, h, Nat.le_of_not_lt hfull⟩

end Sending.Sent

theorem sendName_readEntry (due : Nat → Bool) {st : Sending} {direct : Listed} {entry : Bytes × Nat} {name : Bytes}
    (h : st.Tracks direct) (hname : entry.1 = name ∧ name ≠ []) :
    (sendName due st entry).1.Tracks (readEntry direct name).1 ∧
      (sendName due st entry).2.isSome = (readEntry direct name).2.isSome := by
  rcases h with ⟨packs, held, h⟩
  rcases hname with ⟨hentry, hne⟩
  unfold sendName readEntry
  rw [hentry, h.count, h.bytes]
  by_cases hlong : MAX_NAME < name.length
  · rw [if_pos (by simp [hlong]), if_pos hlong]
    exact ⟨⟨packs, held, h⟩, rfl⟩
  · rw [if_neg (by simp [hlong, hne]), if_neg hlong]
    by_cases hfull : direct.names.length = READ_DIR_MAX_NAMES ∨ READ_DIR_MAX_BYTES < direct.bytes + name.length
    · rw [if_pos hfull, if_pos hfull]
      exact ⟨⟨packs, held, h⟩, rfl⟩
    · rw [if_neg hfull, if_neg hfull]
      rcases not_or.mp hfull with ⟨hcount, hbytes⟩
      have hlisted : (packs.flatten ++ held).length ≤ READ_DIR_MAX_NAMES :=
        Nat.le_trans (Nat.le_add_left _ _) h.holds.count
      have hlen : direct.names.length = (packs.flatten ++ held).length := by
        rw [h.listed]
        rfl
      have hmore : direct.Holds [name] := by
        constructor
        · intro other hother
          rw [mem_singleton.mp hother]
          exact ⟨hne, Nat.le_of_not_lt hlong⟩
        · rw [length_singleton]
          omega
        · rw [flatten_singleton]
          omega
      rcases h.making_room (Nat.le_of_not_lt hlong) with ⟨packs', held', hroom, hfits⟩
      have hput := hroom.put hmore hfits
      dsimp only
      constructor
      · by_cases hdue : due entry.2 = true
        · rw [if_pos hdue]
          exact ⟨packs' ++ [held' ++ [name]], [], hput.flush (by simp)⟩
        · rw [if_neg hdue]
          exact ⟨packs', held' ++ [name], hput⟩
      · rfl

theorem sendNames_eq (due : Nat → Bool) {entries : List Bytes} (h : ∀ name ∈ entries, name ≠ []) :
    ∃ packs, sendNames due entries = (listingFrames packs).map (fun f => frame f.1 f.2) ∧
      (∀ names ∈ packs, names ≠ [] ∧ (pack names).length ≤ MAX_FRAME) ∧ Listed.Holds {} packs.flatten ∧
        packs.flatten = readDirNow entries := by
  have hsends : ∀ packs : List (List Bytes), packs.map (fun names => frame R_NAMES (pack names)) ++ [frame R_END []] =
      (listingFrames packs).map fun f => frame f.1 f.2 := by
    intro packs
    rw [listingFrames, map_append, map_map]
    rfl
  have hstart : Sending.Tracks {} {} := by
    apply Exists.intro []
    apply Exists.intro []
    exact ⟨rfl, rfl, rfl, rfl, rfl, ⟨nofun, Nat.zero_le _, Nat.zero_le _⟩, nofun, Nat.zero_le _⟩
  have hentries : List.Forall₂ (fun (entry : Bytes × Nat) name => entry.1 = name ∧ name ≠ []) entries.zipIdx entries := by
    have hfst := zipIdx_map_fst 0 entries
    conv => arg 3; rw [← hfst]
    rw [forall₂_map_right_iff, forall₂_same]
    intro entry hmem
    exact ⟨rfl, h entry.1 (hfst ▸ mem_map_of_mem hmem)⟩
  have hrun : (foldUntil (sendName due) entries.zipIdx {}).1.Tracks (foldUntil readEntry entries {}).1 :=
    foldUntil_related (fun st direct entry name => sendName_readEntry due) hentries hstart
  rcases hrun with ⟨packs, held, hsent⟩
  have hnames : readDirNow entries = packs.flatten ++ held := by
    rw [readDirNow, hsent.listed]
    rfl
  unfold sendNames
  dsimp only
  by_cases hempty : held = []
  · have hchunk := hsent.chunk
    rw [hempty] at hchunk
    rw [if_pos (by rw [hchunk]; rfl), hsent.sent]
    rw [hempty, append_nil] at hnames
    have hholds := hsent.holds
    rw [hempty, append_nil] at hholds
    exact ⟨packs, hsends packs, hsent.frames, hholds, hnames.symm⟩
  · have hflush := hsent.flush hempty
    have hne : (pack held).isEmpty = false := by simp [pack_ne_nil hempty]
    rw [if_neg (by rw [hsent.chunk, hne]; exact Bool.false_ne_true), hflush.sent]
    apply Exists.intro (packs ++ [held])
    exact ⟨hsends _, hflush.frames, by simpa using hflush.holds, by rw [hnames]; simp⟩

theorem reads_frame {f : Frame} (hkind : f.1 ∈ replyKinds) (hlen : f.2.length ≤ MAX_FRAME) :
    frameReader.Reads (fun f => frame f.1 f.2) f := fun rest => readFrame_frame hkind hlen rest

theorem replies_listing {packs : List (List Bytes)} (h : ∀ names ∈ packs, (pack names).length ≤ MAX_FRAME)
    (rest : Bytes) :
    replies (((listingFrames packs).map fun f => frame f.1 f.2).flatten ++ rest) = listingFrames packs ++ replies rest := by
  have hsent : ∀ f ∈ listingFrames packs, frameReader.Reads (fun f => frame f.1 f.2) f := by
    intro f hf
    rcases mem_append.mp hf with hf | hf
    · rcases mem_map.mp hf with ⟨names, hpack, heq⟩
      rw [← heq]
      exact reads_frame (by simp [replyKinds]) (h names hpack)
    · rw [mem_singleton.mp hf]
      exact reads_frame (by simp [replyKinds]) (Nat.zero_le _)
  rw [← flatMap_def]
  exact Reader.all_flatMap hsent rest

theorem exchange_stat (path : Bytes) (st : FileStat) (rest : Bytes) :
    exchange (.stat path) {} (replies (frame R_STAT (encodeStat st) ++ rest)) = some (.stat st, replies rest) := by
  have hlen : (encodeStat st).length ≤ MAX_FRAME := by
    rw [length_encodeStat]
    decide
  have hread : frameReader.Reads (fun f => frame f.1 f.2) (R_STAT, encodeStat st) :=
    reads_frame (by simp [replyKinds]) hlen
  have htake : takeReply (.stat path) {} (R_STAT, encodeStat st) = .done (.stat st) := by
    rw [takeReply, takeStat, if_pos rfl, decodeStat_encodeStat]
    rfl
  rw [replies, Reader.all_append hread, exchange, htake]
  rfl

/-- A directory comes over the wire as a direct reading has it, at whatever times its
frames are sent, and what follows it is left. So does a frame, and a stat. -/
theorem wire_exact :
    (∀ (due : Nat → Bool) (entries : List Bytes) (path : Bytes), (∀ name ∈ entries, name ≠ []) →
      (∃ chunks : List Bytes, sendNames due entries = chunks.map (frame R_NAMES) ++ [frame R_END []] ∧
        ∀ chunk ∈ chunks, chunk ≠ [] ∧ chunk.length ≤ MAX_FRAME) ∧
      ∀ rest, exchange (.readDir path) {} (replies ((sendNames due entries).flatten ++ rest)) =
        some (.names (readDirNow entries), replies rest)) ∧
    (∀ (kinds : List UInt8) (kind : UInt8) (payload rest : Bytes), kind ∈ kinds → payload.length ≤ MAX_FRAME →
      readFrame kinds (frame kind payload ++ rest) = some ((kind, payload), rest)) ∧
    ∀ (st : FileStat) (path rest : Bytes), decodeStat (encodeStat st) = some st ∧
      exchange (.stat path) {} (replies (frame R_STAT (encodeStat st) ++ rest)) = some (.stat st, replies rest) := by
  constructor
  · intro due entries path hentries
    rcases sendNames_eq due hentries with ⟨packs, hsends, hframes, hholds, hnames⟩
    constructor
    · apply Exists.intro (packs.map pack)
      constructor
      · rw [hsends, listingFrames, map_append, map_map, map_map]
        rfl
      · intro chunk hmem
        rcases mem_map.mp hmem with ⟨names, hpack, hchunk⟩
        rw [← hchunk]
        exact ⟨pack_ne_nil (hframes names hpack).1, (hframes names hpack).2⟩
    · intro rest
      rw [hsends, replies_listing fun names hpack => (hframes names hpack).2,
        exchange_listingFrames path (fun names hpack => (hframes names hpack).1) hholds, hnames]
      rfl
  · constructor
    · intro kinds kind payload rest hkind hlen
      exact readFrame_frame hkind hlen rest
    · intro st path rest
      exact ⟨decodeStat_encodeStat st, exchange_stat path st rest⟩

/-- Two names with a frame for each, and a greeting's frame, read back. -/
theorem wire_exact_short :
    exchange (.readDir [47]) {} (replies ((sendNames (fun _ => true) [[97], [98, 99]]).flatten ++ [1])) =
        some (.names (readDirNow [[97], [98, 99]]), replies [1]) ∧
      readFrame replyKinds (frame R_STAT [2] ++ [3]) = some ((R_STAT, [2]), [3]) := by
  constructor
  · exact (wire_exact.1 (fun _ => true) [[97], [98, 99]] [47] (by decide)).2 [1]
  · exact wire_exact.2.1 replyKinds R_STAT [2] [3] (by decide) (by decide)

end Lsof.Linux
