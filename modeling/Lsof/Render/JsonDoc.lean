import Lsof.Render.Json
import Lsof.Render.Printable

/-! # What JSON output says

The values that `-J` and `-j` spell: a table of keys for a process, for a file
and for its connection, each key with a value or none. The writers print exactly
the values, so the reader gives them back.
-/

namespace Lsof.Render

open Lsof.Basis Lsof.Core List

theorem isUnprintableUnicode_iff {c : Char} : isUnprintableUnicode c = true ↔
    c.toNat < 0x20 ∨ (0x7F ≤ c.toNat ∧ c.toNat ≤ 0x9F) ∨ c.toNat = 0x2028 ∨ c.toNat = 0x2029 := by
  simp only [isUnprintableUnicode, isControl, Bool.or_eq_true, Bool.and_eq_true, decide_eq_true_eq, beq_iff_eq]
  omega

theorem readChar_jsonChar (c : Char) (rest : Text) : Json.readChar (jsonChar c ++ rest) = some (c, rest) := by
  unfold jsonChar
  split
  next h => rw [h]; rfl
  next hquote =>
  split
  next h => rw [h]; rfl
  next hslash =>
  split
  next h => rw [h]; rfl
  next =>
  split
  next h => rw [h]; rfl
  next =>
  split
  next h => rw [h]; rfl
  next =>
  split
  next h => rw [h]; rfl
  next =>
  split
  next h => rw [h]; rfl
  next =>
  split
  next hc =>
    have hlt : c.toNat < 16 ^ 4 := by
      rw [isUnprintableUnicode_iff] at hc
      omega
    have hlen := Text.length_hexPad Text.lowerHex 4 c.toNat
    have hval : Text.hexValue (Text.hexPad Text.lowerHex 4 c.toNat) = c.toNat :=
      Text.hexValue_hexPad (.inr rfl) hlt
    have hdigits : (Text.hexPad Text.lowerHex 4 c.toNat).all (fun d => (Text.hexDigitValue d).isSome) = true :=
      all_eq_true.mpr fun d hd => Text.mem_hexPad (.inr rfl) hd
    have hread : Json.readEscape ('u' :: (Text.hexPad Text.lowerHex 4 c.toNat ++ rest)) = some (c, rest) := by
      rw [Json.readEscape, if_pos rfl]
      dsimp only
      rw [take_left' hlen, drop_left' hlen, hval, if_pos ⟨hlen, hdigits, c.valid⟩, Char.ofNat_toNat]
    exact hread
  next hc =>
    have hlow : ¬ c.toNat < 0x20 := fun h => hc (isUnprintableUnicode_iff.mpr (.inl h))
    rw [singleton_append, Json.readChar, if_neg hslash, if_neg (not_or.mpr ⟨hquote, hlow⟩)]

def spelling : Json.Spelling := ⟨jsonChar, readChar_jsonChar⟩

theorem printable_jsonChar (c : Char) : Printable (jsonChar c) := by
  unfold jsonChar
  by_cases hc : isUnprintableUnicode c = true
  · have hcode : Printable ('\\' :: 'u' :: Text.hexPad Text.lowerHex 4 c.toNat) :=
      printable_cons.mpr ⟨by decide, printable_cons.mpr ⟨by decide,
        printable_of_plain (Text.plain_hexPad (.inr rfl) 4 c.toNat)⟩⟩
    repeat' split
    all_goals first | exact hcode | decide
  · have hself : Printable [c] := fun d hd => by
      rw [mem_singleton.mp hd]
      exact Bool.eq_false_iff.mpr hc
    repeat' split
    all_goals first | exact hself | decide

theorem printable_print (v : Json) : Printable (v.print spelling) := by
  have hmarks : Printable Json.marks := by decide
  refine Json.forall_mem_print spelling hmarks printable_jsonChar (fun c hc => ?_) v
  have hrange := Text.digit_range hc
  exact printable_of_range (by omega) (by omega)

/-- A key as it is written: raw, so it has to be its own spelling. -/
def memberText (e : Text × Json) : Text := '"' :: (e.1 ++ ['"', ':']) ++ e.2.print spelling

def IsKey (k : Text) : Prop := k.flatMap jsonChar = k

instance (k : Text) : Decidable (IsKey k) := inferInstanceAs (Decidable (_ = _))

theorem memberText_eq {e : Text × Json} (h : IsKey e.1) :
    memberText e = spelling.string e.1 ++ ':' :: e.2.print spelling := by
  unfold memberText Json.Spelling.string
  rw [show spelling.char = jsonChar from rfl, h]
  simp

namespace Members

def add (m : Members) (e : Text × Json) : Members :=
  let m := m.key e.1
  { m with out := m.out ++ e.2.print spelling }

def addAll (m : Members) (es : List (Text × Json)) : Members := es.foldl add m

theorem addAll_append (m : Members) (es fs : List (Text × Json)) :
    m.addAll (es ++ fs) = (m.addAll es).addAll fs := foldl_append

theorem add_eq (m : Members) (e : Text × Json) :
    ((m.add e).out, (m.add e).first) = Json.commaPush (m.out, m.first) (memberText e) := by
  unfold add key Json.commaPush memberText
  dsimp only
  rw [append_assoc]

theorem addAll_eq (m : Members) (es : List (Text × Json)) :
    ((m.addAll es).out, (m.addAll es).first) = (es.map memberText).foldl Json.commaPush (m.out, m.first) := by
  induction es generalizing m with
  | nil => rfl
  | cons e es ih =>
    rw [map_cons, foldl_cons, ← add_eq]
    exact ih (m.add e)

theorem addAll_new {es : List (Text × Json)} (hkeys : ∀ e ∈ es, IsKey e.1) (out : Text) :
    ((new (out ++ ['\x7b'])).addAll es).out ++ ['\x7d'] = out ++ (Json.obj es).print spelling := by
  have hshown : es.map memberText = es.map fun e => spelling.string e.1 ++ ':' :: e.2.print spelling :=
    map_congr_left fun e he => memberText_eq (hkeys e he)
  have hout : ((new (out ++ ['\x7b'])).addAll es).out =
      out ++ ['\x7b'] ++ [','].intercalate (es.map memberText) :=
    (congrArg Prod.fst ((new (out ++ ['\x7b'])).addAll_eq es)).trans (Json.foldl_commaPush _ _)
  rw [hout, hshown, Json.print, Json.printMembers_eq]
  simp

theorem addAll_new_cons (out : Text) (e : Text × Json) (es : List (Text × Json)) :
    (new out).addAll (e :: es) = { out := out ++ [','].intercalate ((e :: es).map memberText), first := false } := by
  have hpair := (new out).addAll_eq (e :: es)
  have hout := congrArg Prod.fst hpair
  have hfirst := congrArg Prod.snd hpair
  rw [show ((new out).out, (new out).first) = (out, true) from rfl] at hout hfirst
  rw [Json.foldl_commaPush] at hout
  rw [map_cons, foldl_cons, Json.commaPush, Json.foldl_commaPush_false] at hfirst
  exact congrArg₂ Members.mk hout hfirst

end Members

def chosen {α : Type} (wanted : Bool) (shown : α → Json) (value : Option α) : Option Json :=
  if wanted then value.map shown else none

def present (table : List (Text × Option Json)) : List (Text × Json) :=
  table.filterMap fun e => e.2.map (Prod.mk e.1)

theorem keys_present (table : List (Text × Option Json)) :
    ((present table).map Prod.fst).Sublist (table.map Prod.fst) := by
  induction table with
  | nil => exact List.Sublist.slnil
  | cons e table ih =>
    obtain ⟨k, value⟩ := e
    cases value with
    | none => exact ih.cons k
    | some v => exact ih.cons_cons k

theorem mem_of_mem_present {table : List (Text × Option Json)} {e : Text × Json} (h : e ∈ present table) :
    (e.1, some e.2) ∈ table := by
  obtain ⟨entry, hentry, hvalue⟩ := mem_filterMap.mp h
  obtain ⟨v, hv, rfl⟩ := Option.map_eq_some_iff.mp hvalue
  exact hv ▸ hentry

namespace Members

def addEntry (m : Members) (e : Text × Option Json) : Members :=
  match e.2 with
  | some v => m.add (e.1, v)
  | none => m

theorem addAll_present (m : Members) (table : List (Text × Option Json)) :
    m.addAll (present table) = table.foldl addEntry m := by
  induction table generalizing m with
  | nil => rfl
  | cons e table ih =>
    obtain ⟨k, value⟩ := e
    cases value with
    | none => exact ih m
    | some v => exact ih (m.add (k, v))

theorem strIf_eq (m : Members) (wanted : Bool) (k : Text) (v : Option Text) :
    m.strIf wanted k v = m.addEntry (k, chosen wanted .str v) := by
  cases wanted with
  | false => rfl
  | true => cases v <;> rfl

theorem numIf_eq {α : Type} {shown : α → Text} {number : α → Int} (h : ∀ a, shown a = Json.ofInt (number a))
    (m : Members) (wanted : Bool) (k : Text) (v : Option α) :
    m.numIf wanted k (v.map shown) = m.addEntry (k, chosen wanted (fun a => .num (number a)) v) := by
  cases wanted with
  | false => rfl
  | true =>
    cases v with
    | none => rfl
    | some a => exact congrArg (fun t => Members.mk ((m.key k).out ++ t) false) (h a)

theorem numIf_ofNat (m : Members) (wanted : Bool) (k : Text) (v : Option Nat) :
    m.numIf wanted k (v.map Text.ofNat) = m.addEntry (k, chosen wanted (fun n : Nat => .num n) v) :=
  @numIf_eq Nat Text.ofNat (fun n => n) (fun _ => rfl) m wanted k v

end Members

theorem signedText_eq (n : BitVec 32) : signedText n = Json.ofInt n.toInt := by
  have hlt := n.isLt
  rw [signedText, BitVec.toInt_eq_msb_cond]
  split
  next hmsb =>
    have hneg : (n.toNat : Int) - ((2 ^ 32 : Nat) : Int) = Int.negSucc (2 ^ 32 - n.toNat - 1) := by omega
    have hpred : 2 ^ 32 - n.toNat - 1 + 1 = 2 ^ 32 - n.toNat := by omega
    rw [hneg, Json.ofInt, hpred]
  next => rfl

namespace JsonOpts

variable (o : JsonOpts)

def procTable (p : Process) : List (Text × Option Json) :=
  [("pid".toList, some (.num p.pid)),
    ("tid".toList, chosen (o.want 'K') (fun n : Nat => .num n) p.tid),
    ("task_cmd".toList, chosen (o.want 'M') .str p.taskCommand),
    ("pgid".toList, chosen (o.want 'g') (fun n : Nat => .num n) p.pgid),
    ("ppid".toList, chosen (o.want 'R') (fun n : Nat => .num n) p.ppid),
    ("command".toList, chosen (o.want 'c') .str (some p.command)),
    ("uid".toList, chosen (o.want 'u') (fun uid : Nat => .num (BitVec.ofNat 32 uid).toInt) p.uid),
    ("login".toList, chosen (o.want 'L' && !o.numericIds) .str p.user)]

def tcpTable (f : OpenFile) (sock : SocketInfo) : List (Text × Option Json) :=
  [("state".toList, chosen (o.tcpShow.state && f.fileType != .unix) .str (sock.shownState.map SockState.asStr)),
    ("recv_queue".toList, chosen o.tcpShow.queue (fun n : Nat => .num n) (sock.tcp.bind (·.recvQueue))),
    ("send_queue".toList, chosen o.tcpShow.queue (fun n : Nat => .num n) (sock.tcp.bind (·.sendQueue))),
    ("read_window".toList, chosen o.tcpShow.window (fun n : Nat => .num n) (sock.tcp.bind (·.recvWindow)))]

def fileTable (f : OpenFile) : List (Text × Option Json) :=
  [("fd".toList, chosen (o.want 'f') .str (some f.fd.code)),
    ("access".toList, chosen (o.want 'a') .str ((accessCode f).map fun c => [c])),
    ("lock".toList, chosen (o.want 'l') .str ((lockCode f).map fun c => [c])),
    ("type".toList, chosen (o.want 't' && f.fileType.hasCode) .str (some f.fileType.code)),
    ("device".toList, chosen (o.want 'd') .str (deviceText f)),
    ("device_number".toList, chosen (o.want 'D') .str (f.fsDevice.map fun dev => hexText dev.toNat)),
    ("raw_device".toList, chosen (o.want 'r') .str (f.rdev.map fun rdev => hexText rdev.val.toNat)),
    ("size".toList, chosen (o.want 's') .str (f.size.map Text.ofNat)),
    ("offset".toList, chosen (o.want 'o') .str (f.offset.map Text.ofNat)),
    ("inode".toList, chosen (o.want 'i' && !nodeIsProtocol f) .str f.node),
    ("nlink".toList, chosen (o.want 'k') (fun n : Nat => .num n) f.links),
    ("protocol".toList, chosen (o.want 'P' && nodeIsProtocol f) .str f.node),
    ("flags".toList, chosen (o.want 'G') .str (o.shownFlags f)),
    ("name".toList, chosen (o.want 'n') .str f.baseName),
    ("tcp_info".toList,
      chosen (o.want 'T') (fun sock => .obj (present (o.tcpTable f sock))) (tcpInfoSocket f))]

theorem procMembers_eq (m : Members) (p : Process) : o.procMembers m p = m.addAll (present (o.procTable p)) := by
  have huid : ∀ (m : Members) (wanted : Bool) (k : Text) (v : Option Nat),
      m.numIf wanted k (v.map fun uid => signedText (BitVec.ofNat 32 uid)) =
        m.addEntry (k, chosen wanted (fun uid : Nat => .num (BitVec.ofNat 32 uid).toInt) v) :=
    fun m wanted k v => m.numIf_eq (fun uid => signedText_eq (BitVec.ofNat 32 uid)) wanted k v
  rw [Members.addAll_present]
  unfold procMembers
  simp only [Members.strIf_eq, Members.numIf_ofNat, huid]
  rfl

theorem tcpMembers_eq (m : Members) (f : OpenFile) (sock : SocketInfo) :
    o.tcpMembers m f sock = m.addAll (present (o.tcpTable f sock)) := by
  rw [Members.addAll_present]
  unfold tcpMembers tcpTable
  simp only [Members.strIf_eq, Members.numIf_ofNat]
  cases sock.tcp with
  | some tcp => rfl
  | none =>
    -- with no facts of a connection the last three entries have no value
    have hnone : ∀ wanted : Bool, chosen wanted (fun n : Nat => .num n) none = none := by
      intro wanted
      cases wanted <;> rfl
    simp only [Option.bind_none, hnone]
    rfl

/-! The keys of each table, all different and spelled as they are. -/

theorem procTable_keys (p : Process) : (o.procTable p).map Prod.fst =
    ["pid", "tid", "task_cmd", "pgid", "ppid", "command", "uid", "login"].map String.toList := rfl

theorem tcpTable_keys (f : OpenFile) (sock : SocketInfo) : (o.tcpTable f sock).map Prod.fst =
    ["state", "recv_queue", "send_queue", "read_window"].map String.toList := rfl

theorem fileTable_keys (f : OpenFile) : (o.fileTable f).map Prod.fst =
    ["fd", "access", "lock", "type", "device", "device_number", "raw_device", "size", "offset", "inode",
      "nlink", "protocol", "flags", "name", "tcp_info"].map String.toList := rfl

theorem isKey_present {table : List (Text × Option Json)} (h : ∀ k ∈ table.map Prod.fst, IsKey k) :
    ∀ e ∈ present table, IsKey e.1 := fun _ he =>
  h _ (mem_map_of_mem (mem_of_mem_present he))

theorem isKey_procTable (p : Process) : ∀ e ∈ present (o.procTable p), IsKey e.1 :=
  isKey_present (by rw [o.procTable_keys p]; decide)

theorem isKey_fileTable (f : OpenFile) : ∀ e ∈ present (o.fileTable f), IsKey e.1 :=
  isKey_present (by rw [o.fileTable_keys f]; decide)

theorem tcpInfo_eq (m : Members) (f : OpenFile) :
    o.tcpInfo m f = m.addEntry ("tcp_info".toList,
      chosen (o.want 'T') (fun sock => .obj (present (o.tcpTable f sock))) (tcpInfoSocket f)) := by
  unfold tcpInfo chosen
  split
  next =>
    cases tcpInfoSocket f with
    | none => rfl
    | some sock =>
      have hkeys : ∀ e ∈ present (o.tcpTable f sock), IsKey e.1 :=
        isKey_present (by rw [o.tcpTable_keys f sock]; decide)
      dsimp only
      rw [o.tcpMembers_eq, Members.addAll_new hkeys]
      rfl
  next => rfl

theorem fileMembers_eq (m : Members) (f : OpenFile) : o.fileMembers m f = m.addAll (present (o.fileTable f)) := by
  rw [Members.addAll_present]
  unfold fileMembers
  simp only [Members.strIf_eq, Members.numIf_ofNat, tcpInfo_eq]
  rfl

def fileJson (f : OpenFile) : Json := .obj (present (o.fileTable f))

def processJson (p : Process) : Json :=
  .obj (present (o.procTable p) ++ [("files".toList, .arr (p.files.map o.fileJson))])

def document (procs : List Process) : Json :=
  .obj [("lsof_version".toList, .str o.version),
    ("processes".toList, .arr ((procs.filter fun p => !p.files.isEmpty).map o.processJson))]

def lineJson (p : Process) (f : OpenFile) : Json :=
  .obj (present (o.procTable p) ++ present (o.fileTable f))

theorem pushFile_eq (acc : Text × Bool) (f : OpenFile) :
    o.pushFile acc f = Json.commaPush acc ((o.fileJson f).print spelling) := by
  unfold pushFile Json.commaPush
  dsimp only
  rw [o.fileMembers_eq, Members.addAll_new (o.isKey_fileTable f)]
  rfl

theorem foldl_pushFile (out : Text) (files : List OpenFile) :
    (files.foldl o.pushFile (out ++ ['['], true)).1 ++ [']'] =
      out ++ (Json.arr (files.map o.fileJson)).print spelling := by
  have hstep : o.pushFile = fun acc f => Json.commaPush acc ((o.fileJson f).print spelling) :=
    funext fun acc => funext fun f => o.pushFile_eq acc f
  rw [hstep, ← foldl_map (f := fun f => (o.fileJson f).print spelling), Json.foldl_commaPush, Json.print,
    Json.printItems_eq, map_map]
  simp [Function.comp_def]

theorem pushProcess_eq (acc : Text × Bool) (p : Process) :
    o.pushProcess acc p = Json.commaPush acc ((o.processJson p).print spelling) := by
  have hkeys : ∀ e ∈ present (o.procTable p) ++ [("files".toList, Json.arr (p.files.map o.fileJson))],
      IsKey e.1 := by
    refine forall_mem_append.mpr ⟨o.isKey_procTable p, ?_⟩
    rw [forall_mem_singleton]
    exact (by decide : IsKey "files".toList)
  unfold pushProcess Json.commaPush
  dsimp only
  rw [processJson, ← Members.addAll_new hkeys, Members.addAll_append, o.procMembers_eq,
    show ([']', '\x7d'] : Text) = [']'] ++ ['\x7d'] from rfl, ← append_assoc, o.foldl_pushFile]
  rfl

theorem writeAggregated_eq (procs : List Process) :
    o.writeAggregated procs = (o.document procs).print spelling ++ ['\n'] := by
  have hstep : o.pushProcess = fun acc p => Json.commaPush acc ((o.processJson p).print spelling) :=
    funext fun acc => funext fun p => o.pushProcess_eq acc p
  have hversion : spelling.string "lsof_version".toList = "\"lsof_version\"".toList := by decide
  have hprocesses : spelling.string "processes".toList = "\"processes\"".toList := by decide
  have hstring : spelling.string o.version = '"' :: (o.version.flatMap jsonChar ++ ['"']) := rfl
  unfold writeAggregated document
  dsimp only
  rw [hstep, ← foldl_map (f := fun p => (o.processJson p).print spelling), Json.foldl_commaPush]
  simp only [Json.print, Json.printMembers_eq, Json.printItems_eq, map_cons, map_nil, map_map,
    intercalate_cons_cons, intercalate_singleton, hversion, hprocesses, hstring, pushStr,
    Function.comp_def]
  simp

theorem procTable_ne_nil (p : Process) : present (o.procTable p) ≠ [] := cons_ne_nil _ _

theorem fileLine_eq (p : Process) (f : OpenFile) :
    o.fileLine (o.procMembers (Members.new []) p).out f = (o.lineJson p f).print spelling ++ ['\n'] := by
  have hkeys : ∀ e ∈ present (o.procTable p) ++ present (o.fileTable f), IsKey e.1 :=
    forall_mem_append.mpr ⟨o.isKey_procTable p, o.isKey_fileTable f⟩
  have hline := Members.addAll_new hkeys []
  rw [nil_append, nil_append] at hline
  unfold fileLine lineJson
  rw [← hline, o.procMembers_eq, o.fileMembers_eq, Members.addAll_append]
  -- the members of the process leave a comma due, with a brace before them or without
  obtain ⟨e, es, hes⟩ := exists_cons_of_ne_nil (o.procTable_ne_nil p)
  have hhead : ([','].intercalate ((e :: es).map memberText)).isEmpty = false := by
    rw [map_cons, Text.intercalate_cons]
    rfl
  rw [hes, Members.addAll_new_cons, Members.addAll_new_cons, nil_append, hhead]
  exact (append_assoc _ ['\x7d'] ['\n']).symm

def lineTexts (procs : List Process) : List Text :=
  procs.flatMap fun p => p.files.map fun f => (o.lineJson p f).print spelling

theorem writeLines_eq (procs : List Process) : o.writeLines procs = (o.lineTexts procs).flatMap (· ++ ['\n']) := by
  have hfiles : ∀ (out : Text) (p : Process),
      p.files.foldl (fun out f => out ++ o.fileLine (o.procMembers (Members.new []) p).out f) out =
        out ++ (p.files.map fun f => (o.lineJson p f).print spelling ++ ['\n']).flatten := by
    intro out p
    rw [foldl_append_eq_append]
    exact congrArg (fun t : List Text => out ++ t.flatten) (map_congr_left fun f _ => o.fileLine_eq p f)
  unfold writeLines
  dsimp only
  simp only [hfiles]
  rw [foldl_append_eq_append, lineTexts, nil_append, flatMap_assoc]
  simp only [flatMap_def, map_map, Function.comp_def]

/-- An entry's value, if it has one, gives no key twice. -/
def Given (value : Option Json) : Prop := ∀ v, value = some v → v.Distinct

theorem given_chosen {α : Type} {wanted : Bool} {shown : α → Json} (h : ∀ a, (shown a).Distinct)
    (value : Option α) : Given (chosen wanted shown value) := by
  intro v hv
  unfold chosen at hv
  split at hv
  next =>
    obtain ⟨a, -, rfl⟩ := Option.map_eq_some_iff.mp hv
    exact h a
  next => cases hv

theorem given_some {v : Json} : Given (some v) ↔ v.Distinct := by simp [Given]

theorem distinct_obj {members : List (Text × Json)} {table : List (Text × Option Json)}
    (hmembers : members = present table) (hkeys : (table.map Prod.fst).Nodup)
    (hvalues : ∀ e ∈ table, Given e.2) : (Json.obj members).Distinct := by
  subst hmembers
  exact .obj (hkeys.sublist (keys_present table)) fun _ he => hvalues _ (mem_of_mem_present he) _ rfl

theorem distinct_ofNat (n : Nat) : (Json.num n).Distinct := .num n

theorem given_procTable (p : Process) : ∀ e ∈ o.procTable p, Given e.2 := by
  have huid : ∀ n : Nat, (Json.num (BitVec.ofNat 32 n).toInt).Distinct := fun n => .num _
  simp only [procTable, forall_mem_cons, given_some, distinct_ofNat, given_chosen distinct_ofNat,
    given_chosen huid, given_chosen Json.Distinct.str, true_and]
  exact forall_mem_nil _

theorem given_tcpTable (f : OpenFile) (sock : SocketInfo) : ∀ e ∈ o.tcpTable f sock, Given e.2 := by
  simp only [tcpTable, forall_mem_cons, given_chosen distinct_ofNat, given_chosen Json.Distinct.str, true_and]
  exact forall_mem_nil _

theorem given_fileTable (f : OpenFile) : ∀ e ∈ o.fileTable f, Given e.2 := by
  have htcp : ∀ sock, (Json.obj (present (o.tcpTable f sock))).Distinct := fun sock =>
    distinct_obj rfl (by rw [o.tcpTable_keys f sock]; decide) (o.given_tcpTable f sock)
  simp only [fileTable, forall_mem_cons, given_chosen distinct_ofNat, given_chosen htcp,
    given_chosen Json.Distinct.str, true_and]
  exact forall_mem_nil _

theorem distinct_lineJson (p : Process) (f : OpenFile) : (o.lineJson p f).Distinct :=
  @distinct_obj _ (o.procTable p ++ o.fileTable f) filterMap_append.symm
    (by rw [map_append, o.procTable_keys, o.fileTable_keys]; decide)
    (forall_mem_append.mpr ⟨o.given_procTable p, o.given_fileTable f⟩)

theorem distinct_fileJson (f : OpenFile) : (o.fileJson f).Distinct :=
  distinct_obj rfl (by rw [o.fileTable_keys f]; decide) (o.given_fileTable f)

theorem distinct_processJson (p : Process) : (o.processJson p).Distinct := by
  have hfiles : (Json.arr (p.files.map o.fileJson)).Distinct :=
    .arr (forall_mem_map.mpr fun f _ => o.distinct_fileJson f)
  refine @distinct_obj _ (o.procTable p ++ [("files".toList, some (.arr (p.files.map o.fileJson)))]) ?_ ?_ ?_
  · rw [present, present, filterMap_append]
    rfl
  · rw [map_append, o.procTable_keys]
    exact (by decide : ((["pid", "tid", "task_cmd", "pgid", "ppid", "command", "uid", "login", "files"] :
      List String).map String.toList).Nodup)
  · refine forall_mem_append.mpr ⟨o.given_procTable p, ?_⟩
    rw [forall_mem_singleton]
    exact given_some.mpr hfiles

theorem distinct_document (procs : List Process) : (o.document procs).Distinct := by
  have hkeys : ((["lsof_version", "processes"] : List String).map String.toList).Nodup := by decide
  refine .obj hkeys ?_
  rw [forall_mem_cons, forall_mem_singleton]
  exact ⟨.str _, .arr (forall_mem_map.mpr fun p _ => o.distinct_processJson p)⟩

def flattenProcess : Json → List Json
  | .obj members =>
    match members.lookup "files".toList with
    | some (.arr files) =>
      files.map fun file =>
        match file with
        | .obj more => .obj (members.filter (fun m => m.1 != "files".toList) ++ more)
        | other => other
    | _ => []
  | _ => []

/-- The objects of each file of a document, in its order. -/
def flattenDocument : Json → List Json
  | .obj members =>
    match members.lookup "processes".toList with
    | some (.arr processes) => processes.flatMap flattenProcess
    | _ => []
  | _ => []

theorem flattenProcess_processJson (p : Process) : flattenProcess (o.processJson p) = p.files.map (o.lineJson p) := by
  have hne : ∀ e ∈ present (o.procTable p), e.1 ≠ "files".toList := by
    intro e he hkey
    have hmem : "files".toList ∈ (o.procTable p).map Prod.fst :=
      hkey ▸ mem_map_of_mem (mem_of_mem_present he)
    rw [o.procTable_keys] at hmem
    exact absurd hmem (by decide)
  have hlookup : (present (o.procTable p) ++ [("files".toList, Json.arr (p.files.map o.fileJson))]).lookup
      "files".toList = some (.arr (p.files.map o.fileJson)) := by
    rw [lookup_append, lookup_eq_none_iff.mpr, Option.none_or, lookup_cons_self]
    exact fun e he => bne_iff_ne.mpr (hne e he).symm
  have hfilter : (present (o.procTable p) ++ [("files".toList, Json.arr (p.files.map o.fileJson))]).filter
      (fun m => m.1 != "files".toList) = present (o.procTable p) := by
    rw [filter_append, filter_eq_self.mpr fun e he => bne_iff_ne.mpr (hne e he)]
    exact append_nil _
  unfold flattenProcess processJson
  dsimp only
  rw [hlookup, hfilter]
  dsimp only
  rw [map_map]
  rfl

theorem flattenDocument_document (procs : List Process) :
    flattenDocument (o.document procs) = procs.flatMap fun p => p.files.map (o.lineJson p) := by
  have hprocess : ∀ procs : List Process,
      ((procs.filter fun p => !p.files.isEmpty).map o.processJson).flatMap flattenProcess =
        procs.flatMap fun p => p.files.map (o.lineJson p) := by
    intro procs
    induction procs with
    | nil => rfl
    | cons p procs ih =>
      rw [filter_cons, flatMap_cons]
      split
      next => rw [map_cons, flatMap_cons, o.flattenProcess_processJson, ih]
      next hfiles =>
        have hnil : p.files = [] := by simpa using hfiles
        rw [ih, hnil]
        rfl
  exact hprocess procs

/-- The document is one line of JSON, the output of `-j` a line of JSON for each
file, no key is given twice, and the lines are the document flattened. -/
theorem write_read_back (procs : List Process) :
    (∃ text, o.writeAggregated procs = text ++ ['\n'] ∧ Printable text ∧ Json.parse text = some (o.document procs)) ∧
      (o.document procs).Distinct ∧
      ∃ lines : List Text, o.writeLines procs = lines.flatMap (· ++ ['\n']) ∧
        (∀ line ∈ lines, Printable line) ∧
        lines.map Json.parse = (flattenDocument (o.document procs)).map some ∧
        lines = (flattenDocument (o.document procs)).map (Json.print spelling) ∧
        (∀ v ∈ flattenDocument (o.document procs), v.Distinct) ∧
        lines.length = (procs.flatMap Process.files).length := by
  have hlines : o.lineTexts procs = (flattenDocument (o.document procs)).map (Json.print spelling) := by
    rw [o.flattenDocument_document, map_flatMap]
    simp only [lineTexts, map_map, Function.comp_def]
  refine ⟨⟨_, o.writeAggregated_eq procs, printable_print _, Json.parse_print spelling _⟩,
    o.distinct_document procs, o.lineTexts procs, o.writeLines_eq procs, ?_, ?_, hlines, ?_, ?_⟩
  · rw [hlines]
    exact forall_mem_map.mpr fun v _ => printable_print v
  · rw [hlines, map_map]
    exact map_congr_left fun v _ => Json.parse_print spelling v
  · rw [o.flattenDocument_document]
    intro v hv
    obtain ⟨p, -, hv⟩ := mem_flatMap.mp hv
    obtain ⟨f, -, rfl⟩ := mem_map.mp hv
    exact o.distinct_lineJson p f
  · simp only [lineTexts, length_flatMap, length_map]

end JsonOpts

end Lsof.Render
