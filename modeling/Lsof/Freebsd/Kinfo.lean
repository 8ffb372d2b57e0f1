import Lsof.Basis.Firsts
import Lsof.Basis.Json
import Lsof.Basis.Views

/-! # Records from sysctl

What the FreeBSD backend cuts from the buffers the kernel fills: `kinfo_proc`s,
`kinfo_file`s, `kinfo_lockf`s, `xfile`s and lists of protocol control blocks.
Integers are in the host's byte order.
-/

namespace Lsof.Freebsd

open Lsof.Basis List

section Fields

variable (order : ByteOrder) (b : View) (off : Nat)

def u32At : Reading (Option Nat) := b.number order 4 off

def i32At : Reading (Option Int) := do
  let n ← b.number order 4 off
  return n.map fun n => (BitVec.ofNat 32 n).toInt

def u64At : Reading (Option Nat) := b.number order 8 off

def i64At : Reading (Option Int) := do
  let n ← b.number order 8 off
  return n.map fun n => (BitVec.ofNat 64 n).toInt

def byteAt : Reading (Option UInt8) :=
  match b.bytes[off]? with
  | none => pure none
  | some byte => ⟨some byte, [b.base + off]⟩

/-- The bytes of a field up to its NUL, to its end or to that of the buffer. -/
def cstrAt (len : Nat) : Reading Bytes :=
  let field := (b.bytes.drop off).take len
  ⟨field.takeWhile (· ≠ 0), List.range' (b.base + off) field.length⟩

def sizeAt : Reading (Option Nat) := do
  let size ← i32At order b off
  return size.bind fun s => if 0 ≤ s then some s.toNat else none

end Fields

/-- `chunks_exact`: what is done with one record of `size` bytes says whether to go on. -/
def chunkTurn {γ : Type} (size : Nat) (each : View → γ → Reading (γ × Bool)) (v : View) (out : γ) :
    Reading (γ × Option View) :=
  match v.slice 0 size with
  | none => pure (out, none)
  | some rec => do
    let done ← each rec out
    return (done.1, if done.2 then v.after size else none)

def cut {γ : Type} (turn : View → γ → Reading (γ × Option View)) (v : View) (out : γ) : Reading (Option γ) :=
  turns turn (v.length + 1) v out

structure KProc where
  pid : Int
  ppid : Int
  pgid : Int
  uid : Nat
  stat : UInt8
  comm : Bytes
  deriving DecidableEq, Repr

structure ProcLayout where
  size : Nat
  pid : Nat
  ppid : Nat
  pgid : Nat
  uid : Nat
  stat : Nat
  comm : Nat
  pos : 0 < size := by decide

def PROC_AMD64 : ProcLayout := { size := 1088, pid := 72, ppid := 76, pgid := 80, uid := 168, stat := 388, comm := 447 }

def PROC_I386 : ProcLayout := { size := 768, pid := 40, ppid := 44, pgid := 48, uid := 136, stat := 308, comm := 367 }

def COMMLEN : Nat := 19

def procRec (order : ByteOrder) (l : ProcLayout) (rec : View) (out : Except Text (List KProc)) :
    Reading (Except Text (List KProc) × Bool) := do
  let size := (← i32At order rec 0).getD 0
  if size ≠ l.size then
    return (.error ("kinfo_proc is ".toList ++ Json.ofInt size ++ " bytes here; this lsof reads ".toList ++
      Text.ofNat l.size), false)
  let pid := (← i32At order rec l.pid).getD 0
  let ppid := (← i32At order rec l.ppid).getD 0
  let pgid := (← i32At order rec l.pgid).getD 0
  let uid := (← u32At order rec l.uid).getD 0
  let stat := (← byteAt rec l.stat).getD 0
  let comm ← cstrAt rec l.comm (COMMLEN + 1)
  let proc : KProc := { pid, ppid, pgid, uid, stat, comm }
  return (out.map (· ++ [proc]), true)

def procs (order : ByteOrder) (buf : Bytes) : Option ProcLayout → Reading (Option (Except Text (List KProc)))
  | none => pure (some (.error "no kinfo_proc layout is known for this architecture".toList))
  | some l => cut (chunkTurn l.size (procRec order l)) (.whole buf) (.ok [])

def KF_PATH : Nat := 368

def KF_MAX_SIZE : Nat := 1392

def fileTurn (order : ByteOrder) (v : View) (out : List Bytes) : Reading (List Bytes × Option View) := do
  if v.length = 0 then return (out, none)
  match ← sizeAt order v 0 with
  | none => return (out, none)
  | some size =>
    if ¬(KF_PATH ≤ size ∧ size ≤ KF_MAX_SIZE) then return (out, none)
    match v.slice 0 size with
    | none => return (out, none)
    | some rec => ⟨(out ++ [rec.bytes], v.after size), List.range' rec.base rec.length⟩

def files (order : ByteOrder) (buf : Bytes) : Reading (Option (List Bytes)) := cut (fileTurn order) (.whole buf) []

structure KLock where
  write : Bool
  pid : Int
  sysid : Int
  fsid : Nat
  fileid : Nat
  start : Int
  len : Int
  deriving DecidableEq, Repr

def KL_SIZE : Nat := 1088

def lockRec (order : ByteOrder) (rec : View) (out : List KLock) : Reading (List KLock × Bool) := do
  if (← sizeAt order rec 0) ≠ some KL_SIZE then return (out, false)
  let kind ← i32At order rec 4
  if kind ≠ some 1 ∧ kind ≠ some 2 then return (out, true)
  let pid := (← i32At order rec 12).getD 0
  let sysid := (← i32At order rec 16).getD 0
  let fsid := (← u64At order rec 24).getD 0
  let fileid := (← u64At order rec 40).getD 0
  let start := (← i64At order rec 48).getD 0
  let len := (← i64At order rec 56).getD 0
  let lock : KLock := { write := kind = some 2, pid, sysid, fsid, fileid, start, len }
  return (out ++ [lock], true)

def locks (order : ByteOrder) (buf : Bytes) : Reading (Option (List KLock)) :=
  cut (chunkTurn KL_SIZE (lockRec order)) (.whole buf) []

structure Pcb where
  so : Nat
  tState : Option Int
  deriving DecidableEq, Repr

structure PcbLayout where
  len : Nat
  soPcb : Nat
  xsoSo : Nat
  tState : Option Nat
  keyed : soPcb + 8 ≤ len := by decide

def XTCPCB : PcbLayout := { len := 744, soPcb := 32, xsoSo := 24, tState := some 568 }

def XINPCB : PcbLayout := { len := 400, soPcb := 24, xsoSo := 16, tState := none }

def XUNPCB : PcbLayout := { len := 904, soPcb := 680, xsoSo := 672, tState := none }

def pcbOf (order : ByteOrder) (l : PcbLayout) (rec : View) : Reading Pcb := do
  let so := (← u64At order rec l.xsoSo).getD 0
  match l.tState with
  | none => return { so, tState := none }
  | some o => return { so, tState := ← i32At order rec o }

def pcbTurn (order : ByteOrder) (l : PcbLayout) (v : View) (out : List (Nat × Pcb)) :
    Reading (List (Nat × Pcb) × Option View) := do
  if (← u64At order v 0) ≠ some l.len then return (out, none)
  match v.slice 0 l.len with
  | none => return (out, none)
  | some rec =>
    let pcb ← pcbOf order l rec
    match ← u64At order rec l.soPcb with
    | none => return (out, v.after l.len)
    | some key => return (keepFirst Prod.fst out (key, pcb), v.after l.len)

def pcblist (order : ByteOrder) (buf : Bytes) (l : PcbLayout) : Reading (Option (List (Nat × Pcb))) := do
  match ← u64At order (.whole buf) 0 with
  | none => return some []
  | some head =>
    match (View.whole buf).after head with
    | none => return some []
    | some v => cut (pcbTurn order l) v []

def XF_SIZE : Nat := 128

def xfileRec (order : ByteOrder) (rec : View) (out : List ((Int × Int) × Nat)) :
    Reading (List ((Int × Int) × Nat) × Bool) := do
  if (← u64At order rec 0) ≠ some XF_SIZE then return (out, false)
  match ← i32At order rec 8, ← i32At order rec 16, ← u64At order rec 24 with
  | some pid, some fd, some file => return (keepFirst Prod.fst out ((pid, fd), file), true)
  | _, _, _ => return (out, true)

def xfiles (order : ByteOrder) (buf : Bytes) : Reading (Option (List ((Int × Int) × Nat))) :=
  cut (chunkTurn XF_SIZE (xfileRec order)) (.whole buf) []

section Within

variable {order : ByteOrder} {buf : Bytes} {b : View} {γ : Type}

theorem within_i32At (h : b.Of buf) (off : Nat) : (i32At order b off).Within buf.length :=
  (h.within_number order 4 off).bind (.pure _ _)

theorem within_i64At (h : b.Of buf) (off : Nat) : (i64At order b off).Within buf.length :=
  (h.within_number order 8 off).bind (.pure _ _)

theorem within_sizeAt (h : b.Of buf) (off : Nat) : (sizeAt order b off).Within buf.length :=
  (within_i32At h off).bind (.pure _ _)

theorem within_byteAt (h : b.Of buf) (off : Nat) : (byteAt b off).Within buf.length := by
  unfold byteAt
  cases hbyte : b.bytes[off]? with
  | none => exact .pure _ _
  | some byte =>
    intro i hi
    have hle := h.le
    have hlt := (List.getElem?_eq_some_iff.mp hbyte).choose
    rw [mem_singleton.mp hi]
    rw [View.length] at hle
    omega

theorem within_cstrAt (h : b.Of buf) (off len : Nat) : (cstrAt b off len).Within buf.length := by
  intro i hi
  have hle := h.le
  obtain ⟨k, hk, rfl⟩ := mem_range'.mp hi
  rw [View.length] at hle
  simp only [length_take, length_drop] at hk
  omega

structure Cuts (buf : Bytes) (turn : View → γ → Reading (γ × Option View)) : Prop where
  within : ∀ v out, v.Of buf → (turn v out).Within buf.length
  next : ∀ v out next, (turn v out).value.2 = some next → ∃ a, 0 < a ∧ v.after a = some next

theorem Cuts.cut {turn : View → γ → Reading (γ × Option View)} (h : Cuts buf turn) (hb : b.Of buf) (out : γ) :
    (cut turn b out).value.isSome ∧ (cut turn b out).Within buf.length := by
  refine ⟨turns_isSome (fun v s next hnext => ?_) (Nat.lt_succ_self _) out, turns_within (fun v s hv => ⟨h.within v s hv, ?_⟩) _ hb out⟩
  · obtain ⟨a, ha, hafter⟩ := h.next v s next hnext
    have hlength := View.length_of_slice hafter
    have hle := View.le_of_slice hafter
    omega
  · intro next hnext
    obtain ⟨a, -, hafter⟩ := h.next v s next hnext
    exact hv.after hafter

theorem cuts_chunkTurn {size : Nat} (hsize : 0 < size) {each : View → γ → Reading (γ × Bool)}
    (heach : ∀ rec out, rec.Of buf → (each rec out).Within buf.length) : Cuts buf (chunkTurn size each) := by
  constructor
  · intro v out hv
    unfold chunkTurn
    cases hslice : v.slice 0 size with
    | none => exact .pure _ _
    | some rec => exact (heach rec out (hv.slice hslice)).bind (.pure _ _)
  · intro v out next hnext
    unfold chunkTurn at hnext
    cases hslice : v.slice 0 size with
    | none => rw [hslice] at hnext; cases hnext
    | some rec =>
      rw [hslice] at hnext
      change (if (each rec out).value.2 then v.after size else none) = some next at hnext
      split at hnext
      · exact ⟨size, hsize, hnext⟩
      · cases hnext

theorem within_procRec (h : b.Of buf) (l : ProcLayout) (out : Except Text (List KProc)) :
    (procRec order l b out).Within buf.length := by
  refine (within_i32At h 0).bind ?_
  dsimp only
  split
  · exact .pure _ _
  · exact (within_i32At h _).bind <| (within_i32At h _).bind <| (within_i32At h _).bind <|
      (h.within_number order 4 _).bind <| (within_byteAt h _).bind <| (within_cstrAt h _ _).bind (.pure _ _)

theorem within_lockRec (h : b.Of buf) (out : List KLock) : (lockRec order b out).Within buf.length := by
  refine (within_sizeAt h 0).bind ?_
  split
  · exact .pure _ _
  · refine (within_i32At h _).bind ?_
    split
    · exact .pure _ _
    · exact (within_i32At h _).bind <| (within_i32At h _).bind <| (h.within_number order 8 _).bind <|
        (h.within_number order 8 _).bind <| (within_i64At h _).bind <| (within_i64At h _).bind (.pure _ _)

theorem within_xfileRec (h : b.Of buf) (out : List ((Int × Int) × Nat)) :
    (xfileRec order b out).Within buf.length := by
  refine (h.within_number order 8 0).bind ?_
  split
  · exact .pure _ _
  · refine (within_i32At h _).bind <| (within_i32At h _).bind <| (h.within_number order 8 _).bind ?_
    split <;> exact .pure _ _

theorem within_pcbOf (h : b.Of buf) (l : PcbLayout) : (pcbOf order l b).Within buf.length := by
  refine (h.within_number order 8 _).bind ?_
  split
  · exact .pure _ _
  · exact (within_i32At h _).bind (.pure _ _)

theorem cuts_fileTurn : Cuts buf (fileTurn order) := by
  constructor
  · intro v out hv
    unfold fileTurn
    split
    · exact .pure _ _
    · refine (within_sizeAt hv 0).bind ?_
      split
      · exact .pure _ _
      · split
        · exact .pure _ _
        · split
          · exact .pure _ _
          next rec hrec =>
            intro i hi
            have hle := (hv.slice hrec).le
            obtain ⟨k, hk, rfl⟩ := mem_range'.mp hi
            omega
  · intro v out next hnext
    unfold fileTurn at hnext
    split at hnext
    · cases hnext
    · rw [Reading.value_bind] at hnext
      split at hnext
      · cases hnext
      next size _ =>
        split at hnext
        · cases hnext
        next hrange =>
          split at hnext
          · cases hnext
          · exact ⟨size, Nat.lt_of_lt_of_le (by decide) (not_not.mp hrange).1, hnext⟩

theorem cuts_pcbTurn (l : PcbLayout) : Cuts buf (pcbTurn order l) := by
  have hpos : 0 < l.len := Nat.lt_of_lt_of_le (Nat.succ_pos _) l.keyed
  constructor
  · intro v out hv
    refine (hv.within_number order 8 0).bind ?_
    split
    · exact .pure _ _
    · split
      · exact .pure _ _
      next rec hrec =>
        have hin := hv.slice hrec
        refine (within_pcbOf hin l).bind ((hin.within_number order 8 _).bind ?_)
        split <;> exact .pure _ _
  · intro v out next hnext
    unfold pcbTurn at hnext
    rw [Reading.value_bind] at hnext
    split at hnext
    · cases hnext
    · split at hnext
      · cases hnext
      · rw [Reading.value_bind, Reading.value_bind] at hnext
        split at hnext <;> exact ⟨l.len, hpos, hnext⟩

theorem pcblist_ends (l : PcbLayout) :
    (pcblist order buf l).value.isSome ∧ (pcblist order buf l).Within buf.length := by
  have hwhole := View.Of.whole buf
  constructor
  · rw [pcblist, Reading.value_bind]
    split
    · rfl
    · split
      · rfl
      next hafter => exact ((cuts_pcbTurn l).cut (hwhole.after hafter) []).1
  · refine (hwhole.within_number order 8 0).bind ?_
    split
    · exact .pure _ _
    · split
      · exact .pure _ _
      next hafter => exact ((cuts_pcbTurn l).cut (hwhole.after hafter) []).2

end Within

section Exact

variable {order : ByteOrder}

/-- A `kinfo_file` whose first field is its own length. -/
def WellSized (order : ByteOrder) (r : Bytes) : Prop :=
  KF_PATH ≤ r.length ∧ r.length ≤ KF_MAX_SIZE ∧ (sizeAt order (.whole r) 0).value = some r.length

/-- No record: no size to read, one out of range, or more than is there. -/
def Broken (order : ByteOrder) (tail : Bytes) : Prop :=
  ∀ size, (sizeAt order (.whole tail) 0).value = some size → KF_PATH ≤ size → size ≤ KF_MAX_SIZE → tail.length < size

theorem wellSized_bytes (order : ByteOrder) {n : Nat} {rest : Bytes} (hn : 4 + rest.length = n) (hmin : KF_PATH ≤ n)
    (hmax : n ≤ KF_MAX_SIZE) : WellSized order (order.bytes 4 n ++ rest) := by
  have hlength : (order.bytes 4 n ++ rest).length = n := by rw [length_append, order.length_bytes, hn]
  have hsmall : n < 2 ^ 31 := Nat.lt_of_le_of_lt hmax (by decide)
  have hnumber : ((View.whole (order.bytes 4 n ++ rest)).number order 4 0).value = some n :=
    @View.value_number_bytes _ _ _ _ _ [] rest rfl rfl (by omega)
  have hint : (BitVec.ofNat 32 n).toInt = n := by
    rw [BitVec.toInt_ofNat', Int.bmod_eq_of_le (by omega) (by omega)]
  rw [WellSized, hlength]
  refine ⟨hmin, hmax, ?_⟩
  rw [sizeAt, i32At, Reading.value_bind, Reading.value_bind, hnumber]
  simp [hint]

theorem slice_record {v : View} {r rest : Bytes} (h : v.bytes = r ++ rest) :
    v.slice 0 r.length = some ⟨v.base, r⟩ ∧ v.after r.length = some ⟨v.base + r.length, rest⟩ := by
  have hslice := @View.slice_bytes v [] r rest h
  rw [length_nil, Nat.zero_add, Nat.add_zero] at hslice
  exact ⟨hslice, View.after_bytes h⟩

theorem value_sizeAt_congr {v u : View} (h : (v.number order 4 0).value = (u.number order 4 0).value) :
    (sizeAt order v 0).value = (sizeAt order u 0).value := by
  rw [sizeAt, sizeAt, i32At, i32At]
  simp only [Reading.value_bind, h]

theorem fileTurn_record {v : View} {r rest : Bytes} (hr : WellSized order r) (h : v.bytes = r ++ rest) (out : List Bytes) :
    ∃ next, (fileTurn order v out).value = (out ++ [r], some next) ∧ next.bytes = rest := by
  obtain ⟨hmin, hmax, hsize⟩ := hr
  have hlength : r.length ≤ v.length := by
    rw [View.length, h, length_append]
    omega
  have hread : (sizeAt order v 0).value = some r.length :=
    (value_sizeAt_congr (View.value_number_append h order (Nat.le_trans (by decide) hmin))).trans hsize
  obtain ⟨hslice, hafter⟩ := slice_record h
  have hnonempty : v.length ≠ 0 := Nat.ne_of_gt (Nat.lt_of_lt_of_le (by decide) (Nat.le_trans hmin hlength))
  refine ⟨⟨v.base + r.length, rest⟩, ?_, rfl⟩
  rw [fileTurn, if_neg hnonempty, Reading.value_bind, hread]
  dsimp only
  rw [if_neg (not_not.mpr ⟨hmin, hmax⟩), hslice, hafter]

theorem fileTurn_broken {v : View} (hbroken : Broken order v.bytes) (out : List Bytes) :
    (fileTurn order v out).value = (out, none) := by
  have hbytes : v.bytes = (View.whole v.bytes).bytes := rfl
  have hsame := value_sizeAt_congr (View.value_number_congr hbytes order 4 0)
  unfold fileTurn
  split
  · rfl
  · rw [Reading.value_bind, hsame]
    split
    · rfl
    next size hsize =>
      split
      · rfl
      next hrange =>
        obtain ⟨hmin, hmax⟩ := not_not.mp hrange
        have hshort : ¬(0 ≤ size ∧ size ≤ v.length) := fun hfits =>
          absurd hfits.2 (Nat.not_le_of_lt (hbroken size hsize hmin hmax))
        rw [View.slice, if_neg hshort]
        rfl

theorem value_files {rs : List Bytes} {tail : Bytes} (hrs : ∀ r ∈ rs, WellSized order r) (htail : Broken order tail) :
    (files order (rs.flatten ++ tail)).value = some rs := by
  have hrun : (cut (fileTurn order) (.whole (rs.flatten ++ tail)) []).value = some (rs.foldl (fun out r => out ++ [r]) []) :=
    turns_records (fun v s r rest hr hv => ⟨Nat.lt_of_lt_of_le (by decide) hr.1, fileTurn_record hr hv s⟩)
      (fun v s hv => fileTurn_broken (hv ▸ htail) s) hrs rfl (Nat.lt_succ_self _) []
  exact hrun.trans (congrArg some (by simpa [flatMap_def] using flatMap_singleton' rs))

def pcbEntry (order : ByteOrder) (l : PcbLayout) (r : Bytes) : Nat × Pcb :=
  ((u64At order (.whole r) l.soPcb).value.getD 0, (pcbOf order l (.whole r)).value)

theorem value_pcbOf_congr {v u : View} (h : v.bytes = u.bytes) (l : PcbLayout) :
    (pcbOf order l v).value = (pcbOf order l u).value := by
  unfold pcbOf u64At i32At
  rw [Reading.value_bind, Reading.value_bind, View.value_number_congr h]
  split
  · rfl
  · simp only [Reading.value_bind, View.value_number_congr h]

theorem pcbTurn_record {v : View} {l : PcbLayout} {r rest : Bytes} (hlength : r.length = l.len)
    (hlen : (u64At order (.whole r) 0).value = some l.len) (h : v.bytes = r ++ rest) (out : List (Nat × Pcb)) :
    ∃ next, (pcbTurn order l v out).value = (keepFirst Prod.fst out (pcbEntry order l r), some next) ∧
      next.bytes = rest := by
  have hkeyed := l.keyed
  have hread : (u64At order v 0).value = some l.len :=
    (View.value_number_append h order (by omega)).trans hlen
  obtain ⟨hslice, hafter⟩ := slice_record h
  have hkey : ((View.mk v.base r).number order 8 l.soPcb).value = some (pcbEntry order l r).1 := by
    have hfits : l.soPcb + 8 ≤ r.length := by omega
    have hwhole : (pcbEntry order l r).1 = ((View.whole r).number order 8 l.soPcb).value.getD 0 := rfl
    have hsame : (View.mk v.base r).bytes = (View.whole r).bytes := rfl
    rw [hwhole, View.value_number_congr hsame, View.number, if_pos (show l.soPcb + 8 ≤ (View.whole r).length from hfits)]
    rfl
  refine ⟨⟨v.base + r.length, rest⟩, ?_, rfl⟩
  rw [pcbTurn, Reading.value_bind, hread, if_neg (not_not.mpr rfl), ← hlength, hslice, hafter]
  dsimp only
  rw [Reading.value_bind, Reading.value_bind, u64At, hkey, @value_pcbOf_congr order ⟨v.base, r⟩ (.whole r) rfl]
  rfl

theorem pcbTurn_closing {v : View} {l : PcbLayout} (hlen : (u64At order (.whole v.bytes) 0).value ≠ some l.len)
    (out : List (Nat × Pcb)) : (pcbTurn order l v out).value = (out, none) := by
  have hbytes : v.bytes = (View.whole v.bytes).bytes := rfl
  rw [u64At, ← View.value_number_congr hbytes] at hlen
  rw [pcbTurn, Reading.value_bind, u64At, if_pos hlen]
  rfl

theorem value_pcblist {l : PcbLayout} {header closing : Bytes} {rs : List Bytes}
    (hheader : (u64At order (.whole header) 0).value = some header.length)
    (hrs : ∀ r ∈ rs, r.length = l.len ∧ (u64At order (.whole r) 0).value = some l.len)
    (hclosing : (u64At order (.whole closing) 0).value ≠ some l.len) :
    (pcblist order (header ++ (rs.flatten ++ closing)) l).value = some (firsts Prod.fst (rs.map (pcbEntry order l))) := by
  have hlong : 0 + 8 ≤ header.length := by
    by_contra hshort
    rw [u64At, View.number, if_neg (show ¬(0 + 8 ≤ (View.whole header).length) from hshort)] at hheader
    cases hheader
  have hread := (View.value_number_append (v := .whole (header ++ (rs.flatten ++ closing))) rfl order hlong).trans hheader
  have hkeyed := l.keyed
  have hrun : (cut (pcbTurn order l) ⟨0 + header.length, rs.flatten ++ closing⟩ []).value =
      some (rs.foldl (fun out r => keepFirst Prod.fst out (pcbEntry order l r)) []) :=
    turns_records (fun v s r rest hr hv => ⟨by omega, pcbTurn_record hr.1 hr.2 hv s⟩)
      (fun v s hv => pcbTurn_closing (hv ▸ hclosing) s) hrs rfl (Nat.lt_succ_self _) []
  rw [pcblist, Reading.value_bind, u64At, hread]
  dsimp only
  rw [View.after_bytes (v := .whole (header ++ (rs.flatten ++ closing))) rfl, firsts, foldl_map]
  exact hrun

end Exact

/-- `kinfo_file`s of any sizes in range, and a broken one after them, give back exactly
those before it; control blocks between a header and a record of another length
give the first of each key; and whatever the bytes, every list comes to its end
and no read is outside the buffer. -/
theorem sysctl_cut_exactly (order : ByteOrder) :
    (∀ (rs : List Bytes) tail, (∀ r ∈ rs, WellSized order r) → Broken order tail →
      (files order (rs.flatten ++ tail)).value = some rs) ∧
    (∀ (l : PcbLayout) header (rs : List Bytes) closing, (u64At order (.whole header) 0).value = some header.length →
      (∀ r ∈ rs, r.length = l.len ∧ (u64At order (.whole r) 0).value = some l.len) →
      (u64At order (.whole closing) 0).value ≠ some l.len →
      ∃ out, (pcblist order (header ++ (rs.flatten ++ closing)) l).value = some out ∧ (out.map Prod.fst).Nodup ∧
        ∀ key pcb, (key, pcb) ∈ out ↔
          (rs.map (pcbEntry order l)).find? (fun e => e.1 = key) = some (key, pcb)) ∧
    ∀ buf, ((files order buf).value.isSome ∧ (files order buf).Within buf.length) ∧
      (∀ l, (pcblist order buf l).value.isSome ∧ (pcblist order buf l).Within buf.length) ∧
      ((locks order buf).value.isSome ∧ (locks order buf).Within buf.length) ∧
      ((xfiles order buf).value.isSome ∧ (xfiles order buf).Within buf.length) ∧
      ∀ l, (procs order buf l).value.isSome ∧ (procs order buf l).Within buf.length := by
  refine ⟨fun rs tail hrs htail => value_files hrs htail, fun l header rs closing hheader hrs hclosing =>
    ⟨_, value_pcblist hheader hrs hclosing, nodup_map_firsts _ _, fun key pcb => mem_firsts_iff _ _ (key, pcb)⟩,
    fun buf => ?_⟩
  have hwhole := View.Of.whole buf
  refine ⟨cuts_fileTurn.cut hwhole _, pcblist_ends, (cuts_chunkTurn (by decide) fun _ _ h => within_lockRec h _).cut hwhole _,
    (cuts_chunkTurn (by decide) fun _ _ h => within_xfileRec h _).cut hwhole _, fun l => ?_⟩
  cases l with
  | none => exact ⟨rfl, .pure _ _⟩
  | some l => exact (cuts_chunkTurn l.pos fun _ _ h => within_procRec h l _).cut hwhole _

theorem sysctl_cut_exactly_two :
    (files .little (([ByteOrder.little.bytes 4 368 ++ List.replicate 364 0] : List Bytes).flatten ++ [1, 2])).value =
      some [ByteOrder.little.bytes 4 368 ++ List.replicate 364 0] ∧
    ∃ out, (pcblist .big ([0, 0, 0, 0, 0, 0, 0, 8] ++ (([[0, 0, 0, 0, 0, 0, 0, 16, 0, 0, 0, 0, 0, 0, 0, 7]] : List Bytes).flatten
      ++ [0, 0, 0, 0, 0, 0, 0, 8])) ⟨16, 8, 8, none, by decide⟩).value = some out ∧ (7, ⟨7, none⟩) ∈ out := by
  refine ⟨(sysctl_cut_exactly .little).1 _ _ (forall_mem_singleton.mpr (wellSized_bytes .little ?_ ?_ ?_)) ?_, ?_⟩
  · rw [length_replicate]
  · decide
  · decide
  · intro size hsize
    cases hsize
  · obtain ⟨out, hout, -, hmem⟩ := (sysctl_cut_exactly .big).2.1 ⟨16, 8, 8, none, by decide⟩ [0, 0, 0, 0, 0, 0, 0, 8]
      [[0, 0, 0, 0, 0, 0, 0, 16, 0, 0, 0, 0, 0, 0, 0, 7]] [0, 0, 0, 0, 0, 0, 0, 8] (by decide) (by decide) (by decide)
    exact ⟨out, hout, (hmem 7 ⟨7, none⟩).mpr (by decide)⟩

end Lsof.Freebsd
