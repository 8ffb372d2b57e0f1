import Lsof.Basis.Buffer
import Lsof.Basis.Lines
import Lsof.Original.Network

/-! # Internet addresses in the name buffer

`printinaddr()` puts the local and the foreign address of a socket in `Namech`,
appending with a pointer and a count of what is left that it keeps by hand. What
the look-ups of names answer is any string.
-/

namespace Lsof.Original

open Lsof.Basis List

/-- A string of the C, which its NUL ends. -/
structure CString where
  text : Text
  noNul : Char.ofNat 0 ∉ text
  deriving DecidableEq, Repr

/-! ## What is to be printed -/

/-- An element of `li`. AF_INET uses the first four bytes of the address. -/
structure InetEnd where
  af : Option Af
  ia : BitVec 128
  p : Int
  deriving DecidableEq, Repr

/-- The options of names, and the answers of `gethostnm()` and `lkup_port()`. -/
structure NameLookups where
  fport : Bool
  fportMap : Bool
  gethostnm : BitVec 128 → Af → Option CString
  lkupPort : Int → (udp : Bool) → (src : Nat) → Option CString

def star : CString := ⟨['*'], by decide⟩

def portNumber (p : Nat) : CString where
  text := Text.ofNat p
  noNul hnul := absurd (Text.isDigit_of_mem_ofNat hnul) (by decide)

def InetEnd.isAny (e : InetEnd) : Bool :=
  match e.af with
  | some .inet6 => e.ia == 0
  | _ => first4 e.ia == 0

def InetEnd.host (names : NameLookups) (e : InetEnd) (af : Af) : Option CString :=
  if e.isAny then some star else names.gethostnm e.ia af

/-- Whether a foreign port is looked up as one of this host. -/
def sameHost (near far : InetEnd) : Bool :=
  match near.af with
  | some .inet6 => far.ia == 1 || near.ia == far.ia
  | some .inet => first4 far.ia == 0x7f000001 || first4 near.ia == first4 far.ia
  | none => false

/-- `src`: 0 for this host, 1 for another. -/
def portSource (names : NameLookups) (near e : InetEnd) (foreign : Bool) : Nat :=
  if foreign then if names.fportMap && sameHost near e then 0 else 1 else 0

def portText (names : NameLookups) (iproto : Text) (near e : InetEnd) (foreign : Bool) : Option CString :=
  if e.p > 0 then
    let found :=
      if names.fport || names.fportMap then
        if iproto.toAsciiLowercase = "tcp".toList then names.lkupPort e.p false (portSource names near e foreign)
        else if iproto.toAsciiLowercase = "udp".toList then
          names.lkupPort e.p true (portSource names near e foreign)
        else none
      else none
    some (found.getD (portNumber e.p.toNat))
  else if e.p = 0 then some star
  else none

structure ShownEnd where
  host : Option CString
  port : Option CString
  deriving DecidableEq, Repr

def shownEnd (names : NameLookups) (iproto : Text) (near e : InetEnd) (foreign : Bool) : Option ShownEnd :=
  e.af.map fun af => { host := e.host names af, port := portText names iproto near e foreign }

/-! ## The buffer -/

/-- `Namech`, where the next write goes, and what is taken to be left. -/
structure Cursor where
  mem : Memory Char
  np : Nat
  nl : Nat

/-- `snpf()`, which writes at most the length it is given, its NUL included. -/
def snpf (m : Memory Char) (np nl : Nat) (s : Text) : Memory Char := m.storeString (Char.ofNat 0) np nl s

/-- What is in the buffer when the addresses are found to be too long. -/
abbrev Put := Except (Memory Char) Cursor

def putArrow (st : Cursor) : Put :=
  if st.nl < 2 then .error st.mem
  else .ok { mem := snpf st.mem st.np st.nl "->".toList, np := st.np + 2, nl := st.nl - 2 }

def putHost (host : Option CString) (st : Cursor) : Put :=
  match host with
  | none => .ok st
  | some h =>
    if h.text.length > st.nl then .error st.mem
    else if h.text.length ≠ 0 then
      .ok { mem := snpf st.mem st.np st.nl h.text, np := st.np + h.text.length, nl := st.nl - h.text.length }
    else .ok st

/-- The count goes down by `len - 1`. -/
def putPort (port : Option CString) (st : Cursor) : Put :=
  match port with
  | none => .ok st
  | some p =>
    if p.text.length + 1 ≥ st.nl then .error st.mem
    else .ok { mem := snpf st.mem st.np st.nl (':' :: p.text), np := st.np + (p.text.length + 1),
               nl := st.nl + 1 - p.text.length }

def putEnd (shown : Option ShownEnd) (foreign : Bool) (st : Cursor) : Put :=
  match shown with
  | none => .ok st
  | some e => (if foreign then putArrow st else .ok st) >>= putHost e.host >>= putPort e.port

def tooLong : Text := "network addresses too long".toList

/-- Both ends, in a buffer of `namechl` bytes. -/
def putEnds (near far : Option ShownEnd) (namechl : Nat) (namech : Memory Char) : Memory Char :=
  let start : Cursor := { mem := namech.store 0 [Char.ofNat 0], np := 0, nl := namechl - 1 }
  match putEnd near false start >>= putEnd far true with
  | .ok st => st.mem
  | .error m => snpf m 0 namechl tooLong

def printinaddr (names : NameLookups) (iproto : Text) (li : InetEnd × InetEnd) (namechl : Nat)
    (namech : Memory Char) : Memory Char × Bool :=
  let m := putEnds (shownEnd names iproto li.1 li.1 false) (shownEnd names iproto li.1 li.2 true) namechl namech
  (m, m.cells 0 != Char.ofNat 0)

/-! ## Piece by piece -/

/-- What one call of `snpf()` appends. After a port too much is taken to be left. -/
structure Appended where
  port : Bool
  text : Text

def Appended.step (a : Appended) : Nat := if a.port then 2 else 0

def putPiece (st : Cursor) (a : Appended) : Put :=
  if st.nl < a.text.length ∨ (a.port = true ∧ st.nl = a.text.length) then .error st.mem
  else .ok { mem := snpf st.mem st.np st.nl a.text, np := st.np + a.text.length,
             nl := st.nl + a.step - a.text.length }

def hostPieces : Option CString → List Appended
  | none => []
  | some h => if h.text.length ≠ 0 then [⟨false, h.text⟩] else []

def portPieces : Option CString → List Appended
  | none => []
  | some p => [⟨true, ':' :: p.text⟩]

def endPieces (foreign : Bool) : Option ShownEnd → List Appended
  | none => []
  | some e => (if foreign then [⟨false, "->".toList⟩] else []) ++ hostPieces e.host ++ portPieces e.port

theorem putArrow_eq (st : Cursor) : putArrow st = [⟨false, "->".toList⟩].foldlM putPiece st := by
  simp only [foldlM_cons, foldlM_nil, bind_pure, putArrow, putPiece, Appended.step]
  by_cases h : st.nl < 2
  · rw [if_pos h, if_pos (.inl h)]
  · rw [if_neg h, if_neg (fun hor => hor.elim h (fun hp => by cases hp.1))]
    rfl

theorem putHost_eq (host : Option CString) (st : Cursor) :
    putHost host st = (hostPieces host).foldlM putPiece st := by
  cases host with
  | none => rfl
  | some h =>
    unfold putHost hostPieces
    dsimp only
    by_cases hempty : h.text.length ≠ 0
    · rw [if_pos hempty, if_pos hempty]
      simp only [foldlM_cons, foldlM_nil, bind_pure, putPiece, Appended.step]
      by_cases hover : h.text.length > st.nl
      · rw [if_pos hover, if_pos (.inl hover)]
      · rw [if_neg hover, if_neg (fun hor => hor.elim hover (fun hp => by cases hp.1))]
        rfl
    · rw [if_neg hempty, if_neg hempty, if_neg (by omega)]
      rfl

theorem putPort_eq (port : Option CString) (st : Cursor) :
    putPort port st = (portPieces port).foldlM putPiece st := by
  cases port with
  | none => rfl
  | some p =>
    unfold putPort portPieces
    simp only [foldlM_cons, foldlM_nil, bind_pure, putPiece, Appended.step, length_cons, true_and, if_true]
    by_cases hover : p.text.length + 1 ≥ st.nl
    · rw [if_pos hover, if_pos (by omega)]
    · rw [if_neg hover, if_neg (by omega)]
      have hleft : st.nl + 1 - p.text.length = st.nl + 2 - (p.text.length + 1) := by omega
      rw [hleft]

theorem putEnd_eq (shown : Option ShownEnd) (foreign : Bool) (st : Cursor) :
    putEnd shown foreign st = (endPieces foreign shown).foldlM putPiece st := by
  cases shown with
  | none => rfl
  | some e =>
    have hhost : putHost e.host = (hostPieces e.host).foldlM putPiece := funext (putHost_eq e.host)
    have hport : putPort e.port = (portPieces e.port).foldlM putPiece := funext (putPort_eq e.port)
    show (if foreign = true then putArrow st else .ok st) >>= putHost e.host >>= putPort e.port = _
    rw [endPieces, foldlM_append, foldlM_append, hhost, hport]
    cases foreign with
    | true => rw [if_pos rfl, if_pos rfl, putArrow_eq]
    | false => rfl

def pieces (near far : Option ShownEnd) : List Appended := endPieces false near ++ endPieces true far

def endsText (near far : Option ShownEnd) : Text := (pieces near far).flatMap Appended.text

variable {a : Appended} {near far : Option ShownEnd}

theorem pieces_ne_nil (h : a ∈ pieces near far) : a.text ≠ [] := by
  have hend : ∀ foreign shown, a ∈ endPieces foreign shown → a.text ≠ [] := by
    intro foreign shown hmem hnil
    cases shown with
    | none => cases hmem
    | some e =>
      rcases mem_append.mp hmem with hmem | hmem
      · rcases mem_append.mp hmem with hmem | hmem
        · cases foreign with
          | true => cases mem_singleton.mp hmem; cases hnil
          | false => cases hmem
        · cases hhost : e.host with
          | none => rw [hhost] at hmem; cases hmem
          | some h =>
            rw [hhost, hostPieces] at hmem
            by_cases hempty : h.text.length ≠ 0
            · rw [if_pos hempty] at hmem
              cases mem_singleton.mp hmem
              exact hempty (congrArg List.length hnil)
            · rw [if_neg hempty] at hmem
              cases hmem
      · cases hport : e.port with
        | none => rw [hport] at hmem; cases hmem
        | some p =>
          rw [hport] at hmem
          cases mem_singleton.mp hmem
          cases hnil
  rcases mem_append.mp h with h | h
  · exact hend _ _ h
  · exact hend _ _ h

/-! ## What becomes of the pieces -/

/-- Everything is in the buffer, everything but its last character, or the message. -/
inductive Fate where
  | whole
  | cut
  | tooLong
  deriving DecidableEq, Repr

/-- What becomes of pieces appended at `pos` where the count of what is left says the
buffer goes to `limit`, and where each write ends. -/
def fate : Nat → Nat → List Appended → Fate × List Nat
  | _, _, [] => (.whole, [])
  | limit, pos, a :: rest =>
    if pos + a.text.length < limit then
      ((fate (limit + a.step) (pos + a.text.length) rest).1,
        (pos + a.text.length + 1) :: (fate (limit + a.step) (pos + a.text.length) rest).2)
    else if a.port = false ∧ pos + a.text.length = limit then
      (if rest.isEmpty then .cut else .tooLong, [limit])
    else (.tooLong, [])

/-- The buffer holds a text that the pointer stands at the end of. -/
structure Cursor.At (st : Cursor) (text : Text) (limit : Nat) : Prop where
  holds : st.mem.Holds (Char.ofNat 0) text
  np : st.np = text.length
  nl : st.np + st.nl = limit

def Put.mem : Put → Memory Char
  | .ok st => st.mem
  | .error m => m

variable {st : Cursor}

theorem putPiece_whole {text : Text} {limit : Nat} (h : st.At text limit)
    (hroom : text.length + a.text.length < limit) :
    ∃ st', putPiece st a = .ok st' ∧ st'.At (text ++ a.text) (limit + a.step) ∧
      ∀ size, st'.mem.Within size ↔ st.mem.Within size ∧ text.length + a.text.length + 1 ≤ size := by
  have hnp := h.np
  have hnl := h.nl
  have hsnpf : snpf st.mem st.np st.nl a.text = st.mem.store text.length (a.text ++ [Char.ofNat 0]) := by
    rw [snpf, Memory.storeString_of_lt (by omega), hnp]
  refine ⟨_, if_neg (by omega), ⟨?_, ?_, ?_⟩, ?_⟩
  · show (snpf st.mem st.np st.nl a.text).Holds _ _
    rw [hsnpf]
    exact h.holds.store a.text
  · rw [length_append, hnp]
  · dsimp only
    omega
  · intro size
    show (snpf st.mem st.np st.nl a.text).Within size ↔ _
    rw [hsnpf, Memory.within_store, length_append, length_singleton, ← Nat.add_assoc]

theorem putPiece_cut {text : Text} {limit : Nat} (h : st.At text limit)
    (hne : a.text ≠ []) (hport : a.port = false) (hroom : text.length + a.text.length = limit) :
    ∃ st', putPiece st a = .ok st' ∧ st'.nl = 0 ∧ st'.mem.Holds (Char.ofNat 0) (text ++ a.text).dropLast ∧
      ∀ size, st'.mem.Within size ↔ st.mem.Within size ∧ limit ≤ size := by
  have hnp := h.np
  have hnl := h.nl
  have hpos : 0 < a.text.length := length_pos_iff.mpr hne
  have hsnpf : snpf st.mem st.np st.nl a.text = st.mem.store text.length (a.text.dropLast ++ [Char.ofNat 0]) := by
    rw [snpf, Memory.storeString_of_eq (by omega) (by omega), hnp]
  refine ⟨_, if_neg (by simp [hport]; omega), ?_, ?_, ?_⟩
  · simp only [Appended.step, hport]
    show st.nl + 0 - a.text.length = 0
    omega
  · show (snpf st.mem st.np st.nl a.text).Holds _ _
    rw [hsnpf, dropLast_append_of_ne_nil hne]
    exact h.holds.store a.text.dropLast
  · intro size
    show (snpf st.mem st.np st.nl a.text).Within size ↔ _
    rw [hsnpf, Memory.within_store, length_append, length_singleton, length_dropLast]
    have hend : text.length + (a.text.length - 1 + 1) = limit := by omega
    rw [hend]

theorem putPiece_full (h : st.nl = 0) (hne : a.text ≠ []) : putPiece st a = .error st.mem := by
  have hpos : 0 < a.text.length := length_pos_iff.mpr hne
  exact if_pos (.inl (by omega))

/-- What a run of pieces leaves: the induction is on the pieces, and the limit goes
up by what each port adds to it. -/
theorem foldlM_putPiece {as : List Appended} (hne : ∀ a ∈ as, a.text ≠ []) {st : Cursor} {text : Text} {limit : Nat}
    (h : st.At text limit) :
    (∀ size, (Put.mem (as.foldlM putPiece st)).Within size ↔
        st.mem.Within size ∧ ∀ e ∈ (fate limit text.length as).2, e ≤ size) ∧
      match (fate limit text.length as).1 with
      | .whole => ∃ st', as.foldlM putPiece st = .ok st' ∧
          st'.mem.Holds (Char.ofNat 0) (text ++ as.flatMap Appended.text)
      | .cut => ∃ st', as.foldlM putPiece st = .ok st' ∧
          st'.mem.Holds (Char.ofNat 0) (text ++ as.flatMap Appended.text).dropLast
      | .tooLong => ∃ m, as.foldlM putPiece st = .error m := by
  induction as generalizing st text limit with
  | nil =>
    refine ⟨fun size => ?_, st, rfl, ?_⟩
    · show st.mem.Within size ↔ st.mem.Within size ∧ ∀ e ∈ ([] : List Nat), e ≤ size
      simp
    · simpa using h.holds
  | cons a as ih =>
    have hhead := hne a (mem_cons_self ..)
    have hrest := fun b hb => hne b (mem_cons_of_mem a hb)
    rw [foldlM_cons, fate]
    by_cases hroom : text.length + a.text.length < limit
    · rcases putPiece_whole h hroom with ⟨st', hput, hat, hwithin⟩
      rcases ih hrest hat with ⟨hlog, hfate⟩
      rw [length_append] at hlog hfate
      rw [if_pos hroom, hput, flatMap_cons, ← append_assoc]
      refine ⟨?_, hfate⟩
      intro size
      rw [forall_mem_cons, ← and_assoc, ← hwithin size]
      exact hlog size
    · rw [if_neg hroom]
      by_cases hcut : a.port = false ∧ text.length + a.text.length = limit
      · rcases putPiece_cut h hhead hcut.1 hcut.2 with ⟨st', hput, hnl, hholds, hwithin⟩
        rw [if_pos hcut, hput]
        cases as with
        | nil =>
          refine ⟨?_, st', rfl, by simpa using hholds⟩
          intro size
          rw [forall_mem_singleton]
          exact hwithin size
        | cons b bs =>
          have hfull := putPiece_full hnl (hrest b (mem_cons_self ..))
          have herror : ((Except.ok st' : Put) >>= fun st => (b :: bs).foldlM putPiece st) = .error st'.mem := by
            show (b :: bs).foldlM putPiece st' = _
            rw [foldlM_cons, hfull]
            rfl
          rw [herror]
          refine ⟨?_, st'.mem, rfl⟩
          intro size
          rw [forall_mem_singleton]
          exact hwithin size
      · have hover : putPiece st a = .error st.mem := by
          have hnp := h.np
          have hnl := h.nl
          apply if_pos
          by_cases hlt : st.nl < a.text.length
          · exact .inl hlt
          · refine .inr ⟨?_, by omega⟩
            cases hport : a.port with
            | true => rfl
            | false => exact absurd ⟨hport, by omega⟩ hcut
        rw [if_neg hcut, hover]
        exact ⟨fun size => by simp [Put.mem, bind, Except.bind], st.mem, rfl⟩

/-! ## When both addresses fit -/

/-- The writes stay in the buffer, and both addresses are in it or the message is. -/
def Fits (m : Memory Char) (namechl : Nat) (near far : Option ShownEnd) : Prop :=
  m.Within namechl ∧ (m.Holds (Char.ofNat 0) (endsText near far) ∨ m.Holds (Char.ofNat 0) tooLong)

theorem noNul_endsText (near far : Option ShownEnd) : Char.ofNat 0 ∉ endsText near far := by
  have hhost : ∀ host, Char.ofNat 0 ∉ (hostPieces host).flatMap Appended.text := by
    intro host hmem
    cases host with
    | none => cases hmem
    | some h =>
      rw [hostPieces] at hmem
      by_cases hempty : h.text.length ≠ 0
      · rw [if_pos hempty] at hmem
        exact h.noNul (by simpa using hmem)
      · rw [if_neg hempty] at hmem
        cases hmem
  have hport : ∀ port, Char.ofNat 0 ∉ (portPieces port).flatMap Appended.text := by
    intro port hmem
    cases port with
    | none => cases hmem
    | some p =>
      have hcons : Char.ofNat 0 ∈ ':' :: p.text := by simpa [portPieces] using hmem
      rcases mem_cons.mp hcons with hcolon | htext
      · cases hcolon
      · exact p.noNul htext
  have hend : ∀ foreign shown, Char.ofNat 0 ∉ (endPieces foreign shown).flatMap Appended.text := by
    intro foreign shown
    cases shown with
    | none => exact not_mem_nil
    | some e =>
      have harrow : Char.ofNat 0 ∉ (if foreign then [(⟨false, "->".toList⟩ : Appended)] else []).flatMap
          Appended.text := by
        cases foreign <;> decide
      rw [endPieces, flatMap_append, flatMap_append, mem_append, mem_append]
      exact fun h => h.elim (fun h => h.elim harrow (hhost e.host)) (hport e.port)
  rw [endsText, pieces, flatMap_append, mem_append]
  exact fun h => h.elim (hend _ _) (hend _ _)

variable {limit pos : Nat}

theorem endsText_ne_nil_of_cut (h : (fate limit pos (pieces near far)).1 = .cut) : endsText near far ≠ [] := by
  intro hnil
  cases hpieces : pieces near far with
  | nil =>
    rw [hpieces] at h
    cases h
  | cons a as =>
    have ha : a.text ≠ [] := pieces_ne_nil (hpieces ▸ mem_cons_self ..)
    rw [endsText, hpieces, flatMap_cons] at hnil
    exact ha (append_eq_nil_iff.mp hnil).1

variable {namechl : Nat}

theorem fits_putEnds_iff (near far : Option ShownEnd) (hsize : tooLong.length < namechl)
    {namech : Memory Char} (hlog : namech.log = []) :
    Fits (putEnds near far namechl namech) namechl near far ↔
      (∀ e ∈ (fate (namechl - 1) 0 (pieces near far)).2, e ≤ namechl) ∧
        ((fate (namechl - 1) 0 (pieces near far)).1 = .cut → (endsText near far).dropLast = tooLong) := by
  have hstart : ({ mem := namech.store 0 [Char.ofNat 0], np := 0, nl := namechl - 1 } : Cursor).At []
      (namechl - 1) := ⟨Memory.holds_store_zero namech _ [], rfl, Nat.zero_add _⟩
  have hfirst : (namech.store 0 [Char.ofNat 0]).Within namechl := by
    rw [Memory.within_store]
    constructor
    · intro w hw
      rw [hlog] at hw
      cases hw
    · show 0 + 1 ≤ namechl
      omega
  have hrun : (putEnd near false { mem := namech.store 0 [Char.ofNat 0], np := 0, nl := namechl - 1 } >>=
      putEnd far true) = (pieces near far).foldlM putPiece
        { mem := namech.store 0 [Char.ofNat 0], np := 0, nl := namechl - 1 } := by
    have hfar : putEnd far true = (endPieces true far).foldlM putPiece := funext (putEnd_eq far true)
    rw [pieces, foldlM_append, putEnd_eq, hfar]
  have hmessage : ∀ m : Memory Char, (snpf m 0 namechl tooLong) = m.store 0 (tooLong ++ [Char.ofNat 0]) :=
    fun m => Memory.storeString_of_lt hsize
  rcases @foldlM_putPiece (pieces near far) (fun a ha => pieces_ne_nil ha) _ _ _ hstart with ⟨hwithin, hfate⟩
  rw [length_nil] at hfate
  have hlog' := hwithin namechl
  rw [and_iff_right hfirst, length_nil] at hlog'
  unfold Fits putEnds
  dsimp only
  rw [hrun, ← hlog']
  cases hf : (fate (namechl - 1) 0 (pieces near far)).1 with
  | whole =>
    rw [hf] at hfate
    rcases hfate with ⟨st, hok, hholds⟩
    rw [hok]
    exact ⟨fun h => ⟨h.1, fun hcut => by cases hcut⟩, fun h => ⟨h.1, .inl hholds⟩⟩
  | cut =>
    rw [hf] at hfate
    rcases hfate with ⟨st, hok, hholds⟩
    rw [hok]
    change st.mem.Holds _ (endsText near far).dropLast at hholds
    have hno := noNul_endsText near far
    have hnoDrop : Char.ofNat 0 ∉ (endsText near far).dropLast := fun h => hno (dropLast_subset _ h)
    constructor
    · rintro ⟨hin, htext | hmsg⟩
      · have hsame := hholds.unique htext hnoDrop hno
        have hlen := congrArg List.length hsame
        rw [length_dropLast] at hlen
        have hpos := length_pos_iff.mpr (endsText_ne_nil_of_cut hf)
        exact absurd hlen (by omega)
      · exact ⟨hin, fun _ => hholds.unique hmsg hnoDrop (by decide)⟩
    · rintro ⟨hin, heq⟩
      exact ⟨hin, .inr (heq rfl ▸ hholds)⟩
  | tooLong =>
    rw [hf] at hfate
    rcases hfate with ⟨m, herror⟩
    rw [herror]
    show (snpf m 0 namechl tooLong).Within namechl ∧ ((snpf m 0 namechl tooLong).Holds _ _ ∨
      (snpf m 0 namechl tooLong).Holds _ _) ↔ m.Within namechl ∧ _
    rw [hmessage m, Memory.within_store]
    constructor
    · exact fun h => ⟨h.1.1, fun hcut => by cases hcut⟩
    · intro h
      refine ⟨⟨h.1, ?_⟩, .inr (Memory.holds_store_zero m _ tooLong)⟩
      rw [length_append, length_singleton]
      omega

/-! ## The lengths -/

def ShownEnd.hasPort (e : ShownEnd) : Bool := e.port.isSome

def ShownEnd.hostWidth (e : ShownEnd) : Nat := (e.host.map fun h => h.text.length).getD 0

def ShownEnd.width (e : ShownEnd) : Nat := e.hostWidth + (e.port.map fun p => p.text.length + 1).getD 0

/-- After a local port the count is two too high. A part of the foreign address that
ends with the buffer then has its NUL written past it; a host may end one later. -/
def Overrun (namechl : Nat) : Option ShownEnd → Option ShownEnd → Prop
  | some near, some far => near.hasPort = true ∧ near.width + 2 ≤ namechl ∧
      (near.width + 2 = namechl ∨ near.width + 2 + far.hostWidth = namechl ∨
        near.width + 2 + far.hostWidth = namechl + 1 ∨ near.width + 2 + far.width = namechl)
  | _, _ => False

/-- Without ports, a text as long as the count loses its last character, and what is
left of it is not the message. -/
def CutShort (namechl : Nat) (near far : Option ShownEnd) : Prop :=
  (∀ e, near = some e ∨ far = some e → e.hasPort = false) ∧ (endsText near far).length + 1 = namechl ∧
    (endsText near far).dropLast ≠ tooLong

@[simp] theorem fate_nil (limit pos : Nat) : fate limit pos [] = (.whole, []) := rfl

variable {as : List Appended}

theorem ends_cons {limit pos size : Nat} :
    (∀ e ∈ (fate limit pos (a :: as)).2, e ≤ size) ↔
      (pos + a.text.length < limit → pos + a.text.length + 1 ≤ size ∧
        ∀ e ∈ (fate (limit + a.step) (pos + a.text.length) as).2, e ≤ size) ∧
      (a.port = false → pos + a.text.length = limit → limit ≤ size) := by
  rw [fate]
  by_cases hroom : pos + a.text.length < limit
  · rw [if_pos hroom, forall_mem_cons]
    exact ⟨fun h => ⟨fun _ => h, fun _ heq => by omega⟩, fun h => h.1 hroom⟩
  · rw [if_neg hroom]
    by_cases hcut : a.port = false ∧ pos + a.text.length = limit
    · rw [if_pos hcut, forall_mem_singleton]
      exact ⟨fun h => ⟨fun hlt => absurd hlt hroom, fun _ _ => h⟩, fun h => h.2 hcut.1 hcut.2⟩
    · rw [if_neg hcut]
      exact iff_of_true (by simp) ⟨fun hlt => absurd hlt hroom, fun hport heq => absurd ⟨hport, heq⟩ hcut⟩

theorem cut_cons :
    (fate limit pos (a :: as)).1 = .cut ↔
      (pos + a.text.length < limit ∧ (fate (limit + a.step) (pos + a.text.length) as).1 = .cut) ∨
      (a.port = false ∧ pos + a.text.length = limit ∧ as = []) := by
  rw [fate]
  by_cases hroom : pos + a.text.length < limit
  · rw [if_pos hroom]
    exact ⟨fun h => .inl ⟨hroom, h⟩, fun h => h.elim (fun h => h.2) (fun h => by omega)⟩
  · rw [if_neg hroom]
    by_cases hcut : a.port = false ∧ pos + a.text.length = limit
    · rw [if_pos hcut]
      cases as with
      | nil => exact iff_of_true rfl (.inr ⟨hcut.1, hcut.2, rfl⟩)
      | cons b bs => exact iff_of_false (by simp) (by simp; omega)
    · rw [if_neg hcut]
      exact iff_of_false (by simp) (fun h => h.elim (fun h => hroom h.1) (fun h => hcut ⟨h.1, h.2.1⟩))

theorem hostPieces_cases (e : ShownEnd) :
    (hostPieces e.host = [] ∧ e.hostWidth = 0) ∨
      ∃ t, hostPieces e.host = [⟨false, t⟩] ∧ e.hostWidth = t.length ∧ 0 < t.length := by
  unfold hostPieces ShownEnd.hostWidth
  cases e.host with
  | none => exact .inl ⟨rfl, rfl⟩
  | some h =>
    by_cases hempty : h.text.length ≠ 0
    · exact .inr ⟨h.text, if_pos hempty, rfl, by omega⟩
    · exact .inl ⟨if_neg hempty, by simpa using hempty⟩

theorem portPieces_cases (e : ShownEnd) :
    (portPieces e.port = [] ∧ e.hasPort = false ∧ e.width = e.hostWidth) ∨
      ∃ t, portPieces e.port = [⟨true, t⟩] ∧ e.hasPort = true ∧ e.width = e.hostWidth + t.length := by
  unfold portPieces ShownEnd.width ShownEnd.hasPort
  cases e.port with
  | none => exact .inl ⟨rfl, rfl, rfl⟩
  | some p => exact .inr ⟨':' :: p.text, rfl, rfl, rfl⟩

/-! ## Before the first port and after it -/

theorem hostPieces_port {host : Option CString} (h : a ∈ hostPieces host) : a.port = false := by
  cases host with
  | none => cases h
  | some t =>
    rw [hostPieces] at h
    split at h
    · cases mem_singleton.mp h
      rfl
    · cases h

theorem ends_of_le {limit pos size : Nat} (hle : limit ≤ size)
    (has : ∀ a ∈ as, a.port = false) (port : Option CString) :
    ∀ e ∈ (fate limit pos (as ++ portPieces port)).2, e ≤ size := by
  induction as generalizing pos with
  | nil =>
    cases port with
    | none => simp [portPieces]
    | some p =>
      rw [portPieces, nil_append, ends_cons]
      refine ⟨fun hroom => ⟨by omega, by simp⟩, fun hport => by cases hport⟩
  | cons a as ih =>
    have hstep : limit + a.step = limit := by
      rw [Appended.step, has a (mem_cons_self ..)]
      rfl
    rw [cons_append, ends_cons, hstep]
    refine ⟨fun hroom => ⟨by omega, ?_⟩, fun _ _ => hle⟩
    exact ih fun b hb => has b (mem_cons_of_mem a hb)

theorem cut_iff (hpos : pos < limit) (has : ∀ a ∈ as, a.port = false ∧ a.text ≠ []) (port : Option CString) :
    (fate limit pos (as ++ portPieces port)).1 = .cut ↔
      port = none ∧ pos + (as.flatMap Appended.text).length = limit := by
  induction as generalizing pos with
  | nil =>
    cases port with
    | none =>
      refine iff_of_false (by simp [portPieces]) ?_
      rintro ⟨-, hlen⟩
      simp at hlen
      omega
    | some p =>
      rw [portPieces, nil_append, cut_cons]
      simp
  | cons a as ih =>
    rcases has a (mem_cons_self ..) with ⟨hport, hne⟩
    have hrest := fun b hb => has b (mem_cons_of_mem a hb)
    have hstep : limit + a.step = limit := by
      rw [Appended.step, hport]
      rfl
    rw [cons_append, cut_cons, hstep, flatMap_cons, length_append, ← Nat.add_assoc]
    by_cases hroom : pos + a.text.length < limit
    · rw [ih hroom hrest]
      exact ⟨fun h => h.elim (fun h => h.2) (fun h => by omega), fun h => .inl ⟨hroom, h⟩⟩
    · constructor
      · rintro (h | ⟨-, heq, hnil⟩)
        · exact absurd h.1 hroom
        · rcases append_eq_nil_iff.mp hnil with ⟨rfl, hnone⟩
          refine ⟨?_, by simpa using heq⟩
          cases port with
          | none => rfl
          | some p => cases hnone
      · rintro ⟨rfl, hlen⟩
        refine .inr ⟨hport, by omega, ?_⟩
        cases as with
        | nil => rfl
        | cons b bs =>
          have hb := length_pos_iff.mpr (hrest b (mem_cons_self ..)).2
          rw [flatMap_cons, length_append] at hlen
          omega

theorem fate_port {limit pos size : Nat} (hle : limit ≤ size) {as : List Appended}
    (has : ∀ a ∈ as, a.port = false) (t : Text) (rest : List Appended) :
    ((∀ e ∈ (fate limit pos (as ++ ⟨true, t⟩ :: rest)).2, e ≤ size) ↔
        (pos + (as.flatMap Appended.text).length + t.length < limit →
          ∀ e ∈ (fate (limit + 2) (pos + (as.flatMap Appended.text).length + t.length) rest).2, e ≤ size)) ∧
      ((fate limit pos (as ++ ⟨true, t⟩ :: rest)).1 = .cut ↔
        pos + (as.flatMap Appended.text).length + t.length < limit ∧
          (fate (limit + 2) (pos + (as.flatMap Appended.text).length + t.length) rest).1 = .cut) := by
  induction as generalizing pos with
  | nil =>
    rw [nil_append, ends_cons, cut_cons]
    simp only [flatMap_nil, length_nil, Nat.add_zero, Appended.step, Bool.true_eq_false, false_and,
      or_false, if_true, false_implies, and_true]
    exact ⟨fun h hroom => (h hroom).2, fun h hroom => ⟨by omega, h hroom⟩⟩
  | cons a as ih =>
    have hport := has a (mem_cons_self ..)
    have hstep : limit + a.step = limit := by
      rw [Appended.step, hport]
      rfl
    rcases @ih (pos + a.text.length) (fun b hb => has b (mem_cons_of_mem a hb)) with ⟨hends, hcut⟩
    rw [cons_append, ends_cons, cut_cons, hstep, hends, hcut, flatMap_cons, length_append]
    simp only [← Nat.add_assoc]
    constructor
    · constructor
      · intro h hroom
        exact (h.1 (by omega)).2 hroom
      · intro h
        exact ⟨fun hroom => ⟨by omega, h⟩, fun _ _ => hle⟩
    · constructor
      · rintro (h | h)
        · exact h.2
        · exact absurd h.2.2 (by simp)
      · intro h
        exact .inl ⟨by omega, h⟩

theorem hostPieces_length (e : ShownEnd) : ((hostPieces e.host).flatMap Appended.text).length = e.hostWidth := by
  rcases hostPieces_cases e with ⟨hhost, hw⟩ | ⟨t, hhost, hw, -⟩
  · rw [hhost, hw]
    rfl
  · rw [hhost, hw]
    simp

/-- The pieces of a foreign end, without its port. -/
def farHead (f : ShownEnd) : List Appended := ⟨false, "->".toList⟩ :: hostPieces f.host

theorem endPieces_true (f : ShownEnd) : endPieces true (some f) = farHead f ++ portPieces f.port := rfl

theorem farHead_port {f : ShownEnd} (h : a ∈ farHead f) : a.port = false := by
  rcases mem_cons.mp h with h | h
  · rw [h]
  · exact hostPieces_port h

theorem pieces_of_noPort (h : ∀ n f, near = some n → far = some f → n.hasPort = false) :
    ∃ as port, pieces near far = as ++ portPieces port ∧ (∀ a ∈ as, a.port = false) ∧
      ((∀ e, near = some e ∨ far = some e → e.hasPort = false) ↔ port = none) := by
  unfold pieces
  cases near with
  | none =>
    cases far with
    | none => exact ⟨[], none, rfl, by simp, by simp⟩
    | some f => exact ⟨farHead f, f.port, rfl, fun _ => farHead_port, by simp [ShownEnd.hasPort]⟩
  | some n =>
    cases far with
    | none =>
      exact ⟨hostPieces n.host, n.port, append_nil _, fun _ => hostPieces_port, by simp [ShownEnd.hasPort]⟩
    | some f =>
      have hnone := h n f rfl rfl
      refine ⟨hostPieces n.host ++ farHead f, f.port, ?_, ?_, ?_⟩
      · rcases portPieces_cases n with ⟨hport, -, -⟩ | ⟨t, -, hport, -⟩
        · rw [endPieces_true, endPieces, hport]
          simp
        · rw [hnone] at hport
          cases hport
      · intro a ha
        rcases mem_append.mp ha with ha | ha
        · exact hostPieces_port ha
        · exact farHead_port ha
      · have hboth : (∀ e, some n = some e ∨ some f = some e → e.hasPort = false) ↔ f.hasPort = false := by
          constructor
          · intro hall
            exact hall f (.inr rfl)
          · rintro hf e (he | he)
            · exact Option.some.inj he ▸ hnone
            · exact Option.some.inj he ▸ hf
        rw [hboth]
        simp [ShownEnd.hasPort]

theorem fate_pieces_of_port {n f : ShownEnd} (h : n.hasPort = true) (hpos : 1 < namechl) :
    ((∀ e ∈ (fate (namechl - 1) 0 (pieces (some n) (some f))).2, e ≤ namechl) ↔ (n.width + 1 < namechl →
          ∀ e ∈ (fate (namechl + 1) n.width (farHead f ++ portPieces f.port)).2, e ≤ namechl)) ∧
      ((fate (namechl - 1) 0 (pieces (some n) (some f))).1 = .cut ↔
        n.width + 1 < namechl ∧ (fate (namechl + 1) n.width (farHead f ++ portPieces f.port)).1 = .cut) := by
  rcases portPieces_cases n with ⟨-, hno, -⟩ | ⟨t, hport, -, hwidth⟩
  · rw [h] at hno
    cases hno
  · have hpieces : pieces (some n) (some f) =
        hostPieces n.host ++ ⟨true, t⟩ :: (farHead f ++ portPieces f.port) := by
      rw [pieces, endPieces_true, endPieces, hport]
      simp
    have hfate := @fate_port (namechl - 1) 0 namechl (by omega) (hostPieces n.host)
      (fun _ => hostPieces_port) t (farHead f ++ portPieces f.port)
    have hlt : n.width < namechl - 1 ↔ n.width + 1 < namechl := by omega
    rw [hostPieces_length, Nat.zero_add, ← hwidth, show namechl - 1 + 2 = namechl + 1 by omega, hlt] at hfate
    rw [hpieces]
    exact hfate

theorem ends_pieces_iff (near far : Option ShownEnd) (hpos : 1 < namechl) :
    (∀ e ∈ (fate (namechl - 1) 0 (pieces near far)).2, e ≤ namechl) ↔ ¬ Overrun namechl near far := by
  by_cases hport : ∃ n f, near = some n ∧ far = some f ∧ n.hasPort = true
  · rcases hport with ⟨n, f, rfl, rfl, hport⟩
    rw [(fate_pieces_of_port hport hpos).1]
    simp only [Overrun, hport, true_and]
    rcases hostPieces_cases f with ⟨hfh, hfw⟩ | ⟨v, hfh, hfw, hv⟩ <;>
      rcases portPieces_cases f with ⟨hfp, -, hfwidth⟩ | ⟨w, hfp, -, hfwidth⟩ <;>
      simp [farHead, hfh, hfp, ends_cons, Appended.step] <;> omega
  · have hnone : ∀ n f, near = some n → far = some f → n.hasPort = false :=
      fun n f hn hf => eq_false_of_ne_true fun h => hport ⟨n, f, hn, hf, h⟩
    rcases pieces_of_noPort hnone with ⟨as, port, hpieces, has, -⟩
    refine iff_of_true (hpieces ▸ ends_of_le (by omega) has port) ?_
    intro hover
    cases near with
    | none => exact hover
    | some n =>
      cases far with
      | none => exact hover
      | some f => exact hport ⟨n, f, rfl, rfl, hover.1⟩

theorem cut_pieces_iff (near far : Option ShownEnd) (hpos : 1 < namechl) (hin : ¬ Overrun namechl near far) :
    (fate (namechl - 1) 0 (pieces near far)).1 = .cut ↔
      (∀ e, near = some e ∨ far = some e → e.hasPort = false) ∧ (endsText near far).length + 1 = namechl := by
  by_cases hport : ∃ n f, near = some n ∧ far = some f ∧ n.hasPort = true
  · rcases hport with ⟨n, f, rfl, rfl, hport⟩
    refine iff_of_false ?_ fun h => by simp [h.1 n (.inl rfl)] at hport
    rw [(fate_pieces_of_port hport hpos).2]
    simp only [Overrun, hport, true_and] at hin
    rcases hostPieces_cases f with ⟨hfh, hfw⟩ | ⟨v, hfh, hfw, hv⟩ <;>
      rcases portPieces_cases f with ⟨hfp, -, hfwidth⟩ | ⟨w, hfp, -, hfwidth⟩ <;>
      simp [farHead, hfh, hfp, cut_cons, Appended.step] <;> omega
  · have hnone : ∀ n f, near = some n → far = some f → n.hasPort = false :=
      fun n f hn hf => eq_false_of_ne_true fun h => hport ⟨n, f, hn, hf, h⟩
    rcases pieces_of_noPort hnone with ⟨as, port, hpieces, has, hports⟩
    have hparts : ∀ a ∈ as, a.port = false ∧ a.text ≠ [] := by
      intro a ha
      exact ⟨has a ha, pieces_ne_nil (hpieces ▸ mem_append_left _ ha)⟩
    rw [hports, endsText, hpieces, cut_iff (by omega) hparts port]
    apply and_congr_right
    rintro rfl
    rw [portPieces, append_nil]
    omega

/-- For every host and port the look-ups may answer, `printinaddr()` stays in the
buffer and leaves both addresses in it, or the message, unless there is an overrun
or the text is cut. -/
theorem printinaddr_fits_iff (names : NameLookups) (iproto : Text) (li : InetEnd × InetEnd) (namechl : Nat)
    (hsize : tooLong.length < namechl) (namech : Memory Char) (hlog : namech.log = []) :
    Fits (printinaddr names iproto li namechl namech).1 namechl (shownEnd names iproto li.1 li.1 false)
        (shownEnd names iproto li.1 li.2 true) ↔
      ¬ Overrun namechl (shownEnd names iproto li.1 li.1 false) (shownEnd names iproto li.1 li.2 true) ∧
        ¬ CutShort namechl (shownEnd names iproto li.1 li.1 false) (shownEnd names iproto li.1 li.2 true) := by
  have hpos : 1 < namechl := Nat.lt_of_le_of_lt (by decide) hsize
  generalize hnear : shownEnd names iproto li.1 li.1 false = near
  generalize hfar : shownEnd names iproto li.1 li.2 true = far
  have hprint : (printinaddr names iproto li namechl namech).1 = putEnds near far namechl namech := by
    rw [← hnear, ← hfar]
    rfl
  rw [hprint, fits_putEnds_iff near far hsize hlog, ends_pieces_iff near far hpos]
  constructor
  · rintro ⟨hin, hcut⟩
    refine ⟨hin, fun hshort => hshort.2.2 (hcut ?_)⟩
    exact (cut_pieces_iff near far hpos hin).mpr ⟨hshort.1, hshort.2.1⟩
  · rintro ⟨hin, hshort⟩
    refine ⟨hin, fun hcut => ?_⟩
    by_contra hmessage
    rcases (cut_pieces_iff near far hpos hin).mp hcut with ⟨hports, hlen⟩
    exact hshort ⟨hports, hlen, hmessage⟩

/-- Names of hosts of a given length, and numbers for ports. -/
def longNames (near far : Nat) : NameLookups where
  fport := false
  fportMap := false
  gethostnm ia _ := some ⟨List.replicate (if ia = 1 then near else far) 'h',
    fun h => absurd (eq_of_mem_replicate h) (by decide)⟩
  lkupPort _ _ _ := none

def ipv6Pair : InetEnd × InetEnd := (⟨some .inet6, 1, 80⟩, ⟨some .inet6, 2, 80⟩)

def emptyName : Memory Char := { cells := fun _ => Char.ofNat 0, log := [] }

/-- Two hosts of 16 characters, port 80 and a buffer of 40: the text is as long as the
buffer, and the NUL after it is written past the end. With hosts of 15 it fits. -/
theorem printinaddr_overruns :
    ¬ (printinaddr (longNames 16 16) "TCP".toList ipv6Pair 40 emptyName).1.Within 40 ∧
      (printinaddr (longNames 16 16) "TCP".toList ipv6Pair 40 emptyName).1.log.getLast? = some (37, 4) := by
  decide +kernel

theorem printinaddr_fits_short :
    Fits (printinaddr (longNames 15 15) "TCP".toList ipv6Pair 40 emptyName).1 40
      (shownEnd (longNames 15 15) "TCP".toList ipv6Pair.1 ipv6Pair.1 false)
      (shownEnd (longNames 15 15) "TCP".toList ipv6Pair.1 ipv6Pair.2 true) := by
  have hsize : tooLong.length < 40 := by decide
  refine (printinaddr_fits_iff (longNames 15 15) "TCP".toList ipv6Pair 40 hsize emptyName rfl).mpr ⟨?_, ?_⟩
  · rintro ⟨-, -, hend⟩
    revert hend
    decide +kernel
  · rintro ⟨hports, -, -⟩
    exact absurd (hports _ (.inl rfl)) (by decide +kernel)

end Lsof.Original
