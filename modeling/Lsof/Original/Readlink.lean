import Lsof.Core.Readlink

/-! # The C's `Readlink()`

The C reads every prefix again at each reading, into buffers of fixed size, and
recurses on the new spelling. It returns what lsof-rs does, in the same cases,
wherever no link is empty.
-/

namespace Lsof.Original.Readlink

open Lsof.Basis Lsof.Core.Readlink List

/-- The string in a buffer: what comes before its first NUL. -/
def cstr (b : Bytes) : Bytes := b.takeWhile (· != 0)

/-- `strncpy()` of `n` bytes: after the string, NULs. -/
def strncpy (s : Bytes) (n : Nat) : Bytes :=
  (cstr s).take n ++ List.replicate (n - (cstr s).length) 0

theorem cstr_of_not_mem {b : Bytes} (h : 0 ∉ b) : cstr b = b :=
  takeWhile_eq_self_iff.mpr fun _ hx => bne_iff_ne.mpr fun hzero => h (hzero ▸ hx)

theorem strncpy_of_not_mem {s : Bytes} (h : 0 ∉ s) : strncpy s s.length = s := by
  rw [strncpy, cstr_of_not_mem h, take_length, Nat.sub_self]
  exact append_nil s

/-- How a call ends. The last is a comparison with a buffer nothing was written
to. -/
inductive Spelt where
  | path (p : Bytes)
  | tooLong
  | tooManyLinks
  | undefined
  deriving DecidableEq, Repr

section Reading

variable (readLink : Bytes → Option Bytes)

/-- `slen`: 2 where a `/` goes before the piece. -/
def slenOf (abuf arg s1 : Bytes) (linked : Bool) : Nat :=
  if s1.head? = some slash then 1
  else if 0 < abuf.length then (if abuf.getLast? = some slash then 1 else 2)
  else if linked = true ∧ arg.head? = some slash then 2 else 1

/-- The piece added to the assembly, unless it does not fit. -/
def addPiece (abuf arg s1 : Bytes) (linked : Bool) : Option Bytes :=
  let slen := slenOf abuf arg s1 linked
  if abuf.length + s1.length + slen ≥ MAXPATHLEN + 1 then none
  else some (abuf ++ (if slen = 2 then [slash] else []) ++ strncpy s1 s1.length)

def readlinkLoop (arg : Bytes) : Bytes → Nat → List Bytes → Option Bytes
  | abuf, _, [] => some abuf
  | abuf, pos, comp :: comps =>
    let len := pos + comp.length
    if len ≥ MAXPATHLEN + 1 then none
    else match (readLink (arg.take len)).map (List.take MAXPATHLEN) with
      | some lbuf =>
        if lbuf.head? = some slash then readlinkLoop arg (strncpy lbuf lbuf.length) len comps
        else (addPiece abuf arg lbuf true).bind fun abuf => readlinkLoop arg abuf len comps
      | none => (addPiece abuf arg comp false).bind fun abuf => readlinkLoop arg abuf len comps

/-- A call with room for `left` more strings on the stack. -/
def readlinkFrom : Nat → Bytes → Spelt
  | left, arg =>
    if arg = [] then .undefined
    else match readlinkLoop readLink arg [] 0 (components slash arg) with
      | none => .tooLong
      | some abuf =>
        if arg = cstr abuf then .path arg
        else match left with
          | 0 => .tooManyLinks
          | left + 1 => readlinkFrom left (cstr abuf)

/-- `fblock` is `-b`, under which no link is read. -/
def readlink (fblock : Bool) (arg : Bytes) : Spelt :=
  if fblock then .path (cstr arg) else readlinkFrom readLink MAXSYMLINKS (cstr arg)

end Reading

def IsString (s : Bytes) : Prop := s ≠ [] ∧ 0 ∉ s

instance : DecidablePred IsString := fun s => inferInstanceAs (Decidable (s ≠ [] ∧ 0 ∉ s))

/-- What `readlink(2)` returns into `lbuf`. -/
def Fits (readLink : Bytes → Option Bytes) : Prop :=
  ∀ p t, readLink p = some t → IsString t ∧ t.length ≤ MAXPATHLEN

theorem isString_of_mem_components {arg comp : Bytes} (harg : 0 ∉ arg) (h : comp ∈ components slash arg) :
    IsString comp :=
  ⟨ne_nil_of_mem_components slash h, fun hzero => harg (subset_of_mem_components slash h hzero)⟩

theorem slenOf_eq (abuf arg s1 : Bytes) (linked : Bool) :
    slenOf abuf arg s1 linked = 1 + (if needsSlash arg abuf s1 linked then 1 else 0) := by
  unfold slenOf needsSlash
  by_cases hhead : s1.head? = some slash
  · rw [if_pos hhead, if_pos hhead]
    rfl
  rw [if_neg hhead, if_neg hhead]
  cases hlast : abuf.getLast? with
  | none =>
    obtain rfl := getLast?_eq_none_iff.mp hlast
    cases linked with
    | false => rfl
    | true =>
      by_cases harg : arg.head? = some slash
      · simp [harg]
      · simp [harg]
  | some last =>
    have hpos : 0 < abuf.length := by
      cases abuf with
      | nil => simp at hlast
      | cons b abuf => exact Nat.succ_pos _
    rw [if_pos hpos]
    by_cases hslash : last = slash
    · simp [hslash]
    · simp [hslash]

def assembly (r : Except ReadlinkError Pass) : Option Bytes := (r.toOption).map Pass.out

@[simp]
theorem assembly_error (e : ReadlinkError) : assembly (.error e) = none := rfl

@[simp]
theorem assembly_ok (st : Pass) : assembly (.ok st) = some st.out := rfl

variable {st : Pass} {linked : Bool}

theorem addPiece_eq {arg piece : Bytes} (h : 0 ∉ piece) (stop : Nat) :
    addPiece st.out arg piece linked = assembly (st.append arg stop piece linked) := by
  rw [addPiece, Pass.append, slenOf_eq, strncpy_of_not_mem h]
  cases needsSlash arg st.out piece linked with
  | false =>
    by_cases hlong : st.out.length + piece.length ≥ MAXPATHLEN
    · simp [hlong, show st.out.length + piece.length + 1 ≥ MAXPATHLEN + 1 by omega]
    · simp [hlong, show ¬ st.out.length + piece.length + 1 ≥ MAXPATHLEN + 1 by omega]
  | true =>
    by_cases hlong : st.out.length + 1 + piece.length ≥ MAXPATHLEN
    · simp [hlong, show st.out.length + piece.length + 2 ≥ MAXPATHLEN + 1 by omega]
    · simp [hlong, show ¬ st.out.length + piece.length + 2 ≥ MAXPATHLEN + 1 by omega]

variable {readLink : Bytes → Option Bytes} {comps : List Bytes}

theorem readlinkLoop_eq (hfits : Fits readLink) (arg : Bytes) (hcomps : ∀ comp ∈ comps, IsString comp) (st : Pass) :
    readlinkLoop readLink arg st.out st.start comps = assembly (onePassLoop readLink arg 0 st comps).1 := by
  induction comps generalizing st with
  | nil => rfl
  | cons comp comps ih =>
    obtain ⟨⟨hne, hnul⟩, hrest⟩ := forall_mem_cons.mp hcomps
    have hstop : ¬ st.start + comp.length ≤ 0 := by
      have hlen := length_pos_iff.mpr hne
      omega
    rw [readlinkLoop, onePassLoop]
    by_cases hlong : st.start + comp.length > MAXPATHLEN
    · rw [if_pos (by omega), if_pos hlong]
      rfl
    rw [if_neg (by omega), if_neg hlong]
    dsimp only
    rw [if_neg hstop, if_neg hstop]
    -- both add the piece, and go on where it fits
    have hadd : ∀ (piece : Bytes) (linked : Bool), 0 ∉ piece →
        ((addPiece st.out arg piece linked).bind fun abuf =>
          readlinkLoop readLink arg abuf (st.start + comp.length) comps) =
        (st.append arg (st.start + comp.length) piece linked).toOption.bind fun st' =>
          assembly (onePassLoop readLink arg 0 st' comps).1 := by
      intro piece linked hpiece
      rw [addPiece_eq hpiece (st.start + comp.length)]
      cases happend : st.append arg (st.start + comp.length) piece linked with
      | error e => rfl
      | ok st' =>
        have hstart : st'.start = st.start + comp.length := by rw [append_eq_ok happend]
        rw [← hstart]
        exact ih hrest st'
    cases htarget : readLink (arg.take (st.start + comp.length)) with
    | none =>
      rw [hadd comp false hnul]
      dsimp only [Pass.assemble]
      cases st.append arg (st.start + comp.length) comp false <;> rfl
    | some t =>
      obtain ⟨⟨_, htnul⟩, hlen⟩ := hfits _ t htarget
      rw [Option.map_some, take_of_length_le hlen]
      dsimp only [Pass.assemble]
      by_cases habs : t.head? = some slash
      · rw [if_pos habs, if_pos habs, strncpy_of_not_mem htnul]
        exact ih hrest ⟨t, st.kept, true, true, st.start + comp.length⟩
      · rw [if_neg habs, if_neg habs, hadd t true htnul]
        cases st.append arg (st.start + comp.length) t true <;> rfl

variable {plain : Nat} {path : Bytes}

theorem readlinkLoop_onePass (hfits : Fits readLink) (hpath : 0 ∉ path) (hplain : Plain readLink path plain) :
    readlinkLoop readLink path [] 0 (components slash path) =
      ((onePass readLink path plain).1.toOption).map Prod.fst := by
  have hloop := readlinkLoop_eq hfits path (fun comp => isString_of_mem_components hpath) {}
  rw [onePass_plain readLink hplain, hloop, onePass]
  dsimp only
  cases (onePassLoop readLink path 0 {} (components slash path)).1 with
  | error e => rfl
  | ok st => rfl

theorem isString_addPiece {abuf arg s1 next : Bytes} (habuf : 0 ∉ abuf) (hs1 : IsString s1)
    (h : addPiece abuf arg s1 linked = some next) : IsString next := by
  rw [addPiece, strncpy_of_not_mem hs1.2] at h
  split at h
  · exact absurd h nofun
  · rw [← Option.some.inj h]
    constructor
    · exact append_ne_nil_of_right_ne_nil _ hs1.1
    · have hslash : ∀ p : Prop, [Decidable p] → (0 : UInt8) ∉ (if p then [slash] else []) := by
        intro p _
        split <;> decide
      simp only [mem_append, not_or]
      exact ⟨⟨habuf, hslash _⟩, hs1.2⟩

theorem isString_readlinkLoop (hfits : Fits readLink) {arg abuf next : Bytes}
    {pos : Nat} (hcomps : ∀ comp ∈ comps, IsString comp) (habuf : 0 ∉ abuf)
    (hsome : abuf ≠ [] ∨ comps ≠ []) (h : readlinkLoop readLink arg abuf pos comps = some next) : IsString next := by
  induction comps generalizing abuf pos with
  | nil => exact Option.some.inj h ▸ ⟨hsome.resolve_right (fun h => h rfl), habuf⟩
  | cons comp comps ih =>
    obtain ⟨hcomp, hrest⟩ := forall_mem_cons.mp hcomps
    have hadd : ∀ (s1 : Bytes) (linked : Bool), IsString s1 →
        ((addPiece abuf arg s1 linked).bind fun abuf =>
          readlinkLoop readLink arg abuf (pos + comp.length) comps) = some next → IsString next := by
      intro s1 linked hs1 h
      obtain ⟨abuf', hpiece, hmore⟩ := Option.bind_eq_some_iff.mp h
      obtain ⟨hne, hnul⟩ := isString_addPiece habuf hs1 hpiece
      exact ih hrest hnul (.inl hne) hmore
    rw [readlinkLoop] at h
    split at h
    · exact absurd h nofun
    · cases htarget : readLink (arg.take (pos + comp.length)) with
      | none =>
        rw [htarget] at h
        exact hadd comp false hcomp h
      | some t =>
        obtain ⟨ht, hlen⟩ := hfits _ t htarget
        rw [htarget, Option.map_some, take_of_length_le hlen] at h
        dsimp only at h
        split at h
        · rw [strncpy_of_not_mem ht.2] at h
          exact ih hrest ht.2 (.inl ht.1) h
        · exact hadd t true ht h

def spelt : Except ReadlinkError Bytes → Spelt
  | .ok p => .path p
  | .error .tooLong => .tooLong
  | .error .tooManyLinks => .tooManyLinks

variable {e : ReadlinkError}

theorem append_eq_error {arg piece : Bytes} {stop : Nat}
    (h : st.append arg stop piece linked = .error e) : e = .tooLong := by
  rw [Pass.append] at h
  by_cases hlong : st.out.length + (if needsSlash arg st.out piece linked then 1 else 0) + piece.length ≥ MAXPATHLEN
  · rw [if_pos hlong] at h
    exact (Except.error.inj h).symm
  · rw [if_neg hlong] at h
    cases h

theorem assemble_eq_error {arg comp : Bytes} {stop : Nat} {target : Option Bytes}
    (h : st.assemble arg stop comp target = .error e) : e = .tooLong := by
  unfold Pass.assemble at h
  split at h
  · split at h
    · exact absurd h nofun
    · exact append_eq_error h
  · exact append_eq_error h

theorem onePassLoop_eq_error {arg : Bytes} (h : (onePassLoop readLink arg plain st comps).1 = .error e) :
    e = .tooLong := by
  induction comps generalizing st with
  | nil => exact absurd h nofun
  | cons comp comps ih =>
    rw [onePassLoop] at h
    split at h
    · exact (Except.error.inj h).symm
    · dsimp only at h
      split at h
      next hstep => exact Except.error.inj h ▸ assemble_eq_error hstep
      next => exact ih h

theorem onePass_eq_error (h : (onePass readLink path plain).1 = .error e) : e = .tooLong := by
  rw [onePass] at h
  cases hloop : (onePassLoop readLink path plain {} (components slash path)).1 with
  | error e' =>
    simp only [hloop, Except.map] at h
    exact Except.error.inj h ▸ onePassLoop_eq_error hloop
  | ok st => simp [hloop, Except.map] at h

theorem reading_of_onePass (hfits : Fits readLink) {path next : Bytes}
    {plain nextPlain : Nat} (hpath : IsString path) (hplain : Plain readLink path plain)
    (hpass : (onePass readLink path plain).1 = .ok (next, nextPlain)) :
    readlinkLoop readLink path [] 0 (components slash path) = some next ∧ IsString next := by
  have hloop := readlinkLoop_onePass hfits hpath.2 hplain
  rw [hpass] at hloop
  have hcomps : components slash path ≠ [] := by
    obtain ⟨a, rest, rfl⟩ := exists_cons_of_ne_nil hpath.1
    exact components_ne_nil slash
  exact ⟨hloop, isString_readlinkLoop hfits (fun comp => isString_of_mem_components hpath.2) not_mem_nil
    (.inr hcomps) hloop⟩

theorem readlinkFrom_step (hfits : Fits readLink) {left : Nat}
    (hpath : IsString path) (hplain : Plain readLink path plain)
    (hlater : ∀ m next nextPlain, left = m + 1 → IsString next → Plain readLink next nextPlain →
      readlinkFrom readLink m next = spelt (resolveLoop readLink m next nextPlain).1) :
    readlinkFrom readLink left path = spelt (resolveLoop readLink left path plain).1 := by
  rw [readlinkFrom.eq_def, resolveLoop.eq_def]
  dsimp only
  rw [if_neg hpath.1]
  cases hpass : (onePass readLink path plain).1 with
  | error e =>
    obtain rfl := onePass_eq_error hpass
    rw [readlinkLoop_onePass hfits hpath.2 hplain, hpass]
    rfl
  | ok found =>
    obtain ⟨hloop, hnext⟩ := reading_of_onePass hfits hpath hplain hpass
    rw [hloop]
    dsimp only
    rw [cstr_of_not_mem hnext.2]
    by_cases hsame : found.1 = path
    · rw [if_pos hsame.symm, if_pos hsame]
      rfl
    · rw [if_neg (fun h => hsame h.symm), if_neg hsame]
      cases left with
      | zero => rfl
      | succ m => exact hlater m found.1 found.2 rfl hnext (plain_of_onePass readLink hplain hpass)

theorem readlinkFrom_eq (hfits : Fits readLink) (left : Nat)
    (hpath : IsString path) (hplain : Plain readLink path plain) :
    readlinkFrom readLink left path = spelt (resolveLoop readLink left path plain).1 := by
  induction left generalizing path plain with
  | zero => exact readlinkFrom_step hfits hpath hplain fun m next nextPlain hzero => absurd hzero nofun
  | succ left ih =>
    refine readlinkFrom_step hfits hpath hplain fun m next nextPlain hsucc hnext hnextPlain => ?_
    obtain rfl := Nat.succ.inj hsucc
    exact ih hnext hnextPlain

/-- lsof-rs spells a path as the C does or fails as it does, whatever it does not
ask again; a path it returns is spelt already, and it neither reads without end
nor asks about what is too long to ask about. -/
theorem resolveWith_eq_readlink {readLink : Bytes → Option Bytes} (hfits : Fits readLink) {arg : Bytes}
    (harg : IsString arg) :
    spelt (resolveWith readLink arg).1 = readlink readLink false arg ∧
      (∀ p, (resolveWith readLink arg).1 = .ok p → (resolveWith readLink p).1 = .ok p) ∧
      (resolveWith readLink arg).2.length ≤ MAXSYMLINKS + 1 ∧
      ∀ asked ∈ (resolveWith readLink arg).2, ∀ p ∈ asked, p.length ≤ MAXPATHLEN := by
  obtain ⟨hpasses, hasked⟩ := passes_resolveLoop readLink MAXSYMLINKS arg 0
  refine ⟨?_, fun p => resolveWith_of_spelt readLink, hpasses, hasked⟩
  rw [readlink, if_neg Bool.false_ne_true, cstr_of_not_mem harg.2]
  exact (readlinkFrom_eq hfits MAXSYMLINKS harg (plain_zero readLink arg)).symm

/-- `/a` is a link to `b`, and `/b` to `/c/./d`. -/
def twoLinks (p : Bytes) : Option Bytes :=
  if p = [slash, 97] then some [98]
  else if p = [slash, 98] then some [slash, 99, slash, 46, slash, 100] else none

theorem resolveWith_eq_readlink_twoLinks :
    readlink twoLinks false [slash, 97, slash, 101] = .path [slash, 99, slash, 46, slash, 100, slash, 101] ∧
      spelt (resolveWith twoLinks [slash, 97, slash, 101]).1 = readlink twoLinks false [slash, 97, slash, 101] := by
  have hfits : Fits twoLinks := by
    intro p t h
    rw [twoLinks] at h
    split at h
    · exact Option.some.inj h ▸ ⟨by decide, by decide⟩
    · split at h
      · exact Option.some.inj h ▸ ⟨by decide, by decide⟩
      · exact absurd h nofun
  exact ⟨by decide, (resolveWith_eq_readlink hfits (by decide)).1⟩

/-- A link whose target is empty, alone in the path: lsof-rs reads the empty path
and returns it; the C compares it with a buffer it has not written. -/
theorem readlink_of_empty_target :
    (resolveWith (fun _ => some []) [97]).1 = .ok [] ∧ readlink (fun _ => some []) false [97] = .undefined :=
  ⟨by decide +kernel, by decide⟩

end Lsof.Original.Readlink
