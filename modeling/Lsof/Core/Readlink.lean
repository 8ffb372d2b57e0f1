import Lsof.Basis.Components
import Lsof.Basis.Text

/-! # Spelling a path

How a path is spelt before it is looked at: each prefix of it is read as a
symbolic link in turn, and a link is replaced by its target. The result is read
again until it no longer changes. What a reading found to hold no link and
copied as it was is not asked about in the next one.
-/

namespace Lsof.Core.Readlink

open Lsof.Basis List

def MAXSYMLINKS : Nat := 20

def MAXPATHLEN : Nat := 4096

inductive ReadlinkError where
  | tooLong
  | tooManyLinks
  deriving DecidableEq, Repr

/-- The C's message, naming the argument as it was given. -/
def ReadlinkError.message (arg : Text) : ReadlinkError → Text
  | .tooLong => "readlink() path too long: ".toList ++ arg
  | .tooManyLinks =>
    "too many (> ".toList ++ Text.ofNat MAXSYMLINKS ++ ") symbolic links in readlink() path: ".toList ++ arg

def slash : UInt8 := 0x2F

structure Pass where
  out : Bytes := []
  /-- The end of the components copied before the first link. -/
  kept : Nat := 0
  linkedYet : Bool := false
  /-- An absolute link threw the assembly away. -/
  restarted : Bool := false
  start : Nat := 0
  deriving DecidableEq, Repr

/-- Whether a `/` goes between the assembly and the piece. -/
def needsSlash (arg out piece : Bytes) (linked : Bool) : Bool :=
  if piece.head? = some slash then false
  else match out.getLast? with
    | some last => last != slash
    | none => linked && arg.head? == some slash

def Pass.append (st : Pass) (arg : Bytes) (stop : Nat) (piece : Bytes) (linked : Bool) :
    Except ReadlinkError Pass :=
  let sep := needsSlash arg st.out piece linked
  if st.out.length + (if sep then 1 else 0) + piece.length ≥ MAXPATHLEN then .error .tooLong
  else .ok { st with
    out := st.out ++ (if sep then [slash] else []) ++ piece
    kept := if st.linkedYet || linked then st.kept else stop
    linkedYet := st.linkedYet || linked
    start := stop }

/-- A component and what was read at its end. An absolute target replaces
everything assembled so far. -/
def Pass.assemble (st : Pass) (arg : Bytes) (stop : Nat) (comp : Bytes) (target : Option Bytes) :
    Except ReadlinkError Pass :=
  match target with
  | some t =>
    if t.head? = some slash then
      .ok { st with out := t, linkedYet := true, restarted := true, start := stop }
    else st.append arg stop t true
  | none => st.append arg stop comp false

section Reading

variable (readLink : Bytes → Option Bytes)

/-- The components one after another; with the result, the prefixes asked about.
Of the first `plain` bytes it is known that they hold no link. -/
def onePassLoop (arg : Bytes) (plain : Nat) : Pass → List Bytes → Except ReadlinkError Pass × List Bytes
  | st, [] => (.ok st, [])
  | st, comp :: comps =>
    let stop := st.start + comp.length
    if stop > MAXPATHLEN then (.error .tooLong, [])
    else
      let asked := if stop ≤ plain then [] else [arg.take stop]
      let target := if stop ≤ plain then none else readLink (arg.take stop)
      match st.assemble arg stop comp target with
      | .error e => (.error e, asked)
      | .ok st' =>
        let rest := onePassLoop arg plain st' comps
        (rest.1, asked ++ rest.2)

/-- The assembly, and how much of it was copied before any link. -/
def onePass (arg : Bytes) (plain : Nat) : Except ReadlinkError (Bytes × Nat) × List Bytes :=
  let result := onePassLoop readLink arg plain {} (components slash arg)
  (result.1.map fun st => (st.out, if st.restarted then 0 else st.kept), result.2)

/-- Readings until the path no longer changes, while `left` changes are allowed;
with the result, what each reading asked about. -/
def resolveLoop : Nat → Bytes → Nat → Except ReadlinkError Bytes × List (List Bytes)
  | left, path, plain =>
    let pass := onePass readLink path plain
    match pass.1 with
    | .error e => (.error e, [pass.2])
    | .ok (next, nextPlain) =>
      if next = path then (.ok path, [pass.2])
      else match left with
        | 0 => (.error .tooManyLinks, [pass.2])
        | left + 1 =>
          let rest := resolveLoop left next nextPlain
          (rest.1, pass.2 :: rest.2)

def resolveWith (arg : Bytes) : Except ReadlinkError Bytes × List (List Bytes) :=
  resolveLoop readLink MAXSYMLINKS arg 0

variable {arg : Bytes} {plain : Nat}

theorem length_of_mem_asked {st : Pass} {comps : List Bytes} :
    ∀ p ∈ (onePassLoop readLink arg plain st comps).2, p.length ≤ MAXPATHLEN := by
  induction comps generalizing st with
  | nil => exact fun p hp => absurd hp not_mem_nil
  | cons comp comps ih =>
    rw [onePassLoop]
    by_cases hlong : st.start + comp.length > MAXPATHLEN
    · rw [if_pos hlong]
      exact fun p hp => absurd hp not_mem_nil
    · have hasked : ∀ p ∈ (if st.start + comp.length ≤ plain then [] else [arg.take (st.start + comp.length)]),
          p.length ≤ MAXPATHLEN := by
        intro p hp
        split at hp
        · exact absurd hp not_mem_nil
        · rw [mem_singleton.mp hp]
          exact Nat.le_trans (length_take_le _ _) (Nat.le_of_not_lt hlong)
      rw [if_neg hlong]
      dsimp only
      split
      · exact hasked
      · exact forall_mem_append.mpr ⟨hasked, ih⟩

theorem passes_resolveLoop (left : Nat) (path : Bytes) (plain : Nat) :
    (resolveLoop readLink left path plain).2.length ≤ left + 1 ∧
      ∀ asked ∈ (resolveLoop readLink left path plain).2, ∀ p ∈ asked, p.length ≤ MAXPATHLEN := by
  have hpass : ∀ path plain, ∀ p ∈ (onePass readLink path plain).2, p.length ≤ MAXPATHLEN :=
    fun path plain => length_of_mem_asked readLink
  induction left generalizing path plain with
  | zero =>
    rw [resolveLoop]
    dsimp only
    split
    · exact ⟨Nat.le_refl _, forall_mem_singleton.mpr (hpass path plain)⟩
    · split
      · exact ⟨Nat.le_refl _, forall_mem_singleton.mpr (hpass path plain)⟩
      · exact ⟨Nat.le_refl _, forall_mem_singleton.mpr (hpass path plain)⟩
  | succ left ih =>
    rw [resolveLoop]
    dsimp only
    split
    · exact ⟨Nat.succ_le_succ (Nat.zero_le _), forall_mem_singleton.mpr (hpass path plain)⟩
    next next nextPlain _ =>
      split
      · exact ⟨Nat.succ_le_succ (Nat.zero_le _), forall_mem_singleton.mpr (hpass path plain)⟩
      · obtain ⟨hlen, hasked⟩ := ih next nextPlain
        exact ⟨Nat.succ_le_succ hlen, forall_mem_cons.mpr ⟨hpass path plain, hasked⟩⟩

/-- No prefix within the first `plain` bytes is a link. -/
def Plain (path : Bytes) (plain : Nat) : Prop :=
  ∀ e, IsEnd slash path e → e ≤ plain → readLink (path.take e) = none

theorem plain_zero (path : Bytes) : Plain readLink path 0 := fun _ he hle => absurd he.1 (Nat.not_lt_of_le hle)

variable {st st' : Pass} {stop : Nat}

theorem append_eq_ok {arg piece : Bytes} {linked : Bool} (h : st.append arg stop piece linked = .ok st') :
    st' = { st with
      out := st.out ++ (if needsSlash arg st.out piece linked then [slash] else []) ++ piece
      kept := if st.linkedYet || linked then st.kept else stop
      linkedYet := st.linkedYet || linked
      start := stop } := by
  rw [Pass.append] at h
  by_cases hlong : st.out.length + (if needsSlash arg st.out piece linked then 1 else 0) + piece.length ≥ MAXPATHLEN
  · rw [if_pos hlong] at h
    exact absurd h nofun
  · rw [if_neg hlong] at h
    exact (Except.ok.inj h).symm

theorem start_of_assemble {arg comp : Bytes} {target : Option Bytes}
    (h : st.assemble arg stop comp target = .ok st') : st'.start = stop := by
  unfold Pass.assemble at h
  split at h
  · split at h
    · rw [← Except.ok.inj h]
    · rw [append_eq_ok h]
  · rw [append_eq_ok h]

theorem onePassLoop_induct {motive : Pass → List Bytes → Prop} (arg : Bytes) (nil : ∀ st, motive st [])
    (cons : ∀ (st : Pass) (a : UInt8) (rest : Bytes), arg.drop st.start = a :: rest →
      (∀ st', st'.start = st.start + (a :: rest.takeWhile (· != slash)).length →
        motive st' (components slash (rest.dropWhile (· != slash)))) →
      motive st ((a :: rest.takeWhile (· != slash)) :: components slash (rest.dropWhile (· != slash))))
    (st : Pass) : motive st (components slash (arg.drop st.start)) := by
  suffices hall : ∀ n (st : Pass), (arg.drop st.start).length = n → motive st (components slash (arg.drop st.start)) from
    hall _ st rfl
  intro n
  induction n using Nat.strong_induction_on with
  | _ n ih =>
    intro st hn
    cases hdrop : arg.drop st.start with
    | nil => exact nil st
    | cons a rest =>
      rw [components_cons]
      refine cons st a rest hdrop fun st' hst' => ?_
      have hafter := drop_component slash hdrop
      rw [← hst'] at hafter
      rw [← hafter]
      refine ih _ ?_ st' rfl
      have hshorter : (rest.dropWhile (· != slash)).length ≤ rest.length := (dropWhile_sublist _).length_le
      rw [hafter, ← hn, hdrop, length_cons]
      omega

theorem onePassLoop_plain (hplain : Plain readLink arg plain) (st : Pass) :
    (onePassLoop readLink arg plain st (components slash (arg.drop st.start))).1 =
      (onePassLoop readLink arg 0 st (components slash (arg.drop st.start))).1 := by
  refine onePassLoop_induct (motive := fun st comps =>
    (onePassLoop readLink arg plain st comps).1 = (onePassLoop readLink arg 0 st comps).1) arg ?_ ?_ st
  · exact fun st => rfl
  · intro st a rest hdrop ih
    have hend := isEnd_component slash hdrop
    have htarget : (if st.start + (a :: rest.takeWhile (· != slash)).length ≤ plain then none
        else readLink (arg.take (st.start + (a :: rest.takeWhile (· != slash)).length))) =
        readLink (arg.take (st.start + (a :: rest.takeWhile (· != slash)).length)) := by
      split
      next hle => exact (hplain _ hend hle).symm
      next => rfl
    rw [onePassLoop, onePassLoop]
    split
    · rfl
    · dsimp only
      rw [htarget, if_neg (Nat.not_le_of_lt hend.1)]
      cases hstep : st.assemble arg (st.start + (a :: rest.takeWhile (· != slash)).length)
          (a :: rest.takeWhile (· != slash))
          (readLink (arg.take (st.start + (a :: rest.takeWhile (· != slash)).length))) with
      | error e => rfl
      | ok st' => exact ih st' (start_of_assemble hstep)

theorem onePass_plain (hplain : Plain readLink arg plain) :
    (onePass readLink arg plain).1 = (onePass readLink arg 0).1 := by
  have hloop := onePassLoop_plain readLink hplain {}
  rw [drop_zero] at hloop
  rw [onePass, onePass, hloop]

/-- What a pass has found plain: its assembly begins with it, it ends where a
component does, and no prefix in it is a link. Before the first link that is all
it has read. -/
structure Found (arg : Bytes) (st : Pass) : Prop where
  fresh : st.linkedYet = false → st.restarted = false ∧ st.kept = st.start ∧ st.out = arg.take st.start
  copied : st.restarted = false → arg.take st.kept <+: st.out
  ends : st.restarted = false → st.kept = 0 ∨ IsEnd slash arg st.kept
  plain : st.restarted = false → Plain readLink arg st.kept

theorem found_start (arg : Bytes) : Found readLink arg {} where
  fresh _ := ⟨rfl, rfl, rfl⟩
  copied _ := nil_prefix
  ends _ := .inl rfl
  plain _ := plain_zero readLink arg

theorem Found.append_linked {arg piece : Bytes} {linked : Bool}
    (h : Found readLink arg st) (hlinked : (st.linkedYet || linked) = true)
    (hst' : st.append arg stop piece linked = .ok st') : Found readLink arg st' := by
  rw [append_eq_ok hst', hlinked]
  constructor
  · exact nofun
  · intro hrestarted
    have hcopied := h.copied hrestarted
    exact hcopied.trans ((prefix_append _ _).trans (prefix_append _ _))
  · exact h.ends
  · exact h.plain

theorem Found.append_copied {a : UInt8} {rest : Bytes}
    (hdrop : arg.drop st.start = a :: rest) (h : Found readLink arg st) (hlinked : st.linkedYet = false)
    (hnone : readLink (arg.take (st.start + (a :: rest.takeWhile (· != slash)).length)) = none)
    (hst' : st.append arg (st.start + (a :: rest.takeWhile (· != slash)).length)
      (a :: rest.takeWhile (· != slash)) false = .ok st') : Found readLink arg st' := by
  obtain ⟨hrestarted, hkept, hout⟩ := h.fresh hlinked
  have hends := h.ends hrestarted
  have hplain := h.plain hrestarted
  rw [hkept] at hends hplain
  have hsep : needsSlash arg st.out (a :: rest.takeWhile (· != slash)) false = false := by
    by_cases ha : a = slash
    · exact if_pos (congrArg some ha)
    · -- only the first component begins with anything else
      have hzero : st.start = 0 := by
        refine hends.resolve_right fun hend => ?_
        have hat : arg[st.start]? = some a := by
          have hfirst := congrArg (fun l => l[0]?) hdrop
          rwa [getElem?_drop, Nat.add_zero, getElem?_cons_zero] at hfirst
        rcases hend.2 with hlen | hsep
        · exact absurd (List.getElem?_eq_some_iff.mp hat).1 (by omega)
        · exact ha (Option.some.inj (hat.symm.trans hsep))
      have hhead : (a :: rest.takeWhile (· != slash)).head? ≠ some slash := fun h => ha (Option.some.inj h)
      rw [needsSlash, if_neg hhead, hout, hzero]
      rfl
  have htake := take_component slash hdrop
  rw [append_eq_ok hst', hlinked, hsep]
  have hout' : st.out ++ [] ++ (a :: rest.takeWhile (· != slash)) =
      arg.take (st.start + (a :: rest.takeWhile (· != slash)).length) := by
    rw [append_nil, hout, htake]
  constructor
  · exact fun _ => ⟨hrestarted, rfl, hout'⟩
  · exact fun _ => ⟨[], by rw [append_nil]; exact hout'.symm⟩
  · exact fun _ => .inr (isEnd_component slash hdrop)
  · intro _ e he hle
    by_cases hbefore : e ≤ st.start
    · exact hplain e he hbefore
    · have heq := eq_of_isEnd_component slash hdrop he (Nat.lt_of_not_le hbefore) hle
      rw [heq]
      exact hnone

theorem Found.assemble {a : UInt8} {rest : Bytes} (hdrop : arg.drop st.start = a :: rest) (h : Found readLink arg st)
    (hst' : st.assemble arg (st.start + (a :: rest.takeWhile (· != slash)).length) (a :: rest.takeWhile (· != slash))
      (readLink (arg.take (st.start + (a :: rest.takeWhile (· != slash)).length))) = .ok st') :
    Found readLink arg st' := by
  unfold Pass.assemble at hst'
  split at hst'
  next t htarget =>
    split at hst'
    · rw [← Except.ok.inj hst']
      exact ⟨nofun, nofun, nofun, nofun⟩
    · exact h.append_linked readLink (Bool.or_true _) hst'
  next hnone =>
    by_cases hlinked : st.linkedYet = true
    · exact h.append_linked readLink (by rw [hlinked]; rfl) hst'
    · exact h.append_copied readLink hdrop (eq_false_of_ne_true hlinked) hnone hst'

theorem found_onePassLoop (st st' : Pass) (h : Found readLink arg st)
    (hst' : (onePassLoop readLink arg 0 st (components slash (arg.drop st.start))).1 = .ok st') :
    Found readLink arg st' := by
  refine onePassLoop_induct (motive := fun st comps => Found readLink arg st →
    (onePassLoop readLink arg 0 st comps).1 = .ok st' → Found readLink arg st') arg ?_ ?_ st h hst'
  · intro st h hst'
    exact Except.ok.inj hst' ▸ h
  · intro st a rest hdrop ih h hst'
    have hend := isEnd_component slash hdrop
    rw [onePassLoop] at hst'
    split at hst'
    · exact absurd hst' nofun
    · dsimp only at hst'
      rw [if_neg (Nat.not_le_of_lt hend.1)] at hst'
      split at hst'
      · exact absurd hst' nofun
      next st₁ hstep => exact ih st₁ (start_of_assemble hstep) (h.assemble readLink hdrop hstep) hst'

theorem plain_of_onePass {arg next : Bytes} {plain nextPlain : Nat} (hplain : Plain readLink arg plain)
    (h : (onePass readLink arg plain).1 = .ok (next, nextPlain)) : Plain readLink next nextPlain := by
  rw [onePass_plain readLink hplain, onePass] at h
  dsimp only at h
  cases hloop : (onePassLoop readLink arg 0 {} (components slash arg)).1 with
  | error e => simp [hloop, Except.map] at h
  | ok st =>
    have hfound := found_onePassLoop readLink {} st (found_start readLink arg) hloop
    rw [hloop] at h
    obtain ⟨rfl, rfl⟩ := Prod.mk.inj (Except.ok.inj h)
    intro e he hle
    split at hle
    · exact absurd he.1 (Nat.not_lt_of_le hle)
    next hrestarted =>
      have hno := eq_false_of_ne_true hrestarted
      have hkept : IsEnd slash arg st.kept :=
        (hfound.ends hno).resolve_left fun hzero => absurd he.1 (by omega)
      obtain ⟨harg, htake⟩ := isEnd_of_begins (hfound.copied hno) hkept he hle
      rw [htake]
      exact hfound.plain hno e harg hle

theorem onePass_of_resolveLoop {left : Nat} {path p : Bytes} (hplain : Plain readLink path plain)
    (h : (resolveLoop readLink left path plain).1 = .ok p) : ∃ n, (onePass readLink p 0).1 = .ok (p, n) := by
  induction left generalizing path plain with
  | zero =>
    rw [resolveLoop] at h
    dsimp only at h
    split at h
    · exact absurd h nofun
    next next nextPlain hpass =>
      split at h
      next hsame =>
        obtain rfl := Except.ok.inj h
        rw [onePass_plain readLink hplain, hsame] at hpass
        exact ⟨nextPlain, hpass⟩
      next => exact absurd h nofun
  | succ left ih =>
    rw [resolveLoop] at h
    dsimp only at h
    split at h
    · exact absurd h nofun
    next next nextPlain hpass =>
      split at h
      next hsame =>
        obtain rfl := Except.ok.inj h
        rw [onePass_plain readLink hplain, hsame] at hpass
        exact ⟨nextPlain, hpass⟩
      next => exact ih (plain_of_onePass readLink hplain hpass) h

theorem resolveWith_of_spelt {arg p : Bytes} (h : (resolveWith readLink arg).1 = .ok p) :
    (resolveWith readLink p).1 = .ok p := by
  obtain ⟨n, hpass⟩ := onePass_of_resolveLoop readLink (plain_zero readLink arg) h
  rw [resolveWith, resolveLoop, hpass]
  dsimp only
  rw [if_pos rfl]

end Reading

/-! ## Answers that change

The same readings where a link may be another each time it is read.
-/

section Changing

variable {σ : Type} (readLink : Bytes → σ → Option Bytes × σ)

def onePassLoopIn (arg : Bytes) (plain : Nat) : Pass → List Bytes → σ → Except ReadlinkError Pass × σ
  | st, [], s => (.ok st, s)
  | st, comp :: comps, s =>
    let stop := st.start + comp.length
    if stop > MAXPATHLEN then (.error .tooLong, s)
    else
      let answer := if stop ≤ plain then (none, s) else readLink (arg.take stop) s
      match st.assemble arg stop comp answer.1 with
      | .error e => (.error e, answer.2)
      | .ok st' => onePassLoopIn arg plain st' comps answer.2

def onePassIn (arg : Bytes) (plain : Nat) (s : σ) : Except ReadlinkError (Bytes × Nat) × σ :=
  let result := onePassLoopIn readLink arg plain {} (components slash arg) s
  (result.1.map fun st => (st.out, if st.restarted then 0 else st.kept), result.2)

def resolveLoopIn : Nat → Bytes → Nat → σ → Except ReadlinkError Bytes × σ
  | left, path, plain, s =>
    let pass := onePassIn readLink path plain s
    match pass.1 with
    | .error e => (.error e, pass.2)
    | .ok (next, nextPlain) =>
      if next = path then (.ok path, pass.2)
      else match left with
        | 0 => (.error .tooManyLinks, pass.2)
        | left + 1 => resolveLoopIn left next nextPlain pass.2

def resolveIn (arg : Bytes) (s : σ) : Except ReadlinkError Bytes × σ := resolveLoopIn readLink MAXSYMLINKS arg 0 s

variable {readLink} {links : Bytes → Option Bytes} {note : σ → Bytes → σ}
  (h : ∀ p s, readLink p s = (links p, note s p))

include h in
theorem onePassLoopIn_fixed (arg : Bytes) (plain : Nat) (st : Pass) (comps : List Bytes) (s : σ) :
    onePassLoopIn readLink arg plain st comps s =
      ((onePassLoop links arg plain st comps).1, (onePassLoop links arg plain st comps).2.foldl note s) := by
  induction comps generalizing st s with
  | nil => rfl
  | cons comp comps ih =>
    rw [onePassLoopIn, onePassLoop]
    by_cases hlong : st.start + comp.length > MAXPATHLEN
    · rw [if_pos hlong, if_pos hlong]
      rfl
    · rw [if_neg hlong, if_neg hlong]
      by_cases hplain : st.start + comp.length ≤ plain
      · simp only [if_pos hplain]
        cases st.assemble arg (st.start + comp.length) comp none with
        | error e => rfl
        | ok st' => exact ih st' s
      · simp only [if_neg hplain, h]
        cases st.assemble arg (st.start + comp.length) comp (links (arg.take (st.start + comp.length))) with
        | error e => rfl
        | ok st' => exact ih st' _

include h in
theorem resolveLoopIn_fixed (left : Nat) (path : Bytes) (plain : Nat) (s : σ) :
    resolveLoopIn readLink left path plain s =
      ((resolveLoop links left path plain).1, (resolveLoop links left path plain).2.flatten.foldl note s) := by
  have hpass : ∀ path plain s, onePassIn readLink path plain s =
      ((onePass links path plain).1, (onePass links path plain).2.foldl note s) := by
    intro path plain s
    rw [onePassIn, onePassLoopIn_fixed h]
    rfl
  induction left generalizing path plain s with
  | zero =>
    rw [resolveLoopIn, resolveLoop, hpass]
    cases (onePass links path plain).1 with
    | error e => simp
    | ok read =>
      rcases read with ⟨next, nextPlain⟩
      by_cases hsame : next = path
      · simp [hsame]
      · simp [hsame]
  | succ left ih =>
    rw [resolveLoopIn, resolveLoop, hpass]
    cases (onePass links path plain).1 with
    | error e => simp
    | ok read =>
      rcases read with ⟨next, nextPlain⟩
      by_cases hsame : next = path
      · simp [hsame]
      · simp [hsame, ih]

include h in
/-- Where no answer changes, the reading is the one above, and each prefix asked
about is noted in turn. -/
theorem resolveIn_fixed (arg : Bytes) (s : σ) :
    resolveIn readLink arg s = ((resolveWith links arg).1, (resolveWith links arg).2.flatten.foldl note s) :=
  resolveLoopIn_fixed h MAXSYMLINKS arg 0 s

end Changing

end Lsof.Core.Readlink
