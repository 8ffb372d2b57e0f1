import Lsof.Original.Select

/-! # The rule behind the C's tests

The four functions return early, compare the whole mask of options with one
flag and change the flags in place. Taken together they apply one rule: a
descriptor that nothing excludes is listed when it has a flag that was asked
for, and under `-a` when it has them all. `lists_iff` says so.
-/

namespace Lsof.Original

open Lsof.Basis List

/-- A state with a flag added under a condition. -/
def ProcState.mark (st : ProcState) (hit : Bool) (k : Sel) : ProcState where
  pri := st.pri || hit
  sf := st.sf.insertIf hit (.single k)

theorem ProcState.mark_pri {st : ProcState} (h : st.pri = !st.sf.isEmpty) (hit : Bool) (k : Sel) :
    (st.mark hit k).pri = !(st.mark hit k).sf.isEmpty := by
  cases hit with
  | false => simpa [mark, KindSet.insertIf] using h
  | true =>
    have hsome : (st.sf.union (.single k)).isEmpty = false :=
      KindSet.isEmpty_eq_false_iff.mpr ⟨k, by simp⟩
    simp [mark, KindSet.insertIf, hsome]

namespace Context

variable (ctx : Context)

def includes (table : List IdEntry) (id : Nat) : Bool :=
  table.any (fun e => !e.x && e.i == id)

theorem excludes_eq (table : List IdEntry) (id : Nat) :
    excludes table id = table.any (fun e => e.x && e.i == id) := by
  unfold excludes excluding
  rw [scan_count]
  cases hcount : table.countP (fun e => e.x) with
  | succ n => simp
  | zero =>
    have hnone := countP_eq_zero.mp hcount
    symm
    simp only [bne_self_eq_false, Bool.false_and, any_eq_false]
    intro e he
    simp [hnone e he]

theorem including_ne_zero (table : List IdEntry) : (including table != 0) = table.any (fun e => !e.x) := by
  unfold including
  rw [Bool.eq_iff_iff, bne_iff_ne, ne_eq, countP_eq_zero, any_eq_true]
  push Not
  rfl

theorem including_of_includes {table : List IdEntry} {id : Nat} (h : includes table id = true) :
    (including table != 0) = true := by
  rw [including_ne_zero]
  unfold includes at h
  rw [any_eq_true] at h ⊢
  rcases h with ⟨e, he, hhit⟩
  exact ⟨e, he, (Bool.and_eq_true _ _ ▸ hhit).1⟩

/-- Whether the `-d` list gives a descriptor its flag. -/
def fdMatched (fdType : FdType) (num : Nat) : Bool :=
  !ctx.fdl.isEmpty && match ctx.fdlTy with
    | some false => ctx.fdl.any (fdHit fdType num)
    | some true => !ctx.fdl.any (fdHit fdType num)
    | none => false

/-- The flags a descriptor of a process gets by the tables. -/
def matched (pid pgid uid : Nat) (cmd : Bytes) (fdType : FdType) (num : Nat) : Flags :=
  ((((KindSet.none
    |>.insertIf (includes ctx.spgid pgid) (.single .pgid))
    |>.insertIf (includes ctx.spid pid) (.single .pid))
    |>.insertIf (includes ctx.suid uid) (.single .uid))
    |>.insertIf (ctx.cmdl.any (fun e => !e.x && e.str.isPrefixOf cmd)) (.single .cmd))
    |>.insertIf (ctx.fdMatched fdType num) (.single .fd)

def idState (pid pgid uid : Nat) : ProcState where
  pri := includes ctx.spgid pgid || includes ctx.spid pid || includes ctx.suid uid
  sf := ((KindSet.none
    |>.insertIf (includes ctx.spgid pgid) (.single .pgid))
    |>.insertIf (includes ctx.spid pid) (.single .pid))
    |>.insertIf (includes ctx.suid uid) (.single .uid)

variable {ctx}

variable {k : Sel}

theorem mem_selected :
    k ∈ ctx.selected ↔
      (k = .cmd ∧ ctx.cmdl.any (fun e => !e.x) = true) ∨ (k = .fd ∧ ctx.fdl ≠ []) ∨
        (k = .pgid ∧ (including ctx.spgid != 0) = true) ∨
        (k = .pid ∧ (including ctx.spid != 0) = true) ∨ (k = .uid ∧ (including ctx.suid != 0) = true) := by
  cases k <;> simp [selected]

variable {pid pgid uid : Nat} {cmd : Bytes}

theorem selected_of_matched {fdType : FdType} {num : Nat}
    (h : k ∈ ctx.matched pid pgid uid cmd fdType num) : k ∈ ctx.selected := by
  rw [mem_selected]
  cases k with
  | cmd =>
    simp only [matched, KindSet.mem_insertIf, KindSet.mem_single, KindSet.mem_none,
      reduceCtorEq, and_false, and_true, or_false, false_or] at h
    rw [any_eq_true] at h
    rcases h with ⟨e, he, hhit⟩
    refine Or.inl ⟨rfl, any_eq_true.mpr ⟨e, he, ?_⟩⟩
    rw [Bool.and_eq_true] at hhit
    exact hhit.1
  | fd =>
    simp only [matched, KindSet.mem_insertIf, KindSet.mem_single, KindSet.mem_none,
      reduceCtorEq, and_false, and_true, or_false, false_or, fdMatched, Bool.and_eq_true] at h
    exact Or.inr (Or.inl ⟨rfl, by simpa using h.1⟩)
  | pgid =>
    have hinc : includes ctx.spgid pgid = true := by simpa [matched] using h
    exact Or.inr (Or.inr (Or.inl ⟨rfl, including_of_includes hinc⟩))
  | pid =>
    have hinc : includes ctx.spid pid = true := by simpa [matched] using h
    exact Or.inr (Or.inr (Or.inr (Or.inl ⟨rfl, including_of_includes hinc⟩)))
  | uid =>
    have hinc : includes ctx.suid uid = true := by simpa [matched] using h
    exact Or.inr (Or.inr (Or.inr (Or.inr ⟨rfl, including_of_includes hinc⟩)))
  | _ => simp [matched] at h

theorem selected_ne_single (h : k ∉ ctx.selected) : ctx.selected ≠ .single k := by
  intro hone
  rw [hone] at h
  exact h (KindSet.mem_single.mpr rfl)

theorem not_includes {table : List IdEntry} (h : (including table != 0) = false) (id : Nat) :
    includes table id = false := by
  by_contra hno
  rw [Bool.not_eq_false] at hno
  rw [including_of_includes hno] at h
  cases h

section Tests

variable (hall : ctx.allProc = false)
include hall

theorem selflags_eq : ctx.selflags = ctx.selected := by simp [selflags, hall]

theorem pgidTest_eq (pgid : Nat) :
    ctx.pgidTest pgid {} =
      if ctx.selected = .single .pgid then
        .error (!includes ctx.spgid pgid, ProcState.mark {} (includes ctx.spgid pgid) .pgid)
      else .ok (ProcState.mark {} (includes ctx.spgid pgid) .pgid) := by
  have hscan : scan (fun e => !e.x) (fun e => e.i == pgid) ctx.spgid (including ctx.spgid) =
      includes ctx.spgid pgid := scan_count _ _ _
  unfold pgidTest
  rw [selflags_eq hall, hscan]
  cases hinc : (including ctx.spgid != 0) with
  | true =>
    have hmem : Sel.pgid ∈ ctx.selected := mem_selected.mpr (by simp [hinc])
    simp only [hmem, decide_true, Bool.and_self, if_true]
    by_cases hone : ctx.selected = .single .pgid
    · cases includes ctx.spgid pgid <;> simp [hone, ProcState.mark, KindSet.insertIf]
    · cases includes ctx.spgid pgid <;> simp [hone, ProcState.mark, KindSet.insertIf]
  | false =>
    have hone : ctx.selected ≠ .single .pgid :=
      selected_ne_single (by simp [mem_selected, hinc])
    simp [not_includes hinc, hone, ProcState.mark, KindSet.insertIf]

theorem pidTest_eq (pid : Nat) {st : ProcState} (hst : ctx.selected = .single .pid → st.sf.isEmpty = true) :
    ctx.pidTest pid st =
      if ctx.selected = .single .pid then
        .error (!includes ctx.spid pid, ProcState.mark st (includes ctx.spid pid) .pid)
      else .ok (ProcState.mark st (includes ctx.spid pid) .pid) := by
  have hscan : scan (fun e => !e.x) (fun e => e.i == pid) ctx.spid (including ctx.spid) =
      includes ctx.spid pid := scan_count _ _ _
  unfold pidTest
  rw [selflags_eq hall, hscan]
  cases hinc : (including ctx.spid != 0) with
  | true =>
    have hmem : Sel.pid ∈ ctx.selected := mem_selected.mpr (by simp [hinc])
    simp only [hmem, decide_true, Bool.and_self, if_true]
    by_cases hone : ctx.selected = .single .pid
    · have hempty := hst hone
      cases includes ctx.spid pid <;> simp [hone, hempty, ProcState.mark, KindSet.insertIf]
    · cases includes ctx.spid pid <;> simp [hone, ProcState.mark, KindSet.insertIf]
  | false =>
    have hone : ctx.selected ≠ .single .pid :=
      selected_ne_single (by simp [mem_selected, hinc])
    simp [not_includes hinc, hone, ProcState.mark, KindSet.insertIf]

theorem uidTest_eq (uid : Nat) {st : ProcState} (hst : Sel.uid ∉ st.sf) :
    ctx.uidTest uid st =
      if ctx.selected = .single .uid then
        .error (!includes ctx.suid uid, ProcState.mark st (includes ctx.suid uid) .uid)
      else .ok (ProcState.mark st (includes ctx.suid uid) .uid) := by
  have hscan : scan (fun e => !e.x) (fun e => e.i == uid) ctx.suid (including ctx.suid) =
      includes ctx.suid uid := scan_count _ _ _
  unfold uidTest
  rw [selflags_eq hall, hscan]
  cases hinc : (including ctx.suid != 0) with
  | true =>
    have hmem : Sel.uid ∈ ctx.selected := mem_selected.mpr (by simp [hinc])
    simp only [hmem, decide_true, Bool.and_self, if_true]
    by_cases hone : ctx.selected = .single .uid
    · cases includes ctx.suid uid <;> simp [hone, hst, ProcState.mark, KindSet.insertIf]
    · cases includes ctx.suid uid <;> simp [hone, ProcState.mark, KindSet.insertIf]
  | false =>
    have hone : ctx.selected ≠ .single .uid :=
      selected_ne_single (by simp [mem_selected, hinc])
    simp [not_includes hinc, hone, ProcState.mark, KindSet.insertIf]

/-- The tests together: a run that asked for one kind of ID alone is decided by
it at once, any other goes on with the flags the process has. -/
theorem idTests_eq (pid pgid uid : Nat) :
    (ctx.pgidTest pgid {} >>= ctx.pidTest pid >>= ctx.uidTest uid >>= ctx.taskTest 0) =
      if ctx.selected = .single .pgid ∨ ctx.selected = .single .pid ∨
          ctx.selected = .single .uid then
        .error (!(ctx.idState pid pgid uid).pri, ctx.idState pid pgid uid)
      else .ok (ctx.idState pid pgid uid) := by
  have hother : ∀ {k j : Sel}, ctx.selected = .single k → j ≠ k → j ∉ ctx.selected := by
    intro k j hk hj
    rw [hk, KindSet.mem_single]
    exact hj
  have hpgid : Sel.pgid ∉ ctx.selected → includes ctx.spgid pgid = false := by
    intro h
    exact not_includes (by simpa [mem_selected] using h) pgid
  have hpid : Sel.pid ∉ ctx.selected → includes ctx.spid pid = false := by
    intro h
    exact not_includes (by simpa [mem_selected] using h) pid
  have huid : Sel.uid ∉ ctx.selected → includes ctx.suid uid = false := by
    intro h
    exact not_includes (by simpa [mem_selected] using h) uid
  have htask : ∀ st, ctx.taskTest 0 st = .ok st := by
    intro st
    simp [taskTest]
  rw [pgidTest_eq hall]
  by_cases h1 : ctx.selected = .single .pgid
  · have hp := hpid (hother h1 (by decide))
    have hu := huid (hother h1 (by decide))
    simp only [if_pos h1, if_pos (Or.inl h1), idState, ProcState.mark, hp, hu, Bool.or_false,
      Bool.false_or, KindSet.insertIf]
    rfl
  · rw [if_neg h1]
    have hfirst : ctx.selected = .single .pid →
        (ProcState.mark {} (includes ctx.spgid pgid) .pgid).sf.isEmpty = true := by
      intro h2
      rw [hpgid (hother h2 (by decide))]
      rfl
    show (ctx.pidTest pid (ProcState.mark {} (includes ctx.spgid pgid) .pgid) >>=
      ctx.uidTest uid >>= ctx.taskTest 0) = _
    rw [pidTest_eq hall pid hfirst]
    by_cases h2 : ctx.selected = .single .pid
    · have hg := hpgid (hother h2 (by decide))
      have hu := huid (hother h2 (by decide))
      simp only [if_pos h2, if_pos (Or.inr (Or.inl h2)), idState, ProcState.mark, hg, hu,
        Bool.or_false, Bool.false_or, KindSet.insertIf]
      rfl
    · rw [if_neg h2]
      have hnot : Sel.uid ∉ (ProcState.mark (ProcState.mark {} (includes ctx.spgid pgid) .pgid)
          (includes ctx.spid pid) .pid).sf := by
        simp [ProcState.mark]
      show (ctx.uidTest uid (ProcState.mark (ProcState.mark {} (includes ctx.spgid pgid) .pgid)
        (includes ctx.spid pid) .pid) >>= ctx.taskTest 0) = _
      rw [uidTest_eq hall uid hnot]
      by_cases h3 : ctx.selected = .single .uid
      · have hg := hpgid (hother h3 (by decide))
        have hp := hpid (hother h3 (by decide))
        simp only [if_pos h3, if_pos (Or.inr (Or.inr h3)), idState, ProcState.mark, hg, hp,
          Bool.or_false, Bool.false_or, KindSet.insertIf]
        rfl
      · rw [if_neg h3, if_neg (by tauto)]
        show ctx.taskTest 0 _ = _
        rw [htask]
        rfl

end Tests

def excluded (ctx : Context) (pid pgid uid : Nat) (cmd : Bytes) : Bool :=
  excludes ctx.suid uid || excludes ctx.spgid pgid || excludes ctx.spid pid ||
    ctx.cmdl.any (fun e => e.x && e.str.isPrefixOf cmd)

theorem idState_pri (pid pgid uid : Nat) :
    (ctx.idState pid pgid uid).pri = !(ctx.idState pid pgid uid).sf.isEmpty := by
  unfold idState
  cases includes ctx.spgid pgid <;> cases includes ctx.spid pid <;> cases includes ctx.suid uid <;>
    decide

theorem allocLfile_eq (st : ProcState) (fdType : FdType) (num : Nat) :
    ctx.allocLfile st fdType num =
      (if st.pri then st.sf else KindSet.none).insertIf (ctx.fdMatched fdType num) (.single .fd) := by
  unfold allocLfile fdMatched ckFdStatus
  by_cases hfdl : ctx.fdl = []
  · simp [hfdl, KindSet.insertIf]
  · have hne : ctx.fdl.isEmpty = false := by simpa using hfdl
    simp only [hne, Bool.false_eq_true, if_false, Bool.not_false, Bool.true_and]
    cases hty : ctx.fdlTy with
    | none => simp [KindSet.insertIf]
    | some excl =>
      cases excl with
      | false => cases ctx.fdl.any (fdHit fdType num) <;> rfl
      | true => cases ctx.fdl.any (fdHit fdType num) <;> rfl

theorem mem_allocLfile {st : ProcState} (hst : st.pri = !st.sf.isEmpty) {fdType : FdType} {num : Nat} :
    k ∈ ctx.allocLfile st fdType num ↔ k ∈ st.sf ∨ (k = .fd ∧ ctx.fdMatched fdType num = true) := by
  have hsf : (if st.pri = true then st.sf else KindSet.none) = st.sf := by
    cases hempty : st.sf.isEmpty with
    | false => simp [hst, hempty]
    | true =>
      have hnone := KindSet.isEmpty_iff.mp hempty
      simp only [hst, hempty, Bool.not_true, Bool.false_eq_true, if_false]
      exact KindSet.eq_iff.mpr fun j => by simp [hnone]
  rw [allocLfile_eq, hsf]
  cases ctx.fdMatched fdType num <;> simp [and_comm]

theorem isFileSel_iff (hall : ctx.allProc = false) {sf : Flags} (hsub : ∀ k, k ∈ sf → k ∈ ctx.selected) :
    ctx.isFileSel sf = true ↔ (∃ k, k ∈ sf) ∧ (ctx.fand = true → ∀ k, k ∈ ctx.selected → k ∈ sf) := by
  have hexclf : Sel.exclf ∉ sf := by
    intro h
    have hsel := hsub _ h
    simp [mem_selected] at hsel
  unfold isFileSel
  rw [selflags_eq hall]
  cases hempty : sf.isEmpty with
  | true =>
    have hnone := KindSet.isEmpty_iff.mp hempty
    simp [hnone]
  | false =>
    have hsome := KindSet.isEmpty_eq_false_iff.mp hempty
    have hinter : sf.intersection ctx.selected = ctx.selected ↔
        ∀ k, k ∈ ctx.selected → k ∈ sf := by
      rw [KindSet.eq_iff]
      simp only [KindSet.mem_intersection]
      exact ⟨fun h k hk => ((h k).mpr hk).1, fun h k => ⟨fun hk => hk.2, fun hk => ⟨h k hk, hk⟩⟩⟩
    cases hand : ctx.fand with
    | false => simp [hexclf, hall, hsome]
    | true => simp [hexclf, hall, hsome, hinter]

/-- Where no exclusion names a process, `is_proc_excl` leaves the flags of its
IDs, and excludes it only for one that was asked for and is missing. -/
theorem isProcExcl_eq (hall : ctx.allProc = false)
    (huid : excludes ctx.suid uid = false) (hpgid : excludes ctx.spgid pgid = false)
    (hpid : excludes ctx.spid pid = false) :
    ∃ out, ctx.isProcExcl pid pgid uid 0 = (out, ctx.idState pid pgid uid) ∧
      (out = true → (∀ k, k ∈ (ctx.idState pid pgid uid).sf → False) ∧
          (∃ j, ctx.selected = .single j ∧ j ∈ procFlags) ∨
        ctx.fand = true ∧ ∃ k, k ∈ ctx.selected ∧ k ∈ procFlags ∧ k ∉ (ctx.idState pid pgid uid).sf) := by
  unfold isProcExcl
  simp only [huid, hpgid, hpid, hall, Bool.false_eq_true, if_false]
  rw [idTests_eq hall]
  by_cases hone : ctx.selected = .single .pgid ∨ ctx.selected = .single .pid ∨
      ctx.selected = .single .uid
  · rw [if_pos hone]
    refine ⟨_, rfl, fun hout => Or.inl ⟨?_, ?_⟩⟩
    · rw [idState_pri, Bool.not_not] at hout
      exact KindSet.isEmpty_iff.mp hout
    · rcases hone with h | h | h
      · exact ⟨_, h, by simp [procFlags]⟩
      · exact ⟨_, h, by simp [procFlags]⟩
      · exact ⟨_, h, by simp [procFlags]⟩
  · rw [if_neg hone]
    unfold procVerdict
    rw [selflags_eq hall]
    dsimp only
    cases hempty : (ctx.idState pid pgid uid).sf.isEmpty with
    | true =>
      have hnone := KindSet.isEmpty_iff.mp hempty
      rw [if_pos rfl]
      refine ⟨_, rfl, fun hout => Or.inr ?_⟩
      rw [Bool.and_eq_true, KindSet.intersects_iff] at hout
      rcases hout with ⟨hand, k, hk, hproc⟩
      exact ⟨hand, k, hk, hproc, hnone k⟩
    | false =>
      cases hand : ctx.fand with
      | false => exact ⟨false, by simp, fun h => by cases h⟩
      | true =>
        have hsub : ∀ k, k ∈ (ctx.idState pid pgid uid).sf →
            k ∈ ctx.selected ∧ k ∈ procFlags := by
          intro k hk
          have hmatch : k ∈ ctx.matched pid pgid uid [] .numeric 0 := by
            simp only [matched, KindSet.mem_insertIf]
            simp only [idState, KindSet.mem_insertIf] at hk
            exact Or.inl (Or.inl hk)
          refine ⟨selected_of_matched hmatch, ?_⟩
          cases k <;> simp [idState] at hk <;> simp [procFlags]
        have hmeets : ctx.selected.intersects procFlags = true := by
          rcases KindSet.isEmpty_eq_false_iff.mp hempty with ⟨k, hk⟩
          exact KindSet.intersects_iff.mpr ⟨k, (hsub k hk).1, (hsub k hk).2⟩
        rw [if_neg Bool.false_ne_true, if_pos hmeets, if_pos rfl]
        refine ⟨_, rfl, fun hout => Or.inr ⟨rfl, ?_⟩⟩
        by_contra hno
        push Not at hno
        rw [decide_eq_true_iff, ne_eq, KindSet.eq_iff] at hout
        apply hout
        intro k
        rw [KindSet.mem_intersection]
        exact ⟨fun hk => hno k hk.1 hk.2, hsub k⟩

theorem isCmdExcl_eq (hall : ctx.allProc = false) (st : ProcState)
    (hcmd : ctx.cmdl.any (fun e => e.x && e.str.isPrefixOf cmd) = false) :
    ∃ out, ctx.isCmdExcl cmd st =
        (out, ProcState.mark st (ctx.cmdl.any (fun e => !e.x && e.str.isPrefixOf cmd)) .cmd) ∧
      (out = true → ctx.cmdl.any (fun e => !e.x && e.str.isPrefixOf cmd) = false ∧
        Sel.cmd ∈ ctx.selected ∧ (ctx.selected = .single .cmd ∨ ctx.fand = true)) := by
  unfold isCmdExcl
  rw [selflags_eq hall, hcmd]
  by_cases hmem : Sel.cmd ∈ ctx.selected
  · cases hhit : ctx.cmdl.any (fun e => !e.x && e.str.isPrefixOf cmd) with
    | true => exact ⟨false, by simp [hmem, ProcState.mark, KindSet.insertIf], fun h => by cases h⟩
    | false =>
      by_cases hone : ctx.selected = .single .cmd
      · refine ⟨true, ?_, fun _ => ⟨rfl, hmem, Or.inl hone⟩⟩
        simp [hone, ProcState.mark, KindSet.insertIf]
      · refine ⟨ctx.fand, ?_, fun h => ⟨rfl, hmem, Or.inr h⟩⟩
        simp [hmem, hone, ProcState.mark, KindSet.insertIf]
  · have hhit : ctx.cmdl.any (fun e => !e.x && e.str.isPrefixOf cmd) = false := by
      have hnone : ctx.cmdl.any (fun e => !e.x) = false := by
        simpa [mem_selected] using hmem
      rw [any_eq_false] at hnone ⊢
      intro e he
      simp [hnone e he]
    refine ⟨false, ?_, fun h => by cases h⟩
    simp [hmem, hhit, ProcState.mark, KindSet.insertIf]

theorem lists_of_allProc (hrun : ctx.refused = false) (hall : ctx.allProc = true)
    (hx : ctx.excluded pid pgid uid cmd = false)
    (fdType : FdType) (num : Nat) : ctx.lists pid pgid uid 0 cmd fdType num = true := by
  have hnone : ∀ k, k ∉ ctx.selected := KindSet.isEmpty_iff.mp hall
  have hand : ctx.fand = false := by
    unfold allProc at hall
    simpa [refused, hall] using hrun
  have hfdl : ctx.fdl = [] := by
    have hfd := hnone .fd
    simpa [mem_selected] using hfd
  have hcmds : ctx.cmdl.any (fun e => !e.x) = false := by
    have hcmd := hnone .cmd
    simpa [mem_selected] using hcmd
  have hhit : ctx.cmdl.any (fun e => !e.x && e.str.isPrefixOf cmd) = false := by
    rw [any_eq_false] at hcmds ⊢
    intro e he
    simp [hcmds e he]
  have hflags : ctx.selflags ≠ .single .cmd := by
    have hpid : Sel.pid ∈ ctx.selflags := by simp [selflags, hall, selAll]
    intro hone
    rw [hone, KindSet.mem_single] at hpid
    cases hpid
  have hsf : (selAll ctx.ignTasks).isEmpty = false ∧ Sel.exclf ∉ selAll ctx.ignTasks := by
    cases ctx.ignTasks <;> decide
  simp only [excluded, Bool.or_eq_false_iff] at hx
  obtain ⟨⟨⟨hu, hg⟩, hp⟩, hc⟩ := hx
  have hcommand : ctx.isCmdExcl cmd { pri := true, sf := selAll ctx.ignTasks } =
      (false, { pri := true, sf := selAll ctx.ignTasks }) := by
    unfold isCmdExcl
    rw [hc, hhit, if_neg hflags, hand]
    simp
  unfold lists isProcExcl
  simp only [hu, hg, hp, hall, Bool.false_eq_true, if_false, if_true, hcommand]
  simp [isFileSel, allocLfile, hfdl, hsf, hall]

theorem lists_of_selected (hall : ctx.allProc = false)
    (hx : ctx.excluded pid pgid uid cmd = false) (fdType : FdType) (num : Nat) :
    ctx.lists pid pgid uid 0 cmd fdType num = true ↔
      (∃ k, k ∈ ctx.matched pid pgid uid cmd fdType num) ∧
        (ctx.fand = true → ∀ k, k ∈ ctx.selected → k ∈ ctx.matched pid pgid uid cmd fdType num) := by
  simp only [excluded, Bool.or_eq_false_iff] at hx
  obtain ⟨⟨⟨hu, hg⟩, hp⟩, hc⟩ := hx
  obtain ⟨procOut, hproc, hprocOut⟩ := isProcExcl_eq hall hu hg hp
  obtain ⟨cmdOut, hcmd, hcmdOut⟩ := isCmdExcl_eq hall (ctx.idState pid pgid uid) hc
  have hsub : ∀ k, k ∈ ctx.matched pid pgid uid cmd fdType num → k ∈ ctx.selected :=
    fun _ => selected_of_matched
  have hpri := ProcState.mark_pri (ctx.idState_pri pid pgid uid)
    (ctx.cmdl.any (fun e => !e.x && e.str.isPrefixOf cmd)) .cmd
  have hfile : ctx.allocLfile (ProcState.mark (ctx.idState pid pgid uid)
      (ctx.cmdl.any (fun e => !e.x && e.str.isPrefixOf cmd)) .cmd) fdType num =
        ctx.matched pid pgid uid cmd fdType num := by
    rw [KindSet.eq_iff]
    intro k
    rw [mem_allocLfile hpri]
    simp only [ProcState.mark, idState, matched, KindSet.mem_insertIf, KindSet.mem_single]
    exact or_congr_right and_comm
  have hids : ∀ k, k ∈ procFlags → k ∈ ctx.matched pid pgid uid cmd fdType num →
      k ∈ (ctx.idState pid pgid uid).sf := by
    intro k hk hm
    cases k <;> simp [procFlags] at hk <;> simp_all [matched, idState]
  unfold lists
  rw [hproc]
  dsimp only
  rw [hcmd]
  dsimp only
  rw [hfile, ← isFileSel_iff hall hsub]
  -- Neither of the first two functions excludes what the last one selects.
  have hkept : ctx.isFileSel (ctx.matched pid pgid uid cmd fdType num) = true →
      procOut = false ∧ cmdOut = false := by
    intro hsel
    obtain ⟨⟨k, hk⟩, hevery⟩ := (isFileSel_iff hall hsub).mp hsel
    constructor
    · by_contra hout
      rcases hprocOut (by simpa using hout) with ⟨hnone, j, hone, hj⟩ | ⟨hand, j, hj, hjproc, hno⟩
      · have hkj : k = j := by
          have hmem := hsub k hk
          rw [hone, KindSet.mem_single] at hmem
          exact hmem
        exact hnone k (hids k (hkj ▸ hj) hk)
      · exact hno (hids j hjproc (hevery hand j hj))
    · by_contra hout
      obtain ⟨hmiss, hasked, hone | hand⟩ := hcmdOut (by simpa using hout)
      · have hkcmd : k = .cmd := by
          have hmem := hsub k hk
          rw [hone, KindSet.mem_single] at hmem
          exact hmem
        rw [hkcmd] at hk
        simp [matched, hmiss] at hk
      · have hmem := hevery hand _ hasked
        simp [matched, hmiss] at hmem
  constructor
  · intro hlists
    split at hlists
    · cases hlists
    · split at hlists
      · cases hlists
      · exact hlists
  · intro hsel
    rw [(hkept hsel).1, (hkept hsel).2]
    simpa using hsel

theorem lists_iff (hrun : ctx.refused = false) (pid pgid uid : Nat) (cmd : Bytes) (fdType : FdType) (num : Nat) :
    ctx.lists pid pgid uid 0 cmd fdType num = true ↔
      ctx.excluded pid pgid uid cmd = false ∧
        (ctx.allProc = true ∨ ((∃ k, k ∈ ctx.matched pid pgid uid cmd fdType num) ∧ (ctx.fand = true →
              ∀ k, k ∈ ctx.selected → k ∈ ctx.matched pid pgid uid cmd fdType num))) := by
  cases hx : ctx.excluded pid pgid uid cmd with
  | true =>
    -- An exclusion ends it, by ID before anything is asked and by name after.
    simp only [Bool.true_eq_false, false_and, iff_false, Bool.not_eq_true]
    simp only [excluded, Bool.or_eq_true] at hx
    unfold lists
    by_cases hid : (ctx.isProcExcl pid pgid uid 0).1 = true
    · simp [hid]
    · have hcmd : ctx.cmdl.any (fun e => e.x && e.str.isPrefixOf cmd) = true := by
        rcases hx with ((hu | hg) | hp) | hc
        · exact absurd (by simp [isProcExcl, hu]) hid
        · exact absurd (by simp [isProcExcl, hg]) hid
        · exact absurd (by simp [isProcExcl, hp]) hid
        · exact hc
      simp [isCmdExcl, hcmd]
  | false =>
    cases hall : ctx.allProc with
    | true => simpa using lists_of_allProc hrun hall hx fdType num
    | false => simpa using lists_of_selected hall hx fdType num

end Context

end Lsof.Original
