import Lsof.Cli.IdLists

/-! # The lists over any number of options

Whatever the values are, and however many options there are, a list holds what was
given for it first, and its set the same; no ID is on both sides, and the list of
descriptors is of one kind.
-/

namespace Lsof.Cli

open Lsof.Basis Lsof.Core List

theorem idList_pushId (sel : Selection) (n : Nat) (group excl g s : Bool) :
    idList (pushId sel n group excl) g s = if g = group ∧ s = excl then idList sel g s ++ [n] else idList sel g s := by
  cases group <;> cases excl <;> cases g <;> cases s <;> rfl

theorem mem_ids_insert (entered : EnteredIds) (n m : Nat) (group excl g s : Bool) :
    m ∈ (entered.insert n group excl).ids g s ↔ (g = group ∧ s = excl ∧ m = n) ∨ m ∈ entered.ids g s := by
  cases group <;> cases excl <;> cases g <;> cases s <;> simp [EnteredIds.insert, EnteredIds.ids]

theorem uids_pushId (sel : Selection) (n : Nat) (group excl : Bool) : (pushId sel n group excl).uids = sel.uids := by
  cases group <;> cases excl <;> rfl

theorem uidExcludes_pushId (sel : Selection) (n : Nat) (group excl : Bool) :
    (pushId sel n group excl).uidExcludes = sel.uidExcludes := by
  cases group <;> cases excl <;> rfl

theorem fdFilter_pushId (sel : Selection) (n : Nat) (group excl : Bool) :
    (pushId sel n group excl).fdFilter = sel.fdFilter := by
  cases group <;> cases excl <;> rfl

/-- The lists hold what the items given come to, the sets what the lists do, and the
descriptors are of one kind. -/
structure ListInv (st : ListState) : Prop where
  ids : ∀ group side, idList st.sel group side = onSide id side (st.idsGiven group)
  entered : ∀ group side n, n ∈ st.entered.ids group side ↔ n ∈ idList st.sel group side
  uids : st.sel.uids = onSide UidSel.uid false st.uidsGiven
  uidExcludes : st.sel.uidExcludes = (onSide UidSel.uid true st.uidsGiven).map UidSel.uid
  fds : ∀ f, st.sel.fdFilter = some f → f.include = [] ∨ f.exclude = []

section Steps

variable {q : Quotes} {lookup : Bytes → UserLookup} {st : ListState}

theorem ListInv.line (h : ListInv st) (t : Text) : ListInv (st.line q t) :=
  ⟨h.ids, h.entered, h.uids, h.uidExcludes, h.fds⟩

theorem ListInv.noUid (h : ListInv st) (name : Text) : ListInv (st.noUid q name) :=
  ⟨h.ids, h.entered, h.uids, h.uidExcludes, h.fds⟩

theorem onSide_id_concat (given : List (Bool × Nat)) (excl : Bool) (n : Nat) (side : Bool) :
    onSide id side (given ++ [(excl, n)]) =
      if side = excl ∧ n ∉ onSide id (!excl) given ∧ n ∉ onSide id excl given then onSide id side given ++ [n]
      else onSide id side given := by
  by_cases hside : side = excl
  · subst hside
    rw [onSide_concat]
    simp only [map_id, id_eq]
    by_cases hother : n ∈ onSide id (!side) given
    · simp [hother]
    · by_cases hthis : n ∈ onSide id side given
      · simp [hother, hthis]
      · simp [hother, hthis]
  · have hnot : side = !excl := Bool.eq_not.mpr hside
    rw [if_neg fun h => hside h.1, hnot]
    exact onSide_not_concat excl n given

theorem ListInv.given_again (h : ListInv st) {group : Bool} {item : Bool × Nat} {side : Bool}
    (hmet : item.2 ∈ onSide id side (st.idsGiven group)) :
    ListInv { st with idsGiven := fun g => if g = group then st.idsGiven g ++ [item] else st.idsGiven g } := by
  refine ⟨?_, h.entered, h.uids, h.uidExcludes, h.fds⟩
  intro g s
  dsimp only
  by_cases hg : g = group
  · have hname : id item.2 ∈ (onSide id side (st.idsGiven g)).map id := by
      rw [map_id, hg]
      exact hmet
    rw [if_pos hg, onSide_concat_of_met (mem_map_onSide hname)]
    exact h.ids g s
  · rw [if_neg hg]
    exact h.ids g s

theorem ListInv.enterListId (h : ListInv st) (group : Bool) (item : Bool × Nat) :
    ListInv (enterListId q group st item) := by
  have hmem : ∀ side, item.2 ∈ st.entered.ids group side ↔ item.2 ∈ onSide id side (st.idsGiven group) := by
    intro side
    rw [h.entered, h.ids]
  unfold Cli.enterListId
  dsimp only
  by_cases hother : item.2 ∈ st.entered.ids group (!item.1)
  · rw [if_pos hother]
    exact (h.given_again ((hmem _).mp hother)).line _
  · rw [if_neg hother]
    by_cases hthis : item.2 ∈ st.entered.ids group item.1
    · rw [if_pos hthis]
      exact h.given_again ((hmem _).mp hthis)
    · rw [if_neg hthis]
      have hnew : item.2 ∉ onSide id (!item.1) (st.idsGiven group) ∧ item.2 ∉ onSide id item.1 (st.idsGiven group) :=
        ⟨mt (hmem _).mpr hother, mt (hmem _).mpr hthis⟩
      constructor
      · intro g side
        dsimp only
        rw [idList_pushId, h.ids g side]
        by_cases hg : g = group
        · rw [if_pos hg, onSide_id_concat, hg]
          by_cases hside : side = item.1
          · rw [if_pos ⟨rfl, hside⟩, if_pos ⟨hside, hnew⟩]
          · rw [if_neg fun hall => hside hall.2, if_neg fun hall => hside hall.1]
        · rw [if_neg fun hall => hg hall.1, if_neg hg]
      · intro g side n
        dsimp only
        rw [mem_ids_insert, idList_pushId, h.entered]
        by_cases hplace : g = group ∧ side = item.1
        · rw [if_pos hplace, mem_append, mem_singleton]
          simp only [hplace, true_and]
          exact or_comm
        · rw [if_neg hplace]
          exact ⟨fun hor => hor.resolve_left fun hall => hplace ⟨hall.1, hall.2.1⟩, Or.inr⟩
      · exact (uids_pushId _ _ _ _).trans h.uids
      · exact (uidExcludes_pushId _ _ _ _).trans h.uidExcludes
      · intro f hf
        exact h.fds f ((fdFilter_pushId _ _ _ _).symm.trans hf)

theorem ListInv.enterIds (h : ListInv st) (value : Text) (group : Bool) : ListInv (enterIds q st value group) := by
  have hfold : ∀ items : List (Bool × Nat), ListInv (items.foldl (Cli.enterListId q group) st) := by
    intro items
    induction items generalizing st with
    | nil => exact h
    | cons item items ih => exact ih (h.enterListId group item)
  unfold Cli.enterIds
  dsimp only
  cases (idsRead q group value).2 with
  | none => exact hfold _
  | some bad => exact (hfold _).line bad

theorem ListInv.any_uids (h : ListInv st) (n : Nat) :
    (st.sel.uids.any fun s => s.uid == n) = true ↔ n ∈ (onSide UidSel.uid false st.uidsGiven).map UidSel.uid := by
  rw [h.uids, any_eq_true, mem_map]
  simp only [beq_iff_eq]

theorem ListInv.contains_uidExcludes (h : ListInv st) (n : Nat) :
    st.sel.uidExcludes.contains n = true ↔ n ∈ (onSide UidSel.uid true st.uidsGiven).map UidSel.uid := by
  rw [h.uidExcludes, contains_iff_mem]

theorem ListInv.uid_again (h : ListInv st) {excl side : Bool} {user : UidSel}
    (hmet : user.uid ∈ (onSide UidSel.uid side st.uidsGiven).map UidSel.uid) :
    ListInv { st with uidsGiven := st.uidsGiven ++ [(excl, user)] } := by
  have hold := mem_map_onSide hmet
  refine ⟨h.ids, h.entered, ?_, ?_, h.fds⟩
  · exact h.uids.trans (onSide_concat_of_met hold).symm
  · exact h.uidExcludes.trans (congrArg (List.map UidSel.uid) (onSide_concat_of_met hold).symm)

theorem ListInv.uid_new (h : ListInv st) (excl : Bool) {user : UidSel}
    (hincluded : user.uid ∉ (onSide UidSel.uid false st.uidsGiven).map UidSel.uid)
    (hexcluded : user.uid ∉ (onSide UidSel.uid true st.uidsGiven).map UidSel.uid) :
    ListInv { st with
      uidsGiven := st.uidsGiven ++ [(excl, user)]
      sel := { st.sel with
        uids := st.sel.uids ++ if excl = false then [user] else []
        uidExcludes := st.sel.uidExcludes ++ if excl = true then [user.uid] else [] } } := by
  have hnew : user.uid ∉ st.uidsGiven.map fun g => g.2.uid := by
    intro hmem
    rcases mem_onSide_or hmem false with hin | hin
    · exact hincluded hin
    · exact hexcluded hin
  refine ⟨h.ids, h.entered, ?_, ?_, h.fds⟩
  · dsimp only
    rw [onSide_concat_of_new hnew, h.uids]
  · dsimp only
    rw [onSide_concat_of_new hnew, h.uidExcludes, map_append]
    cases excl with
    | true => rfl
    | false => rfl

theorem ListInv.enterUid (h : ListInv st) (excl : Bool) (user : UidSel) : ListInv (enterUid st excl user).1 := by
  have hin := h.any_uids user.uid
  have hout := h.contains_uidExcludes user.uid
  unfold Cli.enterUid
  dsimp only
  by_cases hincluded : (st.sel.uids.any fun s => s.uid == user.uid) = true
  · have hagain : ListInv { st with uidsGiven := st.uidsGiven ++ [(excl, user)] } := h.uid_again (hin.mp hincluded)
    have hone : st.sel.uidExcludes.contains user.uid = false := by
      apply eq_false_of_ne_true
      intro hboth
      exact disjoint_onSide UidSel.uid st.uidsGiven (hin.mp hincluded) (hout.mp hboth)
    cases excl with
    | true =>
      simp only [hincluded, if_true]
      exact hagain
    | false =>
      simp only [hincluded, hone, Bool.false_eq_true, if_false, if_true]
      exact hagain
  · by_cases hexcluded : st.sel.uidExcludes.contains user.uid = true
    · have hagain : ListInv { st with uidsGiven := st.uidsGiven ++ [(excl, user)] } := h.uid_again (hout.mp hexcluded)
      cases excl with
      | true =>
        simp only [hincluded, hexcluded, if_true]
        exact hagain
      | false =>
        simp only [hexcluded, Bool.false_eq_true, if_false, if_true]
        exact hagain
    · have hnew := h.uid_new excl (mt hin.mpr hincluded) (mt hout.mpr hexcluded)
      cases excl with
      | true =>
        simp only [hincluded, hexcluded, if_true, if_false, Bool.true_eq_false, append_nil] at hnew ⊢
        exact hnew
      | false =>
        simp only [hincluded, hexcluded, if_true, if_false, Bool.false_eq_true, append_nil] at hnew ⊢
        exact hnew

theorem ListInv.enterUserItem (h : ListInv st) (item : Bytes) : ListInv (enterUserItem q lookup st item).1 := by
  unfold Cli.enterUserItem
  dsimp only
  split
  · exact h.line _
  · split
    · exact h.enterUid _ _
    · exact h.noUid _
    · dsimp only
      split
      · exact ⟨h.ids, h.entered, h.uids, h.uidExcludes, h.fds⟩
      · exact ⟨h.ids, h.entered, h.uids, h.uidExcludes, h.fds⟩

theorem ListInv.enterUsers (h : ListInv st) (value : Bytes) : ListInv (enterUsers q lookup st value).1 :=
  foldUntil_keeps (fun _ item hst => hst.enterUserItem item) _ h

theorem pushFdSpec_kind {f : FdFilter} (hf : f.include = [] ∨ f.exclude = []) {exclude : Bool}
    (hkind : ((excluding f).filter fun was => was != exclude) = none) (spec : FdSpec) :
    (pushFdSpec f exclude spec).include = [] ∨ (pushFdSpec f exclude spec).exclude = [] := by
  unfold excluding at hkind
  cases exclude with
  | true =>
    left
    cases hexclude : f.exclude with
    | cons x xs => exact hf.resolve_right (hexclude ▸ cons_ne_nil x xs)
    | nil =>
      cases hinclude : f.include with
      | nil => exact hinclude
      | cons x xs => simp [hexclude, hinclude] at hkind
  | false =>
    right
    cases hexclude : f.exclude with
    | nil => exact hexclude
    | cons x xs => simp [hexclude] at hkind

theorem ListInv.fdFilter (h : ListInv st) {f : FdFilter} (hf : f.include = [] ∨ f.exclude = []) :
    ListInv { st with sel := { st.sel with fdFilter := some f } } := by
  refine ⟨h.ids, h.entered, h.uids, h.uidExcludes, ?_⟩
  intro g hg
  rw [← Option.some.inj hg]
  exact hf

theorem ListInv.enterFdItem (h : ListInv st) (quiet : Bool) (item : Text) : ListInv (enterFdItem q quiet st item).1 := by
  have hf : (st.sel.fdFilter.getD {}).include = [] ∨ (st.sel.fdFilter.getD {}).exclude = [] := by
    cases hfilter : st.sel.fdFilter with
    | none => exact Or.inl rfl
    | some f => exact h.fds f hfilter
  have hopened := h.fdFilter hf
  unfold Cli.enterFdItem
  dsimp only
  split
  · exact h
  · split
    · exact h.line _
    · split
      · split
        · exact ⟨hopened.ids, hopened.entered, hopened.uids, hopened.uidExcludes, hopened.fds⟩
        · exact hopened.line _
      · rename_i hkind
        split
        · exact hopened.line _
        · exact hopened
        · exact h.fdFilter (pushFdSpec_kind hf hkind _)

theorem ListInv.enterFdList (h : ListInv st) (quiet : Bool) (value : Text) : ListInv (enterFdList q quiet st value).1 := by
  unfold Cli.enterFdList
  split
  · exact h.line _
  · exact foldUntil_keeps (fun _ item hst => hst.enterFdItem quiet item) _ h

theorem ListInv.enterListOption (h : ListInv st) (opt : ListOption) : ListInv (enterListOption q lookup st opt).1 := by
  have hcolumn : ListInv { st with pgidColumn := true } := ⟨h.ids, h.entered, h.uids, h.uidExcludes, h.fds⟩
  cases opt with
  | pid value =>
    cases value with
    | none => exact h.line _
    | some value => exact h.enterIds value false
  | pgid value =>
    cases value with
    | none => exact hcolumn
    | some value => exact hcolumn.enterIds value true
  | user value =>
    cases value with
    | none => exact h.line _
    | some value => exact h.enterUsers value
  | fd value quiet => exact h.enterFdList quiet _

end Steps

section Given

variable (q : Quotes) (lookup : Bytes → UserLookup)

def idsOf (group : Bool) : ListOption → List (Bool × Nat)
  | .pid (some value) => if group then [] else (idsRead q false value).1
  | .pgid (some value) => if group then (idsRead q true value).1 else []
  | _ => []

def uidOf (item : Bytes) : List (Bool × UidSel) :=
  let name := (unmarked 94 item).2
  if LOGINML < name.length then []
  else
    match lookup (loginOf name) with
    | .uid uid => [((unmarked 94 item).1, uidSel (loginOf name) uid)]
    | _ => []

def uidsOf : ListOption → List (Bool × UidSel)
  | .user (some value) => (listItems 44 value).flatMap (uidOf lookup)
  | _ => []

theorem idsGiven_enterListId (group g : Bool) (st : ListState) (item : Bool × Nat) :
    (enterListId q group st item).idsGiven g = st.idsGiven g ++ if g = group then [item] else [] := by
  unfold enterListId
  dsimp only
  split
  · by_cases hg : g = group <;> simp [ListState.line, hg]
  · split
    · by_cases hg : g = group <;> simp [hg]
    · by_cases hg : g = group <;> simp [hg]

theorem uidsGiven_enterListId (group : Bool) (st : ListState) (item : Bool × Nat) :
    (enterListId q group st item).uidsGiven = st.uidsGiven := by
  unfold enterListId
  dsimp only
  split
  · rfl
  · split
    · rfl
    · rfl

theorem idsGiven_enterIds (st : ListState) (value : Text) (group g : Bool) :
    (enterIds q st value group).idsGiven g = st.idsGiven g ++ if g = group then (idsRead q group value).1 else [] := by
  have hfold : ∀ (items : List (Bool × Nat)) (st : ListState), (items.foldl (enterListId q group) st).idsGiven g =
      st.idsGiven g ++ if g = group then items else [] := by
    intro items
    induction items with
    | nil => simp
    | cons item items ih =>
      intro st
      rw [foldl_cons, ih, idsGiven_enterListId]
      by_cases hg : g = group
      · simp [hg]
      · simp [hg]
  unfold enterIds
  dsimp only
  cases (idsRead q group value).2 with
  | none => exact hfold _ st
  | some bad => exact hfold _ st

theorem uidsGiven_enterIds (st : ListState) (value : Text) (group : Bool) :
    (enterIds q st value group).uidsGiven = st.uidsGiven := by
  have hfold : ∀ (items : List (Bool × Nat)) (st : ListState),
      (items.foldl (enterListId q group) st).uidsGiven = st.uidsGiven := by
    intro items
    induction items with
    | nil => exact fun _ => rfl
    | cons item items ih =>
      intro st
      rw [foldl_cons, ih, uidsGiven_enterListId]
  unfold enterIds
  dsimp only
  cases (idsRead q group value).2 with
  | none => exact hfold _ st
  | some bad => exact hfold _ st

theorem idsGiven_enterUid (st : ListState) (excl : Bool) (user : UidSel) :
    (enterUid st excl user).1.idsGiven = st.idsGiven := by
  unfold enterUid
  dsimp only
  repeat' split
  all_goals rfl

theorem uidsGiven_enterUid (st : ListState) (excl : Bool) (user : UidSel) :
    (enterUid st excl user).1.uidsGiven = st.uidsGiven ++ [(excl, user)] := by
  unfold enterUid
  dsimp only
  repeat' split
  all_goals rfl

theorem idsGiven_enterUsers (st : ListState) (value : Bytes) :
    (enterUsers q lookup st value).1.idsGiven = st.idsGiven := by
  apply foldUntil_keeps (P := fun s : ListState => s.idsGiven = st.idsGiven)
  · intro s item hs
    unfold enterUserItem
    dsimp only
    split
    · exact hs
    · split
      · exact (idsGiven_enterUid s _ _).trans hs
      · exact hs
      · dsimp only
        split
        · exact hs
        · exact hs
  · rfl

theorem enterUserItem_logs : Logs (enterUserItem q lookup) ListState.uidsGiven (uidOf lookup) := by
  intro st item
  have hall : (enterUserItem q lookup st item).1.uidsGiven = st.uidsGiven ++ uidOf lookup item := by
    unfold enterUserItem uidOf
    dsimp only
    split
    · exact (append_nil _).symm
    · cases lookup (loginOf (unmarked 94 item).2) with
      | uid uid => exact uidsGiven_enterUid st _ _
      | unknown => exact (append_nil _).symm
      | byName =>
        dsimp only
        split
        · exact (append_nil _).symm
        · exact (append_nil _).symm
  exact ⟨hall ▸ prefix_rfl, fun _ => hall⟩

theorem given_enterFdList (st : ListState) (quiet : Bool) (value : Text) :
    (enterFdList q quiet st value).1.idsGiven = st.idsGiven ∧ (enterFdList q quiet st value).1.uidsGiven = st.uidsGiven := by
  unfold enterFdList
  split
  · exact ⟨rfl, rfl⟩
  · apply foldUntil_keeps (P := fun s : ListState => s.idsGiven = st.idsGiven ∧ s.uidsGiven = st.uidsGiven)
    · intro s item hs
      unfold enterFdItem
      dsimp only
      repeat' split
      all_goals exact hs
    · exact ⟨rfl, rfl⟩

theorem enterListOption_logs_ids (g : Bool) :
    Logs (enterListOption q lookup) (fun st => st.idsGiven g) (idsOf q g) := by
  intro st opt
  have hall : (enterListOption q lookup st opt).1.idsGiven g = st.idsGiven g ++ idsOf q g opt := by
    cases opt with
    | pid value =>
      cases value with
      | none => exact (append_nil _).symm
      | some value =>
        refine (idsGiven_enterIds q st value false g).trans ?_
        cases g with
        | true => rfl
        | false => rfl
    | pgid value =>
      cases value with
      | none => exact (append_nil _).symm
      | some value =>
        refine (idsGiven_enterIds q { st with pgidColumn := true } value true g).trans ?_
        cases g with
        | true => rfl
        | false => rfl
    | user value =>
      cases value with
      | none => exact (append_nil _).symm
      | some value => exact (congrFun (idsGiven_enterUsers q lookup st value) g).trans (append_nil _).symm
    | fd value quiet =>
      exact (congrFun (given_enterFdList q st quiet (value.getD [])).1 g).trans (append_nil _).symm
  exact ⟨hall ▸ prefix_rfl, fun _ => hall⟩

theorem enterListOption_logs_uids : Logs (enterListOption q lookup) ListState.uidsGiven (uidsOf lookup) := by
  intro st opt
  have hnothing : ∀ next : ListState × Option Text, next.1.uidsGiven = st.uidsGiven →
      next.1.uidsGiven <+: st.uidsGiven ++ [] ∧ (next.2 = none → next.1.uidsGiven = st.uidsGiven ++ []) := by
    intro next hnext
    rw [hnext, append_nil]
    exact ⟨prefix_rfl, fun _ => rfl⟩
  cases opt with
  | pid value =>
    cases value with
    | none => exact hnothing _ rfl
    | some value => exact hnothing _ (uidsGiven_enterIds q st value false)
  | pgid value =>
    cases value with
    | none => exact hnothing _ rfl
    | some value => exact hnothing _ (uidsGiven_enterIds q { st with pgidColumn := true } value true)
  | user value =>
    cases value with
    | none => exact hnothing _ rfl
    | some value => exact foldUntil_logs (enterUserItem_logs q lookup) st (listItems 44 value)
  | fd value quiet => exact hnothing _ (given_enterFdList q st quiet (value.getD [])).2

theorem listInv_start (early : Early) : ListInv { early } := by
  constructor
  · intro group side
    cases group <;> cases side <;> rfl
  · intro group side n
    cases group <;> cases side <;> exact iff_of_false (Finset.notMem_empty n) not_mem_nil
  · rfl
  · rfl
  · exact nofun

/-- After any options, whatever their values are and wherever an error ends them: the
included and the excluded PIDs, PGIDs and UIDs are each given once, in the order in
which they were first given, and none is both; the sets hold what the lists do; and
the descriptors are all included or all excluded. -/
theorem idLists_consistent (early : Early) (opts : List ListOption) :
    ∃ out ended, enterListOptions q lookup opts { early } = (out, ended) ∧
      (∀ group, (idList out.sel group false).Nodup ∧ (idList out.sel group true).Nodup ∧
        List.Disjoint (idList out.sel group false) (idList out.sel group true) ∧
        (∀ side, idList out.sel group side = onSide id side (out.idsGiven group) ∧
          ∀ n, n ∈ out.entered.ids group side ↔ n ∈ idList out.sel group side) ∧
        out.idsGiven group <+: opts.flatMap (idsOf q group) ∧
        (ended = none → out.idsGiven group = opts.flatMap (idsOf q group))) ∧
      ((out.sel.uids.map UidSel.uid).Nodup ∧ out.sel.uidExcludes.Nodup ∧
        List.Disjoint (out.sel.uids.map UidSel.uid) out.sel.uidExcludes ∧
        out.sel.uids = onSide UidSel.uid false out.uidsGiven ∧
        out.sel.uidExcludes = (onSide UidSel.uid true out.uidsGiven).map UidSel.uid ∧
        out.uidsGiven <+: opts.flatMap (uidsOf lookup) ∧
        (ended = none → out.uidsGiven = opts.flatMap (uidsOf lookup))) ∧
      ∀ f, out.sel.fdFilter = some f → f.include = [] ∨ f.exclude = [] := by
  have h : ListInv (enterListOptions q lookup opts { early }).1 :=
    foldUntil_keeps (fun _ opt hst => hst.enterListOption opt) opts (listInv_start early)
  refine ⟨_, _, rfl, ?_, ?_, h.fds⟩
  · intro group
    have hnodup : ∀ side, (idList (enterListOptions q lookup opts { early }).1.sel group side).Nodup := by
      intro side
      have hside := nodup_onSide id side ((enterListOptions q lookup opts { early }).1.idsGiven group)
      rw [h.ids]
      rw [map_id] at hside
      exact hside
    have hdisjoint := disjoint_onSide id ((enterListOptions q lookup opts { early }).1.idsGiven group)
    rw [map_id, map_id, ← h.ids, ← h.ids] at hdisjoint
    have hlogs := foldUntil_logs (enterListOption_logs_ids q lookup group) { early } opts
    exact ⟨hnodup false, hnodup true, hdisjoint, fun side => ⟨h.ids group side, h.entered group side⟩, hlogs.1, hlogs.2⟩
  · have hincluded := nodup_onSide UidSel.uid false (enterListOptions q lookup opts { early }).1.uidsGiven
    have hexcluded := nodup_onSide UidSel.uid true (enterListOptions q lookup opts { early }).1.uidsGiven
    have hdisjoint := disjoint_onSide UidSel.uid (enterListOptions q lookup opts { early }).1.uidsGiven
    rw [← h.uidExcludes] at hexcluded hdisjoint
    rw [← h.uids] at hincluded hdisjoint
    have hlogs := foldUntil_logs (enterListOption_logs_uids q lookup) { early } opts
    exact ⟨hincluded, hexcluded, hdisjoint, h.uids, h.uidExcludes, hlogs.1, hlogs.2⟩

end Given

end Lsof.Cli
