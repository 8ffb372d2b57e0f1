import Lsof.Original.StateNames

/-! # State numbers in any order

`enter_IPstate()` takes state numbers as they come. A number below all before it
moves the names up: the loop moves as many slots as the offset grows by, and only
where the table grows too. The names stand at their numbers for the orders of which
each such step leaves nothing behind.
-/

namespace Lsof.Original

open Lsof.Basis List

namespace StateTable

variable {t : StateTable} {nr : Int} {nm : Text}

/-- Slot `i`; outside the array there is nothing that was set. -/
def slot (t : StateTable) (i : Nat) : Slot := (t.st.getD []).getD i .unset

def size (t : StateTable) : Nat := (t.st.getD []).length

/-- `TcpStAlloc` says how long the array is, and `TcpNstates` is within it. -/
structure Sized (t : StateTable) : Prop where
  size_eq : t.size = t.alloc
  within : t.nstates ≤ t.alloc

/-- The table with the offset and the room a number needs. -/
def prepared (t : StateTable) (nr : Int) : StateTable :=
  let up := newOffset t (-nr).toNat
  makeRoom up ((nr + up.off).toNat + 1)

def place (t : StateTable) (nr : Int) : Nat := (nr + t.off).toNat

def put (t : StateTable) (i : Nat) (nm : Text) : StateTable :=
  { t with st := t.st.map fun a => a.set i (.name nm) }

/-- The slots a call reads or writes, each with the length of the array at that
moment: those that are moved, those that are cleared, and that of the number. -/
def touched (t : StateTable) (nr : Int) : List (Nat × Nat) :=
  let up := newOffset t (-nr).toNat
  let oc := up.off - t.off
  let i := (nr + up.off).toNat
  let room := makeRoom up (i + 1)
  (if t.st.isSome ∧ 0 < oc ∧ t.alloc ≤ t.nstates + oc then
    (List.range oc).flatMap fun i => ((if i < t.nstates then [i + oc, i] else []) ++ [i]).map (·, up.size)
  else []) ++
  (if up.alloc < i + 1 then (List.range' up.nstates (room.alloc - up.nstates)).map (·, room.size) else []) ++
  [(i, room.size)]

theorem le_growAlloc (nn fuel al : Nat) : al ≤ growAlloc nn fuel al := by
  induction fuel generalizing al with
  | zero => exact Nat.le_refl al
  | succ fuel ih =>
    rw [growAlloc]
    split
    · exact Nat.le_trans (Nat.le_add_right al _) (ih _)
    · exact Nat.le_refl al

theorem le_allocFor (nn al : Nat) : al ≤ allocFor nn al := le_growAlloc nn _ al

theorem slot_of_size_le {i : Nat} (h : t.size ≤ i) : t.slot i = .unset := getD_eq_default _ _ h

theorem length_resize {a : List Slot} {al : Nat} (h : a.length ≤ al) : (resize a al).length = al := by
  simp [resize]
  omega

theorem getD_resize {a : List Slot} {al : Nat} (h : a.length ≤ al) (j : Nat) :
    (resize a al).getD j .unset = a.getD j .unset := by
  rw [resize, take_of_length_le h]
  by_cases hj : j < a.length
  · rw [getD_append _ _ _ _ hj]
  · rw [getD_append_right _ _ _ _ (by omega), getD_eq_default a _ (by omega)]
    simp only [getD_eq_getElem?_getD, getElem?_replicate]
    split <;> rfl

theorem getD_set (a : List Slot) (i j : Nat) (s : Slot) :
    (a.set i s).getD j .unset = if j = i ∧ i < a.length then s else a.getD j .unset := by
  simp only [getD_eq_getElem?_getD, getElem?_set]
  by_cases hij : i = j
  · subst hij
    by_cases hi : i < a.length
    · simp [hi]
    · simp [hi]
  · simp [hij, Ne.symm hij]

/-- The first `c` turns of the loop that moves the slots up. -/
theorem moveUp_turns {ns oc : Nat} (a : List Slot) (hroom : oc + min oc ns ≤ a.length) {c : Nat} (hc : c ≤ oc) :
    let moved := (List.range c).foldl (fun a i =>
      (if i < ns then a.set (i + oc) (a.getD i .unset) else a).set i .null) a
    moved.length = a.length ∧ ∀ j, moved.getD j .unset =
      if j < c then .null else if oc ≤ j ∧ j < oc + min c ns then a.getD (j - oc) .unset else a.getD j .unset := by
  induction c with
  | zero =>
    refine ⟨rfl, fun j => ?_⟩
    rw [if_neg (Nat.not_lt_zero j), if_neg (by omega)]
    rfl
  | succ c ih =>
    obtain ⟨hlength, hslot⟩ := ih (by omega)
    simp only [range_succ, foldl_append, foldl_cons, foldl_nil]
    generalize (List.range c).foldl _ a = moved at hlength hslot
    have hsource : moved.getD c .unset = a.getD c .unset := by
      rw [hslot, if_neg (Nat.lt_irrefl c), if_neg (by omega)]
    by_cases hns : c < ns
    · simp only [if_pos hns, length_set, hsource]
      refine ⟨hlength, fun j => ?_⟩
      rw [getD_set, getD_set, hslot, length_set, hlength]
      by_cases hj : j = c + oc
      · rw [if_neg (by omega), if_pos (by omega), if_neg (by omega), if_pos (by omega), hj, Nat.add_sub_cancel]
      · by_cases hjc : j = c
        · rw [if_pos (by omega), if_pos (by omega)]
        · rw [if_neg (by omega), if_neg (by omega)]
          split_ifs <;> first | rfl | omega
    · simp only [if_neg hns, length_set]
      refine ⟨hlength, fun j => ?_⟩
      rw [getD_set, hslot, hlength]
      split_ifs <;> first | rfl | omega

structure Moved (t up : StateTable) (oc : Nat) : Prop where
  off_eq : up.off = t.off + oc
  nstates_eq : up.nstates = t.nstates + oc
  alloc_eq : up.alloc = allocFor (t.nstates + oc) t.alloc
  table : up.st.isSome
  size_eq : up.size = up.alloc
  slot_eq : ∀ j, up.slot j =
    if j < oc then .null else if j < oc + min oc t.nstates then t.slot (j - oc) else t.slot j

theorem newOffset_cases (h : t.Sized) (off : Nat) :
    (off ≤ t.off ∧ newOffset t off = t) ∨
    (t.off < off ∧ ¬(t.st.isSome ∧ t.alloc ≤ t.nstates + (off - t.off)) ∧ newOffset t off = { t with off }) ∨
    (t.off < off ∧ t.st.isSome ∧ t.alloc ≤ t.nstates + (off - t.off) ∧ Moved t (newOffset t off) (off - t.off)) := by
  by_cases hoff : t.off < off
  · unfold newOffset
    rw [if_pos hoff]
    cases hst : t.st with
    | none => exact .inr (.inl ⟨hoff, by simp, by cases t; cases hst; rfl⟩)
    | some a =>
      have hsize : a.length = t.alloc := by
        rw [← h.size_eq, size, hst, Option.getD_some]
      dsimp only
      by_cases hroom : t.nstates + (off - t.off) ≥ t.alloc
      · rw [if_pos hroom]
        have hal := le_allocFor (t.nstates + (off - t.off)) t.alloc
        have henough := allocFor_enough (t.nstates + (off - t.off)) t.alloc
        have hlength := length_resize (hsize.trans_le hal)
        have hfits : off - t.off + min (off - t.off) t.nstates ≤
            (resize a (allocFor (t.nstates + (off - t.off)) t.alloc)).length := by
          rw [hlength]
          omega
        obtain ⟨hkeeps, hslot⟩ := moveUp_turns _ hfits (Nat.le_refl (off - t.off))
        refine .inr (.inr ⟨hoff, rfl, hroom, by dsimp only; omega, rfl, rfl, rfl, hkeeps.trans hlength, fun j => ?_⟩)
        refine (hslot j).trans ?_
        simp only [getD_resize (hsize.trans_le hal), slot, hst, Option.getD_some]
        split_ifs <;> first | rfl | omega
      · rw [if_neg hroom]
        exact .inr (.inl ⟨hoff, fun hmoved => hroom hmoved.2, by cases t; simp_all⟩)
  · exact .inl ⟨Nat.le_of_not_lt hoff, by rw [newOffset, if_neg hoff]⟩

theorem off_newOffset (h : t.Sized) (off : Nat) : (newOffset t off).off = max t.off off := by
  obtain ⟨hle, heq⟩ | ⟨hlt, -, heq⟩ | ⟨hlt, -, -, hmoved⟩ := newOffset_cases h off
  · rw [heq, Nat.max_eq_left hle]
  · rw [heq, Nat.max_eq_right (Nat.le_of_lt hlt)]
  · rw [hmoved.off_eq]
    omega

theorem Sized.newOffset (h : t.Sized) (off : Nat) : (newOffset t off).Sized := by
  obtain ⟨-, heq⟩ | ⟨-, -, heq⟩ | ⟨-, -, -, hmoved⟩ := newOffset_cases h off
  · rwa [heq]
  · rw [heq]
    exact ⟨h.size_eq, h.within⟩
  · refine ⟨hmoved.size_eq, ?_⟩
    have henough := allocFor_enough (t.nstates + (off - t.off)) t.alloc
    rw [hmoved.nstates_eq, hmoved.alloc_eq]
    omega

theorem slot_makeRoom (h : t.Sized) (nn j : Nat) :
    (makeRoom t nn).slot j =
      if t.alloc < nn ∧ t.nstates ≤ j ∧ j < allocFor nn t.alloc then .null else t.slot j := by
  have hsize : (t.st.getD []).length = t.alloc := h.size_eq
  have hwithin := h.within
  by_cases hgrows : t.alloc < nn
  · have hal := le_allocFor nn t.alloc
    rw [makeRoom, if_pos hgrows]
    simp only [slot, Option.getD_some]
    have hlength : ((resize (t.st.getD []) (allocFor nn t.alloc)).take t.nstates).length = t.nstates := by
      rw [length_take, length_resize (hsize.trans_le hal)]
      omega
    by_cases hj : j < t.nstates
    · rw [getD_append _ _ _ _ (by omega), if_neg (by omega), ← getD_resize (hsize.trans_le hal)]
      simp only [getD_eq_getElem?_getD, getElem?_take, if_pos hj]
    · rw [getD_append_right _ _ _ _ (by omega), hlength]
      simp only [getD_eq_getElem?_getD, getElem?_replicate]
      by_cases hlt : j < allocFor nn t.alloc
      · rw [if_pos (by omega), if_pos ⟨hgrows, by omega, hlt⟩, Option.getD_some]
      · rw [if_neg (by omega), if_neg (by omega), getElem?_eq_none (by omega)]
  · rw [makeRoom, if_neg hgrows, if_neg fun hj => hgrows hj.1]
    rfl

theorem Sized.makeRoom (h : t.Sized) (nn : Nat) : (makeRoom t nn).Sized := by
  have hsize : (t.st.getD []).length = t.alloc := h.size_eq
  have hwithin := h.within
  by_cases hgrows : t.alloc < nn
  · have hal := le_allocFor nn t.alloc
    have henough := allocFor_enough nn t.alloc
    rw [Original.makeRoom, if_pos hgrows]
    refine ⟨?_, by dsimp only; omega⟩
    simp only [size, Option.getD_some, length_append, length_take, length_replicate,
      length_resize (hsize.trans_le hal)]
    omega
  · rw [Original.makeRoom, if_neg hgrows]
    exact ⟨h.size_eq, by dsimp only; omega⟩

theorem nstates_makeRoom (h : t.Sized) (nn : Nat) : (makeRoom t nn).nstates = max t.nstates nn := by
  have hwithin := h.within
  rw [makeRoom]
  split
  · dsimp only
    omega
  · rfl

theorem lt_size_makeRoom (h : t.Sized) (i : Nat) : i < (makeRoom t (i + 1)).size := by
  have hsized := h.makeRoom (i + 1)
  have hwithin := hsized.within
  rw [nstates_makeRoom h] at hwithin
  rw [hsized.size_eq]
  omega

theorem slot_put {i : Nat} (hi : i < t.size) (j : Nat) :
    (t.put i nm).slot j = if j = i then .name nm else t.slot j := by
  cases hst : t.st with
  | none => simp [size, hst] at hi
  | some a =>
    simp only [size, hst, Option.getD_some] at hi
    simp only [slot, put, hst, Option.map_some, Option.getD_some, getD_set, hi, and_true]

theorem Sized.put (h : t.Sized) (i : Nat) : (t.put i nm).Sized := by
  refine ⟨Eq.trans ?_ h.size_eq, h.within⟩
  cases hst : t.st with
  | none => simp [size, StateTable.put, hst]
  | some a => simp [size, StateTable.put, hst]

theorem slot_shrink (h : t.Sized) (j : Nat) : (shrink t).slot j = if j < t.nstates then t.slot j else .unset := by
  have hsize := h.size_eq
  have hwithin := h.within
  unfold shrink
  cases hst : t.st with
  | none =>
    simp [slot, hst]
  | some a =>
    simp only [size, hst, Option.getD_some] at hsize
    simp only [slot, hst, Option.getD_some]
    by_cases hlt : t.nstates < t.alloc
    · simp only [if_pos hlt, Option.getD_some, getD_eq_getElem?_getD, getElem?_take]
      split <;> rfl
    · rw [if_neg hlt]
      by_cases hj : j < t.nstates
      · rw [if_neg (by omega), if_pos hj, Option.getD_some]
      · rw [if_neg hj]
        refine getD_eq_default _ _ ?_
        split
        · exact Nat.zero_le j
        · rw [Option.getD_some]
          omega

theorem off_prepared (t : StateTable) (nr : Int) : (t.prepared nr).off = (newOffset t (-nr).toNat).off := by
  unfold prepared makeRoom
  dsimp only
  split <;> rfl

/-- A call enters the name where the slot of its number is NULL, and ends the
program elsewhere. -/
theorem enterIPstate_cases (t : StateTable) (hnm : nm ≠ []) (nr : Int) :
    (∃ e, enterIPstate t (some nm) nr = .error e ∧ (t.prepared nr).slot ((t.prepared nr).place nr) ≠ .null) ∨
    ((t.prepared nr).slot ((t.prepared nr).place nr) = .null ∧
      enterIPstate t (some nm) nr = .ok ((t.prepared nr).put ((t.prepared nr).place nr) nm)) := by
  have hup : (if nr < 0 then newOffset t (-nr).toNat else t) = newOffset t (-nr).toNat := by
    split
    · rfl
    · rw [newOffset, if_neg (by omega)]
  have hlength : ¬nm.length < 1 := by
    have := length_pos_of_ne_nil hnm
    omega
  have hslots : (t.prepared nr).slot ((t.prepared nr).place nr) =
      ((makeRoom (newOffset t (-nr).toNat) ((nr + (newOffset t (-nr).toNat).off).toNat + 1)).st.getD []).getD
        (nr + (newOffset t (-nr).toNat).off).toNat .unset := by
    rw [place, off_prepared]
    rfl
  simp only [enterIPstate, if_neg hlength, hup]
  cases hslot : (t.prepared nr).slot ((t.prepared nr).place nr) with
  | unset =>
    rw [← hslots, hslot]
    exact .inl ⟨_, rfl, by simp⟩
  | null =>
    rw [← hslots, hslot, place, off_prepared]
    exact .inr ⟨rfl, rfl⟩
  | name already =>
    rw [← hslots, hslot]
    exact .inl ⟨_, rfl, by simp⟩

variable {entered : List (Text × Int)} {cleared : Bool}

/-- The names in a table that has each in the slot of its number, and in no other.
The slots from `nstates` on are NULL, or as the allocator left them. -/
structure Holds (t : StateTable) (cleared : Bool) (entered : List (Text × Int)) : Prop where
  sized : t.Sized
  table : entered ≠ [] → t.st.isSome
  above : ∀ e ∈ entered, 0 ≤ e.2 + t.off
  place_lt : ∀ e ∈ entered, t.place e.2 < t.nstates
  slots : ∀ e ∈ entered, t.slot (t.place e.2) = .name e.1
  named : ∀ i name, t.slot i = .name name → ∃ e ∈ entered, i = t.place e.2
  gaps : ∀ i < t.nstates, t.slot i ≠ .unset
  rest : ∀ i, t.nstates ≤ i → i < t.alloc → t.slot i = if cleared then .null else .unset

theorem named_of_makeRoom (h : t.Sized) {nn i : Nat} {name : Text} (hslot : (makeRoom t nn).slot i = .name name) :
    t.slot i = .name name := by
  rw [slot_makeRoom h] at hslot
  split_ifs at hslot
  exact hslot

theorem off_makeRoom (t : StateTable) (nn : Nat) : (makeRoom t nn).off = t.off := by
  rw [makeRoom]
  split <;> rfl

theorem Holds.newOffset (h : t.Holds cleared entered) (hne : entered ≠ []) {off : Nat} (hlt : t.off < off)
    (hall : t.nstates ≤ off - t.off) (hroom : t.alloc ≤ t.nstates + (off - t.off)) :
    Moved t (newOffset t off) (off - t.off) ∧ (newOffset t off).Holds false entered := by
  obtain ⟨hle, -⟩ | ⟨-, hstill, -⟩ | ⟨-, -, -, hmoved⟩ := newOffset_cases h.sized off
  · omega
  · exact absurd ⟨h.table hne, hroom⟩ hstill
  · have hplace : ∀ e ∈ entered, (Original.newOffset t off).place e.2 = t.place e.2 + (off - t.off) := by
      intro e he
      have := h.above e he
      rw [place, place, hmoved.off_eq]
      omega
    have hpast : ∀ i, t.nstates + (off - t.off) ≤ i → t.slot i = .unset := fun i hi =>
      slot_of_size_le (h.sized.size_eq.trans_le (by omega))
    refine ⟨hmoved, h.sized.newOffset off, fun _ => hmoved.table, fun e he => ?_, fun e he => ?_, fun e he => ?_,
      fun i name hslot => ?_, fun i hi hslot => ?_, fun i hi _ => ?_⟩
    · have := h.above e he
      rw [hmoved.off_eq]
      omega
    · have := h.place_lt e he
      rw [hplace e he, hmoved.nstates_eq]
      omega
    · have := h.place_lt e he
      rw [hmoved.slot_eq, hplace e he, if_neg (by omega), if_pos (by omega), Nat.add_sub_cancel]
      exact h.slots e he
    · rw [hmoved.slot_eq] at hslot
      split_ifs at hslot
      · obtain ⟨e, he, hi⟩ := h.named _ name hslot
        exact ⟨e, he, by rw [hplace e he]; omega⟩
      · rw [hpast i (by omega)] at hslot
        cases hslot
    · rw [hmoved.nstates_eq] at hi
      rw [hmoved.slot_eq] at hslot
      split_ifs at hslot
      · exact h.gaps _ (by omega) hslot
      · omega
    · rw [hmoved.nstates_eq] at hi
      rw [hmoved.slot_eq, if_neg (by omega), if_neg (by omega)]
      exact hpast i hi

theorem Holds.enter (h : t.Holds cleared entered) (nm : Text) (habove : 0 ≤ nr + t.off)
    (hnew : ∀ e ∈ entered, e.2 ≠ nr) (hknown : t.place nr < t.nstates ∨ cleared ∨ t.alloc ≤ t.place nr) :
    (makeRoom t (t.place nr + 1)).slot (t.place nr) = .null ∧
      ((makeRoom t (t.place nr + 1)).put (t.place nr) nm).Holds (cleared || decide (t.alloc ≤ t.place nr))
        (entered ++ [(nm, nr)]) := by
  have hwithin := h.sized.within
  have hsized := h.sized.makeRoom (t.place nr + 1)
  have hoff := off_makeRoom t (t.place nr + 1)
  have hnstates := nstates_makeRoom h.sized (t.place nr + 1)
  have hsize := lt_size_makeRoom h.sized (t.place nr)
  have hslot := slot_makeRoom h.sized (t.place nr + 1)
  have henough := allocFor_enough (t.place nr + 1) t.alloc
  have hother : ∀ e ∈ entered, t.place e.2 ≠ t.place nr := by
    intro e he
    have := hnew e he
    have := h.above e he
    simp only [place]
    omega
  have hplaces : ∀ m, ((makeRoom t (t.place nr + 1)).put (t.place nr) nm).place m = t.place m := by
    intro m
    change (m + ((makeRoom t (t.place nr + 1)).off : Int)).toNat = _
    rw [hoff, place]
  have hnull : (makeRoom t (t.place nr + 1)).slot (t.place nr) = .null := by
    rw [hslot]
    split_ifs with hfresh
    · rfl
    · by_cases huse : t.place nr < t.nstates
      · cases hi : t.slot (t.place nr) with
        | unset => exact absurd hi (h.gaps _ huse)
        | null => rfl
        | name already =>
          obtain ⟨e, he, hsame⟩ := h.named _ already hi
          exact absurd hsame.symm (hother e he)
      · obtain hlt | hcleared | hle := hknown
        · exact absurd hlt huse
        · rw [h.rest _ (by omega) (by omega), if_pos hcleared]
        · omega
  refine ⟨hnull, hsized.put _, fun _ => ?_, forall_mem_append.mpr ⟨fun e he => ?_, ?_⟩,
    forall_mem_append.mpr ⟨fun e he => ?_, ?_⟩, forall_mem_append.mpr ⟨fun e he => ?_, ?_⟩,
    fun i name hi => ?_, fun i hi hunset => ?_, fun i hi hlt => ?_⟩
  · cases hst : (makeRoom t (t.place nr + 1)).st with
    | none => simp [size, hst] at hsize
    | some a => simp [StateTable.put, hst]
  · exact hoff ▸ h.above e he
  · exact forall_mem_singleton.mpr (hoff ▸ habove)
  · have := h.place_lt e he
    rw [hplaces]
    exact hnstates ▸ Nat.lt_of_lt_of_le this (Nat.le_max_left _ _)
  · refine forall_mem_singleton.mpr ?_
    rw [hplaces]
    exact hnstates ▸ Nat.lt_of_lt_of_le (Nat.lt_succ_self _) (Nat.le_max_right _ _)
  · have := h.place_lt e he
    rw [slot_put hsize, hplaces, if_neg (hother e he), hslot, if_neg (by omega)]
    exact h.slots e he
  · refine forall_mem_singleton.mpr ?_
    rw [slot_put hsize, hplaces, if_pos rfl]
  · rw [slot_put hsize] at hi
    split_ifs at hi with hhere
    · exact ⟨(nm, nr), by simp, hhere.trans (hplaces nr).symm⟩
    · obtain ⟨e, he, hplace⟩ := h.named i name (named_of_makeRoom h.sized hi)
      exact ⟨e, mem_append_left _ he, hplace.trans (hplaces e.2).symm⟩
  · change i < (makeRoom t (t.place nr + 1)).nstates at hi
    rw [slot_put hsize, hslot] at hunset
    split_ifs at hunset with hhere hfresh
    by_cases huse : i < t.nstates
    · exact h.gaps i huse hunset
    -- Past all in use, and not past the new number's slot: the slots were known.
    · obtain hlt | hcleared | hle := hknown
      · omega
      · rw [h.rest i (by omega) (by omega), if_pos hcleared] at hunset
        cases hunset
      · omega
  · change (makeRoom t (t.place nr + 1)).nstates ≤ i at hi
    rw [slot_put hsize, hslot, if_neg (by omega)]
    by_cases hgrows : t.alloc ≤ t.place nr
    · have hal : ((makeRoom t (t.place nr + 1)).put (t.place nr) nm).alloc = allocFor (t.place nr + 1) t.alloc := by
        rw [StateTable.put, makeRoom, if_pos (by omega)]
      rw [if_pos (by omega), if_pos (by simp [hgrows])]
    · have hal : ((makeRoom t (t.place nr + 1)).put (t.place nr) nm).alloc = t.alloc := by
        rw [StateTable.put, makeRoom, if_neg (by omega)]
      rw [if_neg (by omega), h.rest i (by omega) (by omega)]
      simp [hgrows]

/-- What some numbers leave: the offset, the slots in use, those allocated, and
whether the ones past those in use are NULL. -/
structure Numbering where
  off : Nat
  nstates : Nat
  alloc : Nat
  cleared : Bool
  deriving DecidableEq, Repr

def Numbering.first (nr : Int) : Numbering := ⟨(-nr).toNat, nr.toNat + 1, allocFor (nr.toNat + 1) 0, true⟩

/-- One more number. One that needs a larger offset is well where all slots in use
are moved; one past the slots in use, where those are NULL or the table grows. -/
def Numbering.next (n : Numbering) (nr : Int) : Option Numbering :=
  let oc := (-nr).toNat - n.off
  let i := (nr + n.off).toNat
  if 0 < oc then
    if n.nstates ≤ oc ∧ n.alloc ≤ n.nstates + oc then
      some ⟨(-nr).toNat, n.nstates + oc, allocFor (n.nstates + oc) n.alloc, false⟩
    else none
  else if i < n.nstates ∨ n.cleared ∨ n.alloc ≤ i then
    some ⟨n.off, max n.nstates (i + 1), if n.alloc ≤ i then allocFor (i + 1) n.alloc else n.alloc,
      n.cleared || decide (n.alloc ≤ i)⟩
  else none

/-- The orders in which numbers can be entered. -/
def orderly : List Int → Bool
  | [] => true
  | nr :: rest => (rest.foldlM Numbering.next (.first nr)).isSome

def numbering (t : StateTable) (cleared : Bool) : Numbering := ⟨t.off, t.nstates, t.alloc, cleared⟩

def InPlace (t : StateTable) (entered : List (Text × Int)) : Prop :=
  ∀ e ∈ entered, 0 ≤ e.2 + t.off ∧ t.slot (t.place e.2) = .name e.1

theorem Holds.inPlace_shrink (h : t.Holds cleared entered) : (shrink t).InPlace entered := by
  have hoff : (shrink t).off = t.off := by
    unfold shrink
    split <;> rfl
  intro e he
  rw [place, hoff, slot_shrink h.sized]
  exact ⟨h.above e he, (if_pos (h.place_lt e he)).trans (h.slots e he)⟩

theorem numbering_put (h : t.Sized) (i : Nat) (nm : Text) (cleared : Bool) :
    ((makeRoom t (i + 1)).put i nm).numbering cleared =
      ⟨t.off, max t.nstates (i + 1), if t.alloc ≤ i then allocFor (i + 1) t.alloc else t.alloc, cleared⟩ := by
  have hwithin := h.within
  rw [numbering, put, makeRoom]
  by_cases hgrows : t.alloc ≤ i
  · rw [if_pos (by omega), if_pos hgrows]
    dsimp only
    rw [Nat.max_eq_right (by omega)]
  · rw [if_neg (by omega), if_neg hgrows]

theorem enter_of_holds (hsized : t.Sized) (hnm : nm ≠ []) (hnew : ∀ e ∈ entered, e.2 ≠ nr) {up : StateTable}
    (hup : newOffset t (-nr).toNat = up) (h : up.Holds cleared entered)
    (hknown : up.place nr < up.nstates ∨ cleared ∨ up.alloc ≤ up.place nr) :
    enterIPstate t (some nm) nr = .ok ((makeRoom up (up.place nr + 1)).put (up.place nr) nm) ∧
      ((makeRoom up (up.place nr + 1)).put (up.place nr) nm).Holds (cleared || decide (up.alloc ≤ up.place nr))
        (entered ++ [(nm, nr)]) := by
  have hoff := off_newOffset hsized (-nr).toNat
  rw [hup] at hoff
  obtain ⟨hnull, hput⟩ := h.enter nm (by omega) hnew hknown
  have hprepared : t.prepared nr = makeRoom up (up.place nr + 1) := by rw [prepared, hup, place]
  have hplace : (makeRoom up (up.place nr + 1)).place nr = up.place nr := by rw [place, off_makeRoom, place]
  have hcall := enterIPstate_cases t hnm nr
  rw [hprepared, hplace, hnull] at hcall
  obtain ⟨_, -, hne⟩ | ⟨-, hok⟩ := hcall
  · exact absurd rfl hne
  · exact ⟨hok, hput⟩

theorem holds_first (hnm : nm ≠ []) (nr : Int) :
    ∃ t, enterIPstate {} (some nm) nr = .ok t ∧ t.numbering true = .first nr ∧ t.Holds true [(nm, nr)] := by
  have hsized : Sized {} := ⟨rfl, Nat.le_refl 0⟩
  have hup : newOffset {} (-nr).toNat = { off := (-nr).toNat } := by
    obtain ⟨hle, heq⟩ | ⟨-, -, heq⟩ | ⟨-, htable, -⟩ := newOffset_cases hsized (-nr).toNat
    · rw [heq, Nat.eq_zero_of_le_zero hle]
    · exact heq
    · cases htable
  have hempty : Holds { off := (-nr).toNat } true [] :=
    ⟨⟨rfl, Nat.le_refl 0⟩, fun hne => absurd rfl hne, forall_mem_nil _, forall_mem_nil _, forall_mem_nil _,
      fun _ _ hname => absurd hname nofun, fun _ hlt => absurd hlt (Nat.not_lt_zero _),
      fun _ _ hlt => absurd hlt (Nat.not_lt_zero _)⟩
  obtain ⟨hok, hholds⟩ := enter_of_holds hsized hnm (forall_mem_nil _) hup hempty (.inr (.inl rfl))
  refine ⟨_, hok, (numbering_put hempty.sized _ _ _).trans ?_, hholds⟩
  have hi : place { off := (-nr).toNat } nr = nr.toNat := by
    show (nr + ((-nr).toNat : Int)).toNat = nr.toNat
    omega
  rw [hi, if_pos (Nat.zero_le _), Nat.zero_max]
  rfl

theorem holds_next (h : t.Holds cleared entered) (hne : entered ≠ []) (hnm : nm ≠ [])
    (hnew : ∀ e ∈ entered, e.2 ≠ nr) {n : Numbering} (hn : (t.numbering cleared).next nr = some n) :
    ∃ t' cleared', enterIPstate t (some nm) nr = .ok t' ∧ t'.numbering cleared' = n ∧
      t'.Holds cleared' (entered ++ [(nm, nr)]) := by
  simp only [Numbering.next] at hn
  by_cases hmore : 0 < (-nr).toNat - (t.numbering cleared).off
  · rw [if_pos hmore] at hn
    split_ifs at hn with hall
    dsimp only [numbering] at hmore hall hn
    obtain ⟨hmoved, hholds⟩ := h.newOffset hne (by omega) hall.1 hall.2
    have hplace : (newOffset t (-nr).toNat).place nr = 0 := by
      rw [place, hmoved.off_eq]
      omega
    have henough := allocFor_enough (t.nstates + ((-nr).toNat - t.off)) t.alloc
    have hstates := hmoved.nstates_eq
    have halloc := hmoved.alloc_eq
    obtain ⟨hok, hput⟩ := enter_of_holds h.sized hnm hnew rfl hholds (.inl (by omega))
    refine ⟨_, _, hok, ?_, hput⟩
    rw [numbering_put hholds.sized, hplace, if_neg (by omega), hstates, halloc, hmoved.off_eq, ← Option.some.inj hn,
      Nat.max_eq_left (by omega), decide_eq_false (by omega)]
    simp only [Bool.or_false, Numbering.mk.injEq, and_true]
    omega
  · rw [if_neg hmore] at hn
    by_cases hknown : t.place nr < t.nstates ∨ cleared ∨ t.alloc ≤ t.place nr
    · have hup : newOffset t (-nr).toNat = t := by
        rw [newOffset, if_neg (show ¬t.off < (-nr).toNat from fun hlt => hmore (Nat.sub_pos_of_lt hlt))]
      obtain ⟨hok, hput⟩ := enter_of_holds h.sized hnm hnew hup h hknown
      exact ⟨_, _, hok, (numbering_put h.sized _ _ _).trans (Option.some.inj ((if_pos hknown).symm.trans hn)), hput⟩
    · cases (if_neg hknown).symm.trans hn

def calls (states : List (Text × Int)) : List (Option Text × Int) := states.map fun s => (some s.1, s.2)

theorem enterIPstates_cons (t : StateTable) (s : Text × Int) (rest : List (Text × Int)) :
    enterIPstates t (calls (s :: rest) ++ [(none, 0)]) =
      (enterIPstate t (some s.1) s.2).bind fun t' => enterIPstates t' (calls rest ++ [(none, 0)]) := rfl

theorem new_of_nodup {s : Text × Int} {rest : List (Text × Int)}
    (h : ((entered ++ s :: rest).map Prod.snd).Nodup) : ∀ e ∈ entered, e.2 ≠ s.2 := by
  intro e he
  rw [map_append, nodup_append] at h
  exact h.2.2 e.2 (mem_map_of_mem he) s.2 (mem_map_of_mem mem_cons_self)

theorem inPlace_of_numbering {rest : List (Text × Int)} (hnames : ∀ s ∈ rest, s.1 ≠ [])
    (hdistinct : ((entered ++ rest).map Prod.snd).Nodup) (h : t.Holds cleared entered) (hne : entered ≠ [])
    (hn : ((rest.map Prod.snd).foldlM Numbering.next (t.numbering cleared)).isSome) :
    ∃ t', enterIPstates t (calls rest ++ [(none, 0)]) = .ok t' ∧ t'.InPlace (entered ++ rest) := by
  induction rest generalizing t entered cleared with
  | nil =>
    rw [append_nil]
    exact ⟨_, rfl, h.inPlace_shrink⟩
  | cons s rest ih =>
    rw [map_cons, foldlM_cons] at hn
    rw [enterIPstates_cons, append_cons entered]
    cases hnext : (t.numbering cleared).next s.2 with
    | none =>
      rw [hnext] at hn
      cases hn
    | some n =>
      obtain ⟨next, cleared', hcall, rfl, hholds⟩ := holds_next h hne (hnames s mem_cons_self)
        (new_of_nodup hdistinct) hnext
      rw [hnext] at hn
      rw [append_cons] at hdistinct
      rw [hcall]
      exact ih (fun s hs => hnames s (mem_cons_of_mem _ hs)) hdistinct hholds (by simp) hn

theorem sized_enterIPstates {before : List (Text × Int)} (hnames : ∀ s ∈ before, s.1 ≠ []) (h : t.Sized)
    (hok : enterIPstates t (calls before) = .ok t') : t'.Sized := by
  induction before generalizing t with
  | nil => exact Except.ok.inj hok ▸ h
  | cons s before ih =>
    change (enterIPstate t (some s.1) s.2).bind (enterIPstates · (calls before)) = .ok t' at hok
    obtain ⟨_, hcall, -⟩ | ⟨-, hcall⟩ := enterIPstate_cases t (hnames s mem_cons_self) s.2
    · rw [hcall] at hok
      cases hok
    · rw [hcall] at hok
      exact ih (fun s hs => hnames s (mem_cons_of_mem _ hs)) (((h.newOffset _).makeRoom _).put _) hok

theorem lt_of_mem_touched (h : t.Sized) (nr : Int) : ∀ access ∈ t.touched nr, access.1 < access.2 := by
  intro access haccess
  have hup := h.newOffset (-nr).toNat
  have hroom := hup.makeRoom ((nr + (newOffset t (-nr).toNat).off).toNat + 1)
  obtain hfirst | hlast := mem_append.mp haccess
  · obtain hmove | hclear := mem_append.mp hfirst
    · split_ifs at hmove with hmoves
      · obtain ⟨htable, hmore, halloc⟩ := hmoves
        rw [off_newOffset h] at hmore halloc hmove
        obtain ⟨hle, -⟩ | ⟨-, hstill, -⟩ | ⟨hlt, -, -, hmoved⟩ := newOffset_cases h (-nr).toNat
        · omega
        · exact absurd ⟨htable, by omega⟩ hstill
        · have henough := allocFor_enough (t.nstates + ((-nr).toNat - t.off)) t.alloc
          have hsize := hmoved.size_eq.trans hmoved.alloc_eq
          obtain ⟨i, hi, hmem⟩ := mem_flatMap.mp hmove
          obtain ⟨j, hj, rfl⟩ := mem_map.mp hmem
          have hbound : j < t.nstates + ((-nr).toNat - t.off) := by
            have := mem_range.mp hi
            split_ifs at hj <;> simp at hj <;> omega
          dsimp only
          omega
      · cases hmove
    · split_ifs at hclear
      · obtain ⟨j, hj, rfl⟩ := mem_map.mp hclear
        have hbound := (mem_range'_1.mp hj).2
        have := hroom.size_eq
        have := hroom.within
        have := nstates_makeRoom hup ((nr + (newOffset t (-nr).toNat).off).toNat + 1)
        dsimp only at hbound ⊢
        omega
      · cases hclear
  · rw [mem_singleton.mp hlast]
    exact lt_size_makeRoom hup _

end StateTable

end Lsof.Original
