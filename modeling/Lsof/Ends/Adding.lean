import Lsof.Ends.Marks

/-! # `+E` adds rows and takes none

One pass over the marks puts an entry's named rows into the rows it has listed,
or the entry itself among the listed entries. What is listed in the end is every
selected row and every named one, and in the gathered order where that is by
PID, task and descriptor.
-/

namespace Lsof.Ends

open Lsof.Basis Lsof.Core List

variable {host : Host} {index : Index}

/-- The second row's descriptor number is above the first's; none is below any. -/
def numberedAbove (f g : OpenFile) : Bool :=
  match fdNumber g.fd, fdNumber f.fd with
  | some m, some n => decide (n < m)
  | some _, none => true
  | none, _ => false

theorem insertRow_eq_place (files : List OpenFile) (f : OpenFile) :
    insertRow files f = place (numberedAbove f) files f :=
  insertIdx_findIdx? (numberedAbove f) files f

theorem foldl_insertRow (files added : List OpenFile) :
    added.foldl insertRow files = placeAll numberedAbove files added := by
  unfold placeAll
  congr 1
  funext files f
  exact insertRow_eq_place files f

def sameSlot (c p : Process) : Bool := p.pid == c.pid && p.tid == c.tid

theorem mergeEntry_found {before after : List Process} {p c : Process}
    (hbefore : ∀ q ∈ before, sameSlot c q = false) (hp : sameSlot c p = true) :
    mergeEntry (before ++ p :: after) c = before ++ withRows p (placeAll numberedAbove p.files c.files) :: after := by
  have hfind : (before ++ p :: after).findIdx? (sameSlot c) = some before.length := by
    rw [findIdx?_append, findIdx?_eq_none_iff.mpr hbefore, findIdx?_cons, if_pos hp]
    simp
  have hmatch : mergeEntry (before ++ p :: after) c = (before ++ p :: after).modify before.length
      (fun p => { p with files := c.files.foldl insertRow p.files }) := by
    unfold sameSlot at hfind
    rw [mergeEntry, hfind]
  rw [hmatch, modify_eq_take_cons_drop (by simp)]
  simp [foldl_insertRow, withRows]

theorem mergeEntry_fresh {out : List Process} {c : Process} (hfresh : ∀ p ∈ out, sameSlot c p = false) :
    mergeEntry out c = place (fun p => entryAfter p c) out c := by
  have hfind : out.findIdx? (sameSlot c) = none := findIdx?_eq_none_iff.mpr hfresh
  unfold sameSlot at hfind
  rw [mergeEntry, hfind]
  exact insertIdx_findIdx? _ out c

theorem mergeEntry_cases (out : List Process) (c : Process) :
    (∃ before p after, out = before ++ p :: after ∧ sameSlot c p = true ∧ mergeEntry out c =
        before ++ withRows p (placeAll numberedAbove p.files c.files) :: after) ∨
    mergeEntry out c = place (fun p => entryAfter p c) out c := by
  cases hfind : out.find? (sameSlot c) with
  | none => exact Or.inr (mergeEntry_fresh (by simpa using hfind))
  | some p =>
    obtain ⟨hp, before, after, hout, hbefore⟩ := find?_eq_some_iff_append.mp hfind
    subst hout
    exact Or.inl ⟨before, p, after, rfl, hp, mergeEntry_found (by simpa using hbefore) hp⟩

def rowsOf (out : List Process) : List (Process × OpenFile) :=
  out.flatMap (fun p => p.files.map (fun f => (p.header, f)))

@[simp] theorem rowsOf_append (out out' : List Process) :
    rowsOf (out ++ out') = rowsOf out ++ rowsOf out' := flatMap_append

@[simp] theorem rowsOf_cons (p : Process) (out : List Process) :
    rowsOf (p :: out) = p.files.map (fun f => (p.header, f)) ++ rowsOf out := rfl

theorem mergeEntry_rows_perm {out : List Process} {c : Process}
    (hsame : ∀ p ∈ out, sameSlot c p = true → p.header = c.header) :
    (rowsOf (mergeEntry out c)).Perm (rowsOf out ++ c.files.map (fun f => (c.header, f))) := by
  obtain ⟨before, p, after, rfl, hp, heq⟩ | heq := mergeEntry_cases out c
  · have hheader := hsame p (by simp) hp
    rw [heq, rowsOf_append, rowsOf_append, rowsOf_cons, rowsOf_cons, append_assoc]
    refine List.Perm.append_left _ ?_
    have hfiles := (placeAll_perm numberedAbove p.files c.files).map (fun f => (p.header, f))
    rw [map_append] at hfiles
    refine (hfiles.append_right _).trans ?_
    rw [hheader, append_assoc, append_assoc]
    exact List.Perm.append_left _ perm_append_comm
  · rw [heq]
    refine ((place_perm _ out c).flatMap_right _).trans ?_
    exact perm_append_comm

theorem rowsOf_sublist_mergeEntry (out : List Process) (c : Process) :
    (rowsOf out).Sublist (rowsOf (mergeEntry out c)) := by
  obtain ⟨before, p, after, rfl, hp, heq⟩ | heq := mergeEntry_cases out c
  · rw [heq, rowsOf_append, rowsOf_append, rowsOf_cons, rowsOf_cons]
    refine (List.Sublist.refl _).append (List.Sublist.append ?_ (List.Sublist.refl _))
    exact (sublist_placeAll numberedAbove p.files c.files).map _
  · rw [heq]
    exact (sublist_place _ out c).flatMap _

theorem header_of_mem_mergeEntry {out : List Process} {c q : Process} (hq : q ∈ mergeEntry out c) :
    q.header = c.header ∨ ∃ p ∈ out, q.header = p.header := by
  obtain ⟨before, p, after, rfl, hp, heq⟩ | heq := mergeEntry_cases out c
  · rw [heq, mem_append, mem_cons] at hq
    rcases hq with hq | hq | hq
    · exact Or.inr ⟨q, by simp [hq], rfl⟩
    · exact Or.inr ⟨p, by simp, hq ▸ rfl⟩
    · exact Or.inr ⟨q, by simp [hq], rfl⟩
  · rw [heq, (place_perm _ out c).mem_iff, mem_cons] at hq
    rcases hq with hq | hq
    · exact Or.inl (hq ▸ rfl)
    · exact Or.inr ⟨q, hq, rfl⟩

section Run

variable {named : List RowKey}

def Marked.addedRows (host : Host) (index : Index) (named : List RowKey) (m : Marked) :
    List (Process × OpenFile) :=
  (m.added host index named).map (fun f => (m.entry.header, f))

theorem addEntry_rows_perm {m : Marked} {out : List Process}
    (hsame : ∀ p ∈ out, sameSlot m.entry p = true → p.header = m.entry.header) :
    (rowsOf (m.addEntry host index named out)).Perm (rowsOf out ++ m.addedRows host index named) := by
  unfold Marked.addEntry Marked.addedRows
  split
  case isTrue hnone => simp [List.isEmpty_iff.mp hnone]
  case isFalse =>
    exact @mergeEntry_rows_perm out (withRows m.entry (m.added host index named)) hsame

variable {m : Marked}

theorem header_of_mem_addEntry {out : List Process} {q : Process} (hq : q ∈ m.addEntry host index named out) :
    q.header = m.entry.header ∨ ∃ p ∈ out, q.header = p.header := by
  unfold Marked.addEntry at hq
  split at hq
  case isTrue => exact Or.inr ⟨q, hq, rfl⟩
  case isFalse =>
    have hmerged := header_of_mem_mergeEntry hq
    exact hmerged

theorem slot_of_header {p q : Process} (h : q.header = p.header) : q.pid = p.pid ∧ q.tid = p.tid := by
  have hpid := congrArg Process.pid h
  have htid := congrArg Process.tid h
  exact ⟨hpid, htid⟩

theorem foldl_addEntry_perm {marks : List Marked} (hslot : (marks.map Marked.slot).Nodup) {out : List Process}
    (hsame : ∀ m ∈ marks, ∀ p ∈ out, sameSlot m.entry p = true → p.header = m.entry.header) :
    (rowsOf (marks.foldl (fun out m => m.addEntry host index named out) out)).Perm
      (rowsOf out ++ marks.flatMap (Marked.addedRows host index named)) := by
  induction marks generalizing out with
  | nil => simp
  | cons m marks ih =>
    rw [map_cons, nodup_cons] at hslot
    have hstep := @addEntry_rows_perm host index named m out (hsame m (mem_cons_self ..))
    have hrest := @ih hslot.2 (m.addEntry host index named out) ?_
    · refine hrest.trans ?_
      rw [flatMap_cons, ← append_assoc]
      exact hstep.append_right _
    · intro m' hm' q hq hslot'
      rcases header_of_mem_addEntry hq with hm | ⟨p, hp, hqp⟩
      · -- two marks never share a PID and task
        obtain ⟨hpid, htid⟩ := slot_of_header hm
        simp only [sameSlot, Bool.and_eq_true, beq_iff_eq, hpid, htid] at hslot'
        exact absurd (mem_map.mpr ⟨m', hm', Prod.ext hslot'.1.symm hslot'.2.symm⟩) hslot.1
      · obtain ⟨hpid, htid⟩ := slot_of_header hqp
        rw [sameSlot, hpid, htid] at hslot'
        exact hqp.trans (hsame m' (mem_cons_of_mem m hm') p hp hslot')

theorem rowsOf_sublist_foldl (marks : List Marked) (out : List Process) :
    (rowsOf out).Sublist (rowsOf (marks.foldl (fun out m => m.addEntry host index named out) out)) := by
  induction marks generalizing out with
  | nil => exact List.Sublist.refl _
  | cons m marks ih =>
    refine List.Sublist.trans ?_ (ih _)
    show (rowsOf out).Sublist (rowsOf (m.addEntry host index named out))
    unfold Marked.addEntry
    split
    case isTrue => exact List.Sublist.refl _
    case isFalse => exact rowsOf_sublist_mergeEntry _ _

theorem rowsOf_filterMap_listing (marks : List Marked) (rows : Marked → List OpenFile) :
    rowsOf (marks.filterMap (fun m => m.listing (rows m))) =
      marks.flatMap (fun m => (rows m).map (fun f => (m.entry.header, f))) := by
  induction marks with
  | nil => rfl
  | cons m marks ih =>
    rw [flatMap_cons, ← ih]
    unfold Marked.listing
    rw [filterMap_cons]
    split
    case h_1 hnone =>
      have hnil : rows m = [] := by
        by_contra hne
        simp [hne] at hnone
      simp [hnil]
    case h_2 p hsome =>
      split at hsome
      · cases hsome
        rfl
      · cases hsome

theorem shownRow_or_addedRow (m : Marked) (row : OpenFile × Bool) :
    m.shownRow host index row = none ∨ m.addedRow host index named row = none := by
  unfold Marked.shownRow Marked.addedRow
  cases row.2 <;> simp

theorem outcome_rows_perm (marks : List Marked) :
    (rowsOf (marks.filterMap (Marked.outcome host index named))).Perm
      (rowsOf (marks.filterMap (Marked.shown host index)) ++ marks.flatMap (Marked.addedRows host index named)) := by
  have hout := rowsOf_filterMap_listing marks (fun m =>
    m.rows.filterMap (either (m.shownRow host index) (m.addedRow host index named)))
  have hshown := rowsOf_filterMap_listing marks (fun m => m.rows.filterMap (m.shownRow host index))
  refine (List.Perm.of_eq hout).trans ((?_ : List.Perm _ _).trans ((List.Perm.of_eq hshown.symm).append_right _))
  refine List.Perm.trans ?_ (flatMap_append_perm marks _ _).symm
  refine List.Perm.flatMap_left marks fun m _ => ?_
  rw [Marked.addedRows, Marked.added, ← map_append]
  exact (filterMap_either_perm fun row _ => shownRow_or_addedRow m row).map _

/-- The entries stand by PID, and by task number after the process itself. -/
def Ascending (marks : List Marked) : Prop :=
  marks.Pairwise (fun m n => entryAfter n.entry m.entry = true)

/-- About each end the rows stand by descriptor number: none before it is
numbered above it, and every one after it is. -/
def Marked.InOrder (index : Index) (m : Marked) : Prop :=
  m.rows.Pairwise (fun a b =>
    ((index.key m.entry a.1).isSome = true → numberedAbove a.1 b.1 = true) ∧
    ((index.key m.entry b.1).isSome = true → numberedAbove b.1 a.1 = false))

instance (marks : List Marked) : Decidable (Ascending marks) :=
  inferInstanceAs (Decidable (marks.Pairwise _))

instance (index : Index) (m : Marked) : Decidable (m.InOrder index) :=
  inferInstanceAs (Decidable (m.rows.Pairwise _))

theorem not_after_of_after {p q : Process} (h : entryAfter q p = true) :
    entryAfter p q = false ∧ sameSlot p q = false ∧ sameSlot q p = false := by
  unfold entryAfter at h ⊢
  unfold sameSlot
  cases hp : p.tid with
  | none =>
    cases hq : q.tid with
    | none =>
      simp only [hp, hq, Bool.and_false, Bool.or_false, decide_eq_true_eq] at h ⊢
      refine ⟨by simp; omega, by simp; omega, by simp; omega⟩
    | some t =>
      simp [hp, hq] at h ⊢
      omega
  | some s =>
    cases hq : q.tid with
    | none =>
      simp [hp, hq] at h ⊢
      omega
    | some t =>
      simp [hp, hq] at h ⊢
      omega

theorem numberedAbove_congr {f f' g g' : OpenFile} (hf : f.fd = f'.fd) (hg : g.fd = g'.fd) :
    numberedAbove f g = numberedAbove f' g' := by
  rw [numberedAbove, hf, hg, numberedAbove]

theorem fd_of_shownRow {row : OpenFile × Bool} {f : OpenFile}
    (h : m.shownRow host index row = some f) : f.fd = row.1.fd := by
  unfold Marked.shownRow at h
  split at h
  · exact Option.some.inj h ▸ annotateRow_fd _ _ _
  · cases h

theorem keyed_of_addedRow {row : OpenFile × Bool} {f : OpenFile} (h : m.addedRow host index named row = some f) :
    f.fd = row.1.fd ∧ (index.key m.entry row.1).isSome = true := by
  unfold Marked.addedRow at h
  split at h
  case isTrue hadd =>
    simp only [Marked.isNamed, Bool.and_eq_true] at hadd
    exact ⟨Option.some.inj h ▸ annotateRow_fd _ _ _, hadd.2.1⟩
  case isFalse => cases h

theorem placeAll_rows (hrows : m.InOrder index) :
    placeAll numberedAbove (m.rows.filterMap (m.shownRow host index)) (m.added host index named) =
      m.rows.filterMap (either (m.shownRow host index) (m.addedRow host index named)) := by
  refine @placeAll_merge _ numberedAbove _ (m.shownRow host index) (m.addedRow host index named)
    m.rows (fun row _ => shownRow_or_addedRow m row) ?_ [] (fun _ _ a ha => by simp at ha)
  refine List.Pairwise.imp (fun {a b} hab => ⟨fun x hx y hy => ?_, fun y hy x hx => ?_⟩) hrows
  · obtain ⟨hxfd, hkey⟩ := keyed_of_addedRow hx
    rw [numberedAbove_congr hxfd (fd_of_shownRow hy)]
    exact hab.1 hkey
  · obtain ⟨hyfd, hkey⟩ := keyed_of_addedRow hy
    have hxfd : x.fd = a.1.fd := by
      unfold either at hx
      cases hshown : m.shownRow host index a with
      | some f =>
        rw [hshown] at hx
        exact Option.some.inj hx ▸ fd_of_shownRow hshown
      | none =>
        rw [hshown] at hx
        exact (keyed_of_addedRow hx).1
    rw [numberedAbove_congr hyfd hxfd]
    exact hab.2 hkey

theorem Marked.listing_of_ne_nil (m : Marked) {files : List OpenFile} (h : files ≠ []) :
    m.listing files = some (withRows m.entry files) := by
  unfold Marked.listing
  rw [if_pos]
  simp [h]

theorem Marked.eq_nil_of_listing {files : List OpenFile} (h : m.listing files = none) : files = [] := by
  by_contra hne
  rw [m.listing_of_ne_nil hne] at h
  cases h

theorem outcome_of_added_nil (h : m.added host index named = []) :
    m.outcome host index named = m.shown host index := by
  unfold Marked.outcome Marked.shown
  congr 1
  refine filterMap_congr fun row hrow => ?_
  have hnone := filterMap_eq_nil_iff.mp h row hrow
  rw [either, hnone, Option.or_none]

theorem outcome_of_added (hrows : m.InOrder index) (h : m.added host index named ≠ []) :
    m.outcome host index named = some (withRows m.entry (placeAll numberedAbove
      (m.rows.filterMap (m.shownRow host index)) (m.added host index named))) := by
  unfold Marked.outcome
  rw [← placeAll_rows hrows]
  refine m.listing_of_ne_nil fun hnil => ?_
  have hperm := placeAll_perm numberedAbove (m.rows.filterMap (m.shownRow host index))
    (m.added host index named)
  rw [hnil, nil_perm, append_eq_nil_iff] at hperm
  exact h hperm.2

theorem addEntry_between (hrows : m.InOrder index) {before after : List Process}
    (hbefore : ∀ p ∈ before, entryAfter m.entry p = true) (hafter : ∀ p ∈ after, entryAfter p m.entry = true) :
    m.addEntry host index named (before ++ ((m.shown host index).toList ++ after)) =
      before ++ ((m.outcome host index named).toList ++ after) := by
  unfold Marked.addEntry
  by_cases hadded : m.added host index named = []
  · rw [outcome_of_added_nil hadded, hadded]
    rfl
  · have hslot : ∀ p ∈ before,
        sameSlot (withRows m.entry (m.added host index named)) p = false := fun p hp =>
      (not_after_of_after (hbefore p hp)).2.2
    rw [if_neg (by simpa using hadded), outcome_of_added hrows hadded]
    cases hshown : m.shown host index with
    | some p =>
      rw [Marked.listing_eq_some hshown]
      exact mergeEntry_found hslot (by simp [sameSlot, withRows])
    | none =>
      have hnil : m.rows.filterMap (m.shownRow host index) = [] := Marked.eq_nil_of_listing hshown
      have hfresh : ∀ p ∈ before ++ after,
          sameSlot (withRows m.entry (m.added host index named)) p = false := by
        intro p hp
        rcases mem_append.mp hp with hp | hp
        · exact hslot p hp
        · exact (not_after_of_after (hafter p hp)).2.1
      have hplace := @place_between _ (fun p => entryAfter p m.entry) before after
        (withRows m.entry (m.added host index named))
        (fun p hp => (not_after_of_after (hbefore p hp)).1) hafter
      have hrowsof : placeAll numberedAbove (m.rows.filterMap (m.shownRow host index))
          (m.added host index named) = m.added host index named := by
        rw [placeAll_rows hrows]
        refine filterMap_congr fun row hrow => ?_
        rw [either, filterMap_eq_nil_iff.mp hnil row hrow, Option.none_or]
      rw [hrowsof]
      exact (mergeEntry_fresh hfresh).trans hplace

theorem foldl_addEntry_ascending {marks : List Marked} (hmarks : Ascending marks)
    (hrows : ∀ m ∈ marks, m.InOrder index) {before : List Process}
    (hbefore : ∀ m ∈ marks, ∀ p ∈ before, entryAfter m.entry p = true) :
    marks.foldl (fun out m => m.addEntry host index named out) (before ++ marks.filterMap (Marked.shown host index)) =
      before ++ marks.filterMap (Marked.outcome host index named) := by
  induction marks generalizing before with
  | nil => rfl
  | cons m marks ih =>
    have hmarks' := pairwise_cons.mp hmarks
    have hcons : ∀ g : Marked → Option Process,
        (m :: marks).filterMap g = (g m).toList ++ marks.filterMap g := by
      intro g
      cases hg : g m <;> simp [hg]
    have hafter : ∀ p ∈ marks.filterMap (Marked.shown host index),
        entryAfter p m.entry = true := by
      intro p hp
      obtain ⟨n, hn, hnp⟩ := mem_filterMap.mp hp
      rw [Marked.listing_eq_some hnp]
      exact hmarks'.1 n hn
    rw [foldl_cons, hcons, hcons, addEntry_between (hrows m (mem_cons_self ..))
      (hbefore m (mem_cons_self ..)) hafter, ← append_assoc, ← append_assoc]
    refine @ih hmarks'.2 (fun n hn => hrows n (mem_cons_of_mem m hn)) _ fun n hn p hp => ?_
    rcases mem_append.mp hp with hp | hp
    · exact hbefore n (mem_cons_of_mem m hn) p hp
    · have hout : m.outcome host index named = some p := by simpa using hp
      rw [Marked.listing_eq_some hout]
      exact hmarks'.1 n hn

end Run

/-- NAME with the texts of the ends after it, each after a space. An addition in
plain text is put in printed form first. -/
def joinText (name text : Text) : Text := (if name.isEmpty then [] else name ++ [' ']) ++ text

def settledName (host : Host) (f : OpenFile) : Text :=
  match f.nameAddition with
  | some a =>
    if a.printed then f.name
    else match Text.splitAt? a.base f.name with
      | some (base, plain) => base ++ (Escaper.forHost host).text plain
      | none => f.name
  | none => f.name

def endName (host : Host) (f : OpenFile) : List Text → Text
  | [] => f.name
  | texts => texts.foldl joinText (settledName host f)

theorem name_addPrintedAddition (f : OpenFile) (text : Text) :
    (f.addPrintedAddition host text).name = joinText (settledName host f) text := by
  unfold OpenFile.addPrintedAddition settledName
  dsimp only
  cases hadd : f.nameAddition with
  | none => rfl
  | some a =>
    cases hp : a.printed with
    | true => simp [hp, OpenFile.pushAddition, joinText]
    | false =>
      cases hs : Text.splitAt? a.base f.name <;>
        simp [hp, hs, OpenFile.pushAddition, joinText]

theorem settledName_addPrintedAddition (f : OpenFile) (text : Text) :
    settledName host (f.addPrintedAddition host text) = (f.addPrintedAddition host text).name := by
  have hprinted : ∀ base a, NameAddition.at? base true = some a → a.printed = true := by
    intro base a ha
    unfold NameAddition.at? at ha
    split at ha
    · cases ha
      rfl
    · cases ha
  unfold settledName
  cases hadd : (f.addPrintedAddition host text).nameAddition with
  | none => rfl
  | some a =>
    unfold OpenFile.addPrintedAddition OpenFile.pushAddition at hadd
    have := hprinted _ a hadd
    simp only [this, if_true]

theorem name_addPieces (f : OpenFile) (pieces : List Index.Piece) :
    (addPieces host f pieces).name = endName host f (pieces.map Index.Piece.text) := by
  have hrun : ∀ (pieces : List Index.Piece) (f : OpenFile), settledName host f = f.name →
      (addPieces host f pieces).name = (pieces.map Index.Piece.text).foldl joinText f.name := by
    intro pieces
    induction pieces with
    | nil => exact fun _ _ => rfl
    | cons piece pieces ih =>
      intro f hf
      have hrest := ih _ (settledName_addPrintedAddition f piece.text)
      rw [name_addPrintedAddition, hf] at hrest
      exact hrest
  cases pieces with
  | nil => rfl
  | cons piece pieces =>
    have hrest := hrun pieces _ (@settledName_addPrintedAddition host f piece.text)
    rw [name_addPrintedAddition] at hrest
    exact hrest

theorem annotateRow_eq (p : Process) (forced : Bool) (f : OpenFile) :
    ∃ addition, (index.ends p.header f forced = [] → addition = f.nameAddition) ∧
      annotateRow host index p forced f =
        { f with
          name := endName host f ((index.ends p.header f forced).map Index.Piece.text)
          nameAddition := addition } := by
  have h := eq_named_of_unnamed (addPieces_unnamed host f (index.ends p.header f forced))
  rw [name_addPieces] at h
  refine ⟨_, fun hnone => ?_, h⟩
  rw [hnone]
  rfl

/-- Over a gathered list whose entries differ in PID or task, and where no other
row has an end's FD, what is listed is every selected row and every named one,
once each, with the selected rows in their order; where the entries and the
rows about each end stand by number, it is in the gathered order throughout. -/
theorem annotate_rows (host : Host) (width : CommandWidth) (tables : EndpointTables)
    (mqueueDevice : Option (BitVec 64)) (marks : List Marked) (hslot : (marks.map Marked.slot).Nodup)
    (hunshared : ∀ m ∈ marks, m.Unshared
      (Index.buildWith host width (marks.map Marked.gathered) tables mqueueDevice)) :
    let procs := marks.map Marked.gathered
    let index := Index.buildWith host width procs tables mqueueDevice
    let out := marks.filterMap Marked.selected
    let named := forcedKeys index out
    let listed := annotate host index out (some (candidates index procs))
    (rowsOf listed).Perm (rowsOf (marks.filterMap (Marked.outcome host index named))) ∧
    (rowsOf (out.map (annotateEntry host index false))).Sublist (rowsOf listed) ∧
    (Ascending marks → (∀ m ∈ marks, m.InOrder index) → listed = marks.filterMap (Marked.outcome host index named)) ∧
    (∀ p forced f, ∃ addition, (index.ends p.header f forced = [] → addition = f.nameAddition) ∧
      annotateRow host index p forced f =
        { f with
          name := endName host f ((index.ends p.header f forced).map Index.Piece.text)
          nameAddition := addition }) := by
  intro procs index out named listed
  have hlisted : listed = _ := annotate_eq_foldl hslot hunshared
  refine ⟨?_, ?_, fun hmarks hrows => ?_, fun p forced f => annotateRow_eq p forced f⟩
  · rw [hlisted]
    refine (foldl_addEntry_perm hslot fun m hm p hp hsame => ?_).trans (outcome_rows_perm marks).symm
    obtain ⟨n, hn, hnp⟩ := mem_filterMap.mp hp
    rw [Marked.listing_eq_some hnp] at hsame ⊢
    simp only [sameSlot, withRows, Bool.and_eq_true, beq_iff_eq] at hsame
    have hnm : n = m := inj_on_of_nodup_map hslot hn hm (Prod.ext hsame.1 hsame.2)
    rw [hnm]
    rfl
  · rw [hlisted, map_annotateEntry_selected]
    exact rowsOf_sublist_foldl marks _
  · rw [hlisted]
    exact @foldl_addEntry_ascending host index named marks hmarks hrows [] (by simp)

def indexOf (marks : List Marked) : Index :=
  Index.buildWith .linux .standard (marks.map Marked.gathered) {} none

def listedOf (marks : List Marked) : List Process :=
  annotate .linux (indexOf marks) (marks.filterMap Marked.selected)
    (some (candidates (indexOf marks) (marks.map Marked.gathered)))

def outcomeOf (marks : List Marked) : List Process :=
  marks.filterMap (Marked.outcome .linux (indexOf marks)
    (forcedKeys (indexOf marks) (marks.filterMap Marked.selected)))

def EndsApart (marks : List Marked) : Prop :=
  ∀ m ∈ marks, m.rows.Pairwise (fun a b => ((indexOf marks).key m.entry a.1).isSome = true →
    ((indexOf marks).key m.entry b.1).isSome = true → a.1.fd ≠ b.1.fd)

instance (marks : List Marked) : Decidable (EndsApart marks) :=
  inferInstanceAs (Decidable (∀ m ∈ marks, m.rows.Pairwise _))

def pipeRow (n : Nat) : OpenFile :=
  { fd := .handle n, fileType := .fifo, node := some "7".toList }

/-- The two ends of a pipe, the one of the later process gathered first. -/
def descendingMarks : List Marked :=
  [{ entry := { pid := 2 }, rows := [(pipeRow 3, true)] },
    { entry := { pid := 1 }, rows := [(pipeRow 3, false)] }]

/-- An end behind a row of the same entry with a higher descriptor. -/
def unnumberedMarks : List Marked :=
  [{ entry := { pid := 1 }, rows := [(pipeRow 3, true)] },
    { entry := { pid := 2 }
      rows := [({ fd := .handle 5, fileType := .regular }, true), (pipeRow 3, false)] }]

def sharedMarks : List Marked :=
  [{ entry := { pid := 1 }, rows := [(pipeRow 3, true)] },
    { entry := { pid := 2 }
      rows := [({ fd := .handle 3, fileType := .regular }, true), (pipeRow 3, false)] }]

def splitMarks : List Marked :=
  [{ entry := { pid := 1 }, rows := [(pipeRow 3, true)] },
    { entry := { pid := 2 }, rows := [({ fd := .handle 3, fileType := .regular }, true)] },
    { entry := { pid := 2 }, rows := [(pipeRow 3, false)] }]

/-- A row with an addition in plain text, a tab in it. -/
def tabbedRow : OpenFile :=
  { pipeRow 3 with name := ['a', ' ', '\t'], nameAddition := some ⟨1, false, by decide⟩ }

def tabbedMarks : List Marked :=
  [{ entry := { pid := 1 }, rows := [(tabbedRow, true)] },
    { entry := { pid := 2 }, rows := [(pipeRow 3, false)] }]

set_option maxRecDepth 4000 in
/-- Entries and rows that do not stand by number are not put back in the gathered
order; an end that shares its FD with a row listed is not added; and a plain
addition does not stay as it was. -/
theorem annotate_rows_misplaced :
    (EndsApart descendingMarks ∧ rowsOf (listedOf descendingMarks) ≠ rowsOf (outcomeOf descendingMarks)) ∧
    (EndsApart unnumberedMarks ∧ rowsOf (listedOf unnumberedMarks) ≠ rowsOf (outcomeOf unnumberedMarks)) ∧
    (EndsApart sharedMarks ∧ (rowsOf (listedOf sharedMarks)).length = 2 ∧
      (rowsOf (outcomeOf sharedMarks)).length = 3) ∧
    (EndsApart splitMarks ∧ (rowsOf (listedOf splitMarks)).length = 2 ∧ (rowsOf (outcomeOf splitMarks)).length = 3) ∧
    (EndsApart tabbedMarks ∧
      (listedOf tabbedMarks).all (fun p => p.files.all (fun f => !tabbedRow.name.isPrefixOf f.name)) = true) := by
  refine ⟨⟨by decide, by decide⟩, ⟨by decide, by decide⟩, ⟨by decide, by decide, by decide⟩,
    ⟨by decide, by decide, by decide⟩, ⟨by decide, by decide⟩⟩

/-- The two ends of a pipe as they are gathered. -/
def ascendingMarks : List Marked :=
  [{ entry := { pid := 1 }, rows := [(pipeRow 3, false)] },
    { entry := { pid := 2 }, rows := [(pipeRow 3, true)] }]

set_option maxRecDepth 4000 in
theorem annotate_rows_pipe :
    listedOf ascendingMarks = outcomeOf ascendingMarks ∧ (listedOf ascendingMarks).map Process.pid = [1, 2] :=
  ⟨(annotate_rows .linux .standard {} none ascendingMarks (by decide) (by decide)).2.2.1
    (by decide) (by decide), by decide⟩

end Lsof.Ends
