import Lsof.Basis.Framing
import Lsof.Render.Printable

/-! # Reading `-F` output back

No value holds a newline or a NUL, so the fields of a stream are read back by
splitting it at its terminators, and the sets of a process at `p`, the one field
that is always there. A file's set is told by its `f`, or under `-F0` by the
newline after it. Without either nothing in the stream says where a file ends.
-/

namespace Lsof.Render

open Lsof.Basis Lsof.Core List

def Unbroken (t : Text) : Prop := '\n' ∉ t ∧ nulChar ∉ t

instance (t : Text) : Decidable (Unbroken t) := inferInstanceAs (Decidable (_ ∧ _))

theorem unbroken_of_printable {t : Text} (h : Printable t) : Unbroken t :=
  ⟨fun hc => absurd (h _ hc) (by decide), fun hc => absurd (h _ hc) (by decide)⟩

namespace FieldOpts

variable (o : FieldOpts)

def token (field : Char × Text) : Text := field.1 :: field.2

def setText (fields : List (Char × Text)) : Text :=
  (fields.flatMap fun field => token field ++ [o.term]) ++
    if o.nul && !fields.isEmpty then ['\n'] else []

def sets (procs : List Process) : List (List (Char × Text)) :=
  procs.flatMap fun p => o.procFields p :: p.files.map o.fileFields

theorem sets_cons (p : Process) (procs : List Process) :
    o.sets (p :: procs) = o.procFields p :: (p.files.map o.fileFields ++ o.sets procs) := rfl

/-- An output that ends no field that is not closed. -/
def Closed (out : Text) : Prop := o.nul = true → out.getLast? ≠ some nulChar

theorem foldl_push (out : Text) (fields : List (Char × Text)) :
    fields.foldl o.push out = out ++ fields.flatMap fun field => token field ++ [o.term] := by
  induction fields generalizing out with
  | nil => simp
  | cons field fields ih =>
    rw [foldl_cons, ih, push, flatMap_cons, append_assoc]
    rfl

theorem pushSet_eq {out : Text} (h : o.Closed out) (fields : List (Char × Text)) :
    o.pushSet out fields = out ++ o.setText fields ∧ o.Closed (o.pushSet out fields) := by
  cases hnul : o.nul with
  | false =>
    constructor
    · simp [pushSet, endSet, setText, foldl_push, hnul]
    · intro hset
      rw [hnul] at hset
      cases hset
  | true =>
    rcases eq_nil_or_concat fields with rfl | ⟨front, field, rfl⟩
    · have hend : o.endSet out = out := by
        rw [endSet, hnul, Bool.true_and, if_neg]
        simpa using h hnul
      have hout : o.pushSet out [] = out := hend
      rw [hout]
      exact ⟨by simp [setText], h⟩
    · -- the last field ends in its terminator, so the set is closed after it
      have hlast : ((front.concat field).foldl o.push out).getLast? = some nulChar := by
        rw [foldl_push, concat_eq_append, flatMap_append, flatMap_singleton,
          ← append_assoc, ← append_assoc, getLast?_concat, term, hnul]
        rfl
      have hend : o.pushSet out (front.concat field) =
          (front.concat field).foldl o.push out ++ ['\n'] := by
        rw [pushSet, endSet, hnul, hlast]
        rfl
      rw [hend]
      constructor
      · rw [foldl_push, setText, hnul, append_assoc]
        simp
      · intro _
        rw [getLast?_concat]
        decide

theorem render_eq (procs : List Process) : o.render procs = (o.sets procs).flatMap o.setText := by
  have hfiles : ∀ (files : List OpenFile) (out : Text), o.Closed out →
      files.foldl (fun out f => o.pushSet out (o.fileFields f)) out =
          out ++ (files.map o.fileFields).flatMap o.setText ∧
        o.Closed (files.foldl (fun out f => o.pushSet out (o.fileFields f)) out) := by
    intro files
    induction files with
    | nil => exact fun out h => ⟨by simp, h⟩
    | cons f files ih =>
      intro out h
      obtain ⟨heq, hclosed⟩ := o.pushSet_eq h (o.fileFields f)
      obtain ⟨hrest, hend⟩ := ih _ hclosed
      refine ⟨?_, hend⟩
      rw [foldl_cons, hrest, heq, map_cons, flatMap_cons, append_assoc]
  have hrun : ∀ (procs : List Process) (out : Text), o.Closed out →
      procs.foldl o.pushProcess out = out ++ (o.sets procs).flatMap o.setText := by
    intro procs
    induction procs with
    | nil => simp [sets]
    | cons p procs ih =>
      intro out h
      obtain ⟨heq, hclosed⟩ := o.pushSet_eq h (o.procFields p)
      obtain ⟨hrows, hend⟩ := hfiles p.files _ hclosed
      have hrest := ih (o.pushProcess out p) hend
      have hstep : o.pushProcess out p = out ++ o.setText (o.procFields p) ++
          (p.files.map o.fileFields).flatMap o.setText := by
        rw [pushProcess, hrows, heq]
      rw [foldl_cons, hrest, hstep, sets_cons, flatMap_cons, flatMap_append]
      simp only [append_assoc]
  have hstart := hrun procs [] fun _ => by decide
  rwa [nil_append] at hstart

theorem letter_of_field {c : Char} {value : Option Text} {field : Char × Text}
    (h : field ∈ o.field c value) : field.1 = c := by
  unfold FieldOpts.field at h
  split at h
  next =>
    obtain ⟨v, -, rfl⟩ := Option.map_eq_some_iff.mp (Option.mem_toList.mp h)
    rfl
  next => exact absurd h not_mem_nil

theorem letter_of_tcpFields {f : OpenFile} {field : Char × Text} (h : field ∈ o.tcpFields f) : field.1 = 'T' := by
  have hall : ∀ field ∈ o.tcpFields f, field.1 = 'T' := by
    unfold tcpFields
    refine forall_if ?_
    split
    next => exact fun field hfield => absurd hfield not_mem_nil
    next sock _ =>
      refine forall_mem_append.mpr ⟨forall_if (forall_optional fun st => rfl), ?_⟩
      split
      next => exact fun field hfield => absurd hfield not_mem_nil
      next tcp _ =>
        exact forall_mem_append.mpr ⟨forall_if (forall_mem_append.mpr
          ⟨forall_optional fun q => rfl, forall_optional fun q => rfl⟩),
          forall_if (forall_optional fun w => rfl)⟩
  exact hall field h

theorem procFields_cons (p : Process) :
    ∃ rest, o.procFields p = ('p', Text.ofNat p.pid) :: rest ∧ ∀ field ∈ rest, field.1 ∈ "KMgRcuL".toList := by
  refine ⟨_, rfl, ?_⟩
  have hone : ∀ {c : Char} {value : Option Text}, c ∈ "KMgRcuL".toList →
      ∀ field ∈ o.field c value, field.1 ∈ "KMgRcuL".toList :=
    fun hc field hfield => o.letter_of_field hfield ▸ hc
  simp only [forall_mem_append]
  exact ⟨⟨⟨⟨⟨⟨hone (by decide), hone (by decide)⟩, hone (by decide)⟩, hone (by decide)⟩,
    hone (by decide)⟩, hone (by decide)⟩, hone (by decide)⟩

theorem fileFields_append (f : OpenFile) :
    ∃ rest, o.fileFields f = o.field 'f' (some f.fd.code) ++ rest ∧
      ∀ field ∈ rest, field.1 ∈ "altGdDrsoikPnT".toList := by
  have hone : ∀ {c : Char} {value : Option Text}, c ∈ "altGdDrsoikPnT".toList →
      ∀ field ∈ o.field c value, field.1 ∈ "altGdDrsoikPnT".toList :=
    fun hc field hfield => o.letter_of_field hfield ▸ hc
  have htcp : ∀ field ∈ o.tcpFields f, field.1 ∈ "altGdDrsoikPnT".toList := fun field hfield =>
    o.letter_of_tcpFields hfield ▸ by decide
  unfold fileFields
  simp only [append_assoc]
  refine ⟨_, rfl, ?_⟩
  simp only [forall_mem_append]
  exact ⟨hone (by decide), hone (by decide), hone (by decide), hone (by decide), hone (by decide),
    hone (by decide), hone (by decide), hone (by decide), hone (by decide), hone (by decide),
    hone (by decide), hone (by decide), hone (by decide), htcp⟩

end FieldOpts

def ofToken : Text → Option (Char × Text)
  | [] => none
  | letter :: value => some (letter, value)

def readLines (out : Text) : List (Char × Text) := (splitTerminated '\n' out).filterMap ofToken

/-- The sets of a stream whose fields end in NUL and whose sets end in a newline. -/
def readNulSets (out : Text) : List (List (Char × Text)) :=
  (splitTerminated '\n' out).map fun set => (splitTerminated nulChar set).filterMap ofToken

def readPairs (nul : Bool) (out : Text) : List (Char × Text) :=
  if nul then (readNulSets out).flatten else readLines out

def readProcesses (nul : Bool) (out : Text) : List (List (Char × Text)) :=
  groupAt (fun field => field.1 == 'p') (readPairs nul out)

def readSets (nul : Bool) (out : Text) : List (List (Char × Text)) :=
  if nul then readNulSets out
  else groupAt (fun field => field.1 == 'p' || field.1 == 'f') (readLines out)

theorem filterMap_ofToken (fields : List (Char × Text)) :
    (fields.map FieldOpts.token).filterMap ofToken = fields := by
  rw [filterMap_map]
  exact filterMap_some

namespace FieldOpts

variable (o : FieldOpts)

variable {procs : List Process}

theorem letter_printable {set : List (Char × Text)} (hset : set ∈ o.sets procs)
    {field : Char × Text} (hfield : field ∈ set) : isUnprintableUnicode field.1 = false := by
  have hletter : ∀ {letters : Text}, Printable letters → field.1 ∈ letters →
      isUnprintableUnicode field.1 = false := fun hletters hmem => hletters _ hmem
  obtain ⟨p, -, hset⟩ := mem_flatMap.mp hset
  rcases mem_cons.mp hset with rfl | hset
  · obtain ⟨rest, hfields, hrest⟩ := o.procFields_cons p
    rw [hfields] at hfield
    rcases mem_cons.mp hfield with rfl | hfield
    · exact (by decide : isUnprintableUnicode 'p' = false)
    · exact hletter (by decide) (hrest field hfield)
  · obtain ⟨f, -, rfl⟩ := mem_map.mp hset
    obtain ⟨rest, hfields, hrest⟩ := o.fileFields_append f
    rw [hfields] at hfield
    rcases mem_append.mp hfield with hfield | hfield
    · rw [o.letter_of_field hfield]
      decide
    · exact hletter (by decide) (hrest field hfield)

theorem forall_tokens {P : Text → Prop} (hP : ∀ t, Printable t → P t)
    (hcons : ∀ c t, isUnprintableUnicode c = false → P t → P (c :: t))
    (hcells : ∀ p ∈ procs, ∀ f ∈ p.files, Cells P f) : ∀ set ∈ o.sets procs, ∀ field ∈ set, P (token field) := by
  intro set hset field hfield
  refine hcons _ _ (o.letter_printable hset hfield) ?_
  obtain ⟨p, hp, hset⟩ := mem_flatMap.mp hset
  rcases mem_cons.mp hset with rfl | hset
  · exact o.forall_procFields hP p field hfield
  · obtain ⟨f, hf, rfl⟩ := mem_map.mp hset
    exact o.forall_fileFields hP (hcells p hp f hf) field hfield

def Framed (sets : List (List (Char × Text))) : Prop :=
  ∀ set ∈ sets, ∀ field ∈ set, Unbroken (token field)

theorem framed_sets (hcells : ∀ p ∈ procs, ∀ f ∈ p.files, Cells Unbroken f) : Framed (o.sets procs) := by
  refine o.forall_tokens (fun t ht => unbroken_of_printable ht) (fun c t hc ht => ?_) hcells
  have hletter := unbroken_of_printable (printable_cons.mpr ⟨hc, printable_nil⟩)
  exact ⟨fun h => (mem_cons.mp h).elim (fun hnl => hletter.1 (hnl ▸ mem_singleton_self c)) ht.1,
    fun h => (mem_cons.mp h).elim (fun hnl => hletter.2 (hnl ▸ mem_singleton_self c)) ht.2⟩

theorem readLines_sets (hnul : o.nul = false) {sets : List (List (Char × Text))} (h : Framed sets) :
    readLines (sets.flatMap o.setText) = sets.flatten := by
  have hset : ∀ set, o.setText set = (set.map token).flatMap fun t => t ++ ['\n'] := by
    intro set
    rw [setText, term, hnul, flatMap_map]
    exact append_nil _
  have hstream : sets.flatMap o.setText = (sets.flatten.map token).flatMap fun t => t ++ ['\n'] := by
    induction sets with
    | nil => rfl
    | cons set sets ih =>
      rw [flatMap_cons, ih (forall_mem_cons.mp h).2, hset, flatten_cons, map_append, flatMap_append]
  rw [hstream, readLines, splitTerminated_flatMap, filterMap_ofToken]
  intro t ht
  obtain ⟨field, hfield, rfl⟩ := mem_map.mp ht
  obtain ⟨set, hmem, hfield⟩ := mem_flatten.mp hfield
  exact (h set hmem field hfield).1

def nulBody (set : List (Char × Text)) : Text := (set.map token).flatMap fun t => t ++ [nulChar]

theorem readNulSets_sets (hnul : o.nul = true) {sets : List (List (Char × Text))} (h : Framed sets) :
    readNulSets (sets.flatMap o.setText) = sets.filter fun set => !set.isEmpty := by
  have hstream : sets.flatMap o.setText =
      ((sets.filter fun set => !set.isEmpty).map nulBody).flatMap fun t => t ++ ['\n'] := by
    induction sets with
    | nil => rfl
    | cons set sets ih =>
      have hrest := ih (forall_mem_cons.mp h).2
      cases set with
      | nil =>
        rw [flatMap_cons, hrest, setText, hnul]
        rfl
      | cons field set =>
        have hset : o.setText (field :: set) = nulBody (field :: set) ++ ['\n'] := by
          rw [setText, term, hnul, nulBody, flatMap_map]
          rfl
        rw [flatMap_cons, hrest, hset]
        rfl
  have hkept : ∀ set ∈ sets.filter (fun set => !set.isEmpty), ∀ field ∈ set, Unbroken (token field) :=
    fun set hset => h set (mem_filter.mp hset).1
  rw [hstream, readNulSets, splitTerminated_flatMap]
  · rw [map_map]
    conv_rhs => rw [← map_id (sets.filter fun set => !set.isEmpty)]
    refine map_congr_left fun set hset => ?_
    show (splitTerminated nulChar (nulBody set)).filterMap ofToken = set
    rw [nulBody, splitTerminated_flatMap, filterMap_ofToken]
    intro t ht
    obtain ⟨field, hfield, rfl⟩ := mem_map.mp ht
    exact (hkept set hset field hfield).2
  · intro body hbody hnl
    obtain ⟨set, hset, rfl⟩ := mem_map.mp hbody
    obtain ⟨t, ht, hnl⟩ := mem_flatMap.mp hnl
    obtain ⟨field, hfield, rfl⟩ := mem_map.mp ht
    rcases mem_append.mp hnl with hnl | hnl
    · exact (hkept set hset field hfield).1 hnl
    · exact absurd hnl (by decide)

def processFields (p : Process) : List (Char × Text) := o.procFields p ++ p.files.flatMap o.fileFields

theorem flatten_sets (procs : List Process) : (o.sets procs).flatten = (procs.map o.processFields).flatten := by
  induction procs with
  | nil => rfl
  | cons p procs ih =>
    rw [sets_cons, flatten_cons, flatten_append, ih, map_cons, flatten_cons, processFields, flatMap_def, append_assoc]

theorem begun_processFields (p : Process) : Begun (fun field => field.1 == 'p') (o.processFields p) := by
  have hother : ∀ letters : Text, 'p' ∉ letters → ∀ field : Char × Text, field.1 ∈ letters →
      (field.1 == 'p') = false := by
    intro letters hletters field hfield
    exact beq_eq_false_iff_ne.mpr fun h => hletters (h ▸ hfield)
  obtain ⟨rest, hfields, hrest⟩ := o.procFields_cons p
  refine ⟨('p', Text.ofNat p.pid), rest ++ p.files.flatMap o.fileFields, ?_, rfl, ?_⟩
  · rw [processFields, hfields, cons_append]
  · refine forall_mem_append.mpr ⟨fun field hfield => hother _ (by decide) field (hrest field hfield), ?_⟩
    intro field hfield
    obtain ⟨f, -, hfield⟩ := mem_flatMap.mp hfield
    obtain ⟨more, hfile, hmore⟩ := o.fileFields_append f
    rw [hfile] at hfield
    rcases mem_append.mp hfield with hfield | hfield
    · show (field.1 == 'p') = false
      rw [o.letter_of_field hfield]
      rfl
    · exact hother _ (by decide) field (hmore field hfield)

theorem begun_sets (hf : wants o.only 'f' = true) {procs : List Process} :
    ∀ set ∈ o.sets procs, Begun (fun field => field.1 == 'p' || field.1 == 'f') set := by
  have hother : ∀ letters : Text, 'p' ∉ letters → 'f' ∉ letters → ∀ field : Char × Text,
      field.1 ∈ letters → (field.1 == 'p' || field.1 == 'f') = false := by
    intro letters hp hf field hfield
    exact Bool.or_eq_false_iff.mpr ⟨beq_eq_false_iff_ne.mpr fun h => hp (h ▸ hfield),
      beq_eq_false_iff_ne.mpr fun h => hf (h ▸ hfield)⟩
  intro set hset
  obtain ⟨p, -, hset⟩ := mem_flatMap.mp hset
  rcases mem_cons.mp hset with rfl | hset
  · obtain ⟨rest, hfields, hrest⟩ := o.procFields_cons p
    exact ⟨_, rest, hfields, rfl, fun field hfield =>
      hother _ (by decide) (by decide) field (hrest field hfield)⟩
  · obtain ⟨f, -, rfl⟩ := mem_map.mp hset
    obtain ⟨rest, hfields, hrest⟩ := o.fileFields_append f
    have hfirst : o.field 'f' (some f.fd.code) = [('f', f.fd.code)] := if_pos hf
    rw [hfirst] at hfields
    exact ⟨_, rest, hfields, rfl, fun field hfield =>
      hother _ (by decide) (by decide) field (hrest field hfield)⟩

/-- The fields and the processes of a stream always come back. The sets of its
files do where `f` is selected, and under `-F0` where they have a field. -/
theorem render_read_back (procs : List Process) (hcells : ∀ p ∈ procs, ∀ f ∈ p.files, Cells Unbroken f) :
    readPairs o.nul (o.render procs) = (o.sets procs).flatten ∧
      readProcesses o.nul (o.render procs) = procs.map o.processFields ∧
      (wants o.only 'f' = true → readSets o.nul (o.render procs) = o.sets procs) ∧
      (o.nul = true → readSets o.nul (o.render procs) = (o.sets procs).filter fun set => !set.isEmpty) := by
  have hframed := o.framed_sets hcells
  have hfilter : ((o.sets procs).filter fun set => !set.isEmpty).flatten = (o.sets procs).flatten :=
    flatten_filter_not_isEmpty
  have hnul : o.nul = true → readNulSets (o.render procs) =
      (o.sets procs).filter fun set => !set.isEmpty := by
    intro hnul
    rw [o.render_eq, o.readNulSets_sets hnul hframed]
  have hlines : o.nul = false → readLines (o.render procs) = (o.sets procs).flatten := by
    intro hnul
    rw [o.render_eq, o.readLines_sets hnul hframed]
  have hpairs : readPairs o.nul (o.render procs) = (o.sets procs).flatten := by
    cases h : o.nul with
    | false => exact hlines h
    | true => exact (congrArg List.flatten (hnul h)).trans hfilter
  refine ⟨hpairs, ?_, ?_, ?_⟩
  · rw [readProcesses, hpairs, flatten_sets]
    refine groupAt_flatten fun group hgroup => ?_
    obtain ⟨p, -, rfl⟩ := mem_map.mp hgroup
    exact o.begun_processFields p
  · intro hf
    have hbegun := @begun_sets o hf procs
    cases h : o.nul with
    | false =>
      show groupAt _ (readLines _) = _
      rw [hlines h, groupAt_flatten hbegun]
    | true =>
      refine (hnul h).trans (filter_eq_self.mpr fun set hset => ?_)
      obtain ⟨x, rest, rfl, -⟩ := hbegun set hset
      rfl
  · intro h
    rw [h]
    exact hnul h

/-- With size and name selected and no `f`, one file with both prints as two
files with one each. -/
theorem render_hides_files :
    let o : FieldOpts := { only := some ['s', 'n'], esc := { backslash := true } }
    let both : OpenFile := { fd := .handle 3, fileType := .regular, name := ['x'], size := some 1 }
    let one : List Process := [{ pid := 1, files := [both] }]
    let two : List Process := [{ pid := 1, files := [{ both with name := [] }, { both with size := none }] }]
    o.render one = o.render two ∧ o.sets one ≠ o.sets two := by
  decide

/-- Two processes with names full of terminators, under `-F0`. -/
theorem render_read_back_nul :
    let o : FieldOpts := { nul := true, esc := { backslash := true } }
    let file : OpenFile := { fd := .handle 3, fileType := .regular, name := "a\nf4".toList }
    let procs : List Process := [{ pid := 1, command := ['\n', 'p'], files := [file] }, { pid := 2 }]
    readSets true (o.render procs) = o.sets procs := by
  intro o file procs
  have hfile : Cells Unbroken file := ⟨by decide, nofun, nofun⟩
  have hcells : ∀ p ∈ procs, ∀ f ∈ p.files, Cells Unbroken f := by
    simp [procs, hfile]
  exact (o.render_read_back procs hcells).2.2.1 (by decide)

end FieldOpts

end Lsof.Render
