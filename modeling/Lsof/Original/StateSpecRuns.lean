import Lsof.Original.StateSpec

/-! # Which states `-s` marks

Over the tables of Linux, every sequence of `-s` values marks the states it
names and reports the names that are empty, unknown or repeated, as long as no
name is given for UDP: the search for one begins at a slot that is NULL.
-/

namespace Lsof.Original

open Lsof.Basis List

def StateProto.slots : StateProto → List Slot
  | .tcp => linuxTables.tcp.st.getD []
  | .udp => linuxTables.udp.st.getD []

def Slot.isNamed (ns : Text) : Slot → Bool
  | .name nm => sameLetters ns nm
  | _ => false

def stateNumber (p : StateProto) (ns : Text) : Option Nat := p.slots.findIdx? (Slot.isNamed ns)

def mention (p : StateProto) (item : StateItem) : Option (Bool × Nat) :=
  (stateNumber p item.ns).map fun i => (item.x, i)

def specItems (ss : Text) : List StateItem := stateItems (ss.drop 4)

def itemsFor (p : StateProto) (ss : Text) : List StateItem := if protocolOf ss = some p then specItems ss else []

def mentions (p : StateProto) (specs : List Text) : List (Bool × Nat) :=
  (specs.flatMap (itemsFor p)).filterMap (mention p)

/-- An item to be reported: it is empty, unknown, or named before. -/
def BadItem (p : StateProto) (earlier : List (Bool × Nat)) (item : StateItem) : Prop :=
  item.ns = [] ∨ stateNumber p item.ns = none ∨ ∃ m ∈ earlier, mention p item = some m

def BadSpec (p : StateProto) (earlier : List (Bool × Nat)) (ss : Text) : Prop :=
  ss.drop 4 = [] ∨ ∃ us item vs, specItems ss = us ++ item :: vs ∧
    BadItem p (earlier ++ us.filterMap (mention p)) item

def StateMarks.has (m : StateMarks) (x : Bool) (i : Nat) : Bool :=
  ((if x then m.excl else m.incl).bind fun table => table[i]?).getD false

def marked (n : Nat) (ms : List (Bool × Nat)) (x : Bool) : List Bool :=
  (List.range n).map fun i => decide ((x, i) ∈ ms)

def marksOf (n : Nat) (ms : List (Bool × Nat)) : StateMarks where
  incl := some (marked n ms false)
  inN := (marked n ms false).count true
  excl := some (marked n ms true)
  xn := (marked n ms true).count true

theorem marked_length (n : Nat) (ms : List (Bool × Nat)) (x : Bool) : (marked n ms x).length = n := by
  simp [marked]

theorem getElem?_marked {n i : Nat} (h : i < n) (ms : List (Bool × Nat)) (x : Bool) :
    (marked n ms x)[i]? = some (decide ((x, i) ∈ ms)) := by
  simp [marked, h]

theorem marked_congr {n : Nat} {ms ms' : List (Bool × Nat)} {x : Bool}
    (h : ∀ i < n, (x, i) ∈ ms' ↔ (x, i) ∈ ms) : marked n ms' x = marked n ms x := by
  apply map_congr_left
  intro i hi
  simp [h i (mem_range.mp hi)]

theorem marked_set {n i : Nat} (ms : List (Bool × Nat)) (x : Bool) :
    (marked n ms x).set i true = marked n (ms ++ [(x, i)]) x := by
  apply ext_getElem?
  intro j
  by_cases hj : j < n
  · rw [getElem?_set, getElem?_marked hj, getElem?_marked hj, marked_length]
    by_cases hij : i = j
    · simp [hij, hj]
    · have hne : ¬ (x, j) = (x, i) := fun h => hij (Prod.ext_iff.mp h).2.symm
      simp [hij, hne]
  · rw [getElem?_eq_none (by rw [length_set, marked_length]; omega), getElem?_eq_none (by rw [marked_length]; omega)]

theorem markState_marksOf {n i : Nat} (h : i < n) (ms : List (Bool × Nat)) (x : Bool) :
    markState (marksOf n ms) x i = .ok (marksOf n (ms ++ [(x, i)]), decide ((x, i) ∈ ms)) := by
  have hlook : (if x then (marksOf n ms).excl else (marksOf n ms).incl).bind (fun table => table[i]?) =
      some (decide ((x, i) ∈ ms)) := by
    cases x <;> exact getElem?_marked h ms _
  rw [markState, hlook]
  by_cases hmem : (x, i) ∈ ms
  · have hsame : marksOf n (ms ++ [(x, i)]) = marksOf n ms := by
      have hcongr : ∀ y, marked n (ms ++ [(x, i)]) y = marked n ms y := by
        intro y
        apply marked_congr
        intro j _
        constructor
        · intro hj
          rcases mem_append.mp hj with hj | hj
          · exact hj
          · exact mem_singleton.mp hj ▸ hmem
        · exact mem_append_left _
      simp only [marksOf, hcongr]
    simp only [hmem, decide_true, hsame]
  · have hother : marked n (ms ++ [(x, i)]) (!x) = marked n ms (!x) := by
      apply marked_congr
      intro j _
      simp
    have hcount : (marked n (ms ++ [(x, i)]) x).count true = (marked n ms x).count true + 1 := by
      have hlt : i < (marked n ms x).length := by rwa [marked_length]
      have hfalse : (marked n ms x)[i] = false := by
        have hget := getElem?_marked h ms x
        rw [getElem?_eq_getElem hlt] at hget
        simpa [hmem] using hget
      rw [← marked_set, count_set hlt, hfalse]
      simp
    simp only [hmem, decide_false]
    cases x with
    | true =>
      simp only [Bool.not_true] at hother
      simp [marksOf, marked_set, hcount, hother]
    | false =>
      simp only [Bool.not_false] at hother
      simp [marksOf, marked_set, hcount, hother]

variable {ms : List (Bool × Nat)}

theorem has_marksOf {n : Nat} (h : ∀ m ∈ ms, m.2 < n) (x : Bool) (i : Nat) :
    (marksOf n ms).has x i = true ↔ (x, i) ∈ ms := by
  have hlook : (marksOf n ms).has x i = ((marked n ms x)[i]?).getD false := by
    cases x <;> rfl
  rw [hlook]
  by_cases hi : i < n
  · rw [getElem?_marked hi]
    simp
  · rw [getElem?_eq_none (by rw [marked_length]; omega)]
    exact iff_of_false (by simp) fun hmem => hi (h _ hmem)

theorem searchState_names (ns : Text) (i : Nat) (names : List Text) :
    searchState ns i (names.map Slot.name) =
      .ok (((names.map Slot.name).findIdx? (Slot.isNamed ns)).map fun j => j + i) := by
  induction names generalizing i with
  | nil => rfl
  | cons nm names ih =>
    rw [map_cons, searchState, findIdx?_cons]
    cases hsame : sameLetters ns nm with
    | true => simp [Slot.isNamed, hsame]
    | false =>
      simp only [Slot.isNamed, hsame, Bool.false_eq_true, if_false, ih, Option.map_map]
      congr 1
      apply Option.map_congr
      intro j _
      simp only [Function.comp_apply]
      omega

theorem stateNumber_lt {p : StateProto} {ns : Text} {i : Nat} (h : stateNumber p ns = some i) :
    i < p.slots.length := by
  rcases findIdx?_eq_some_iff_getElem.mp h with ⟨hlt, -⟩
  exact hlt

theorem stateNumber_nil (p : StateProto) : stateNumber p [] = none := by
  cases p <;> rfl

/-- What is reported of an item after others were marked. -/
def reportOf (ss : Text) (ms : List (Bool × Nat)) (item : StateItem) : List StateReport :=
  if item.ns.length = 0 then [.nullName "TCP".toList ss]
  else
    match stateNumber .tcp item.ns with
    | none => [.unknownName "TCP".toList item.ns]
    | some i => if (item.x, i) ∈ ms then [.duplicate "TCP".toList item.x item.ns] else []

theorem reportOf_ne_nil (ss : Text) (ms : List (Bool × Nat)) (item : StateItem) :
    reportOf ss ms item ≠ [] ↔ BadItem .tcp ms item := by
  unfold reportOf BadItem mention
  by_cases hempty : item.ns.length = 0
  · rw [if_pos hempty]
    exact iff_of_true (by simp) (.inl (length_eq_zero_iff.mp hempty))
  · have hne : item.ns ≠ [] := fun h => hempty (by rw [h]; rfl)
    rw [if_neg hempty]
    cases hnum : stateNumber .tcp item.ns with
    | none => simp
    | some i => by_cases hmem : (item.x, i) ∈ ms <;> simp [hmem, hne]

theorem enterStateName_tcp (ss : Text) (ms : List (Bool × Nat)) (item : StateItem) :
    enterStateName linuxTables.tcp "TCP".toList ss (marksOf 12 ms) item =
      .ok (marksOf 12 (ms ++ (mention .tcp item).toList), reportOf ss ms item) := by
  unfold enterStateName reportOf mention
  by_cases hempty : item.ns.length = 0
  · have hnil : item.ns = [] := length_eq_zero_iff.mp hempty
    rw [if_pos hempty, if_pos hempty, hnil, stateNumber_nil]
    simp
  · have hsearch : searchState item.ns 0 ((linuxTables.tcp.st.getD []).take linuxTables.tcp.nstates) =
        .ok (stateNumber .tcp item.ns) := by
      have htake : (linuxTables.tcp.st.getD []).take linuxTables.tcp.nstates = tcpNames.map Slot.name := rfl
      rw [htake, searchState_names]
      simp only [Nat.add_zero, Option.map_id']
      rfl
    rw [if_neg hempty, if_neg hempty, hsearch]
    cases hnum : stateNumber .tcp item.ns with
    | none => simp
    | some i =>
      have hlt : i < 12 := stateNumber_lt hnum
      simp [markState_marksOf hlt]

theorem enterStateName_udp (ss : Text) (m : StateMarks) (item : StateItem) :
    enterStateName linuxTables.udp "UDP".toList ss m item =
      if item.ns = [] then .ok (m, [.nullName "UDP".toList ss]) else .error .noName := by
  unfold enterStateName
  by_cases hempty : item.ns = []
  · rw [if_pos hempty, if_pos (by rw [hempty]; rfl)]
  · rw [if_neg hempty, if_neg fun h => hempty (length_eq_zero_iff.mp h)]
    rfl

theorem enterStateNames_tcp (ss : Text) (items : List StateItem) (ms : List (Bool × Nat)) :
    ∃ reports, enterStateNames linuxTables.tcp "TCP".toList ss items (marksOf 12 ms) =
        .ok (marksOf 12 (ms ++ items.filterMap (mention .tcp)), reports) ∧
      (reports ≠ [] ↔ ∃ us item vs, items = us ++ item :: vs ∧
        BadItem .tcp (ms ++ us.filterMap (mention .tcp)) item) := by
  induction items generalizing ms with
  | nil => exact ⟨[], by simp [enterStateNames], by simp⟩
  | cons item items ih =>
    rcases ih (ms ++ (mention .tcp item).toList) with ⟨reports, hrun, hreports⟩
    have hmentions : ∀ us, (item :: us).filterMap (mention .tcp) =
        (mention .tcp item).toList ++ us.filterMap (mention .tcp) := by
      intro us
      cases hm : mention .tcp item <;> simp [hm]
    refine ⟨reportOf ss ms item ++ reports, ?_, ?_⟩
    · rw [enterStateNames, enterStateName_tcp]
      dsimp only
      rw [hrun, hmentions, append_assoc]
    · rw [← not_iff_not, not_not, append_eq_nil_iff]
      have hhead := not_iff_not.mpr (reportOf_ne_nil ss ms item)
      have htail := not_iff_not.mpr hreports
      rw [not_not] at hhead htail
      rw [hhead, htail]
      constructor
      · rintro ⟨hfirst, hrest⟩ ⟨us, bad, vs, hsplit, hbad⟩
        cases us with
        | nil =>
          rcases List.cons.inj hsplit with ⟨rfl, -⟩
          exact hfirst (by simpa using hbad)
        | cons u us =>
          rcases List.cons.inj hsplit with ⟨rfl, htl⟩
          rw [hmentions, ← append_assoc] at hbad
          exact hrest ⟨us, bad, vs, htl, hbad⟩
      · intro hno
        refine ⟨fun hbad => hno ⟨[], item, items, rfl, by simpa using hbad⟩, ?_⟩
        rintro ⟨us, bad, vs, rfl, hbad⟩
        refine hno ⟨item :: us, bad, vs, rfl, ?_⟩
        rwa [hmentions, ← append_assoc]

theorem enterStateNames_udp (ss : Text) (items : List StateItem) (m : StateMarks) :
    enterStateNames linuxTables.udp "UDP".toList ss items m =
      if ∀ item ∈ items, item.ns = [] then .ok (m, items.map fun _ => .nullName "UDP".toList ss)
      else .error .noName := by
  induction items with
  | nil => simp [enterStateNames]
  | cons item items ih =>
    have hcons : (∀ it ∈ item :: items, it.ns = []) ↔ item.ns = [] ∧ ∀ it ∈ items, it.ns = [] :=
      forall_mem_cons
    rw [enterStateNames, enterStateName_udp]
    by_cases hempty : item.ns = []
    · rw [if_pos hempty]
      dsimp only
      rw [ih]
      by_cases hall : ∀ item ∈ items, item.ns = []
      · rw [if_pos hall, if_pos (hcons.mpr ⟨hempty, hall⟩)]
        rfl
      · rw [if_neg hall, if_neg fun h => hall (hcons.mp h).2]
    · rw [if_neg hempty, if_neg fun h => hempty (hcons.mp h).1]

/-- What a run of values has come to: no table, or those of Linux, and the marks of the
states named so far. -/
structure SpecInv (ctx : StateContext) (ms : List (Bool × Nat)) : Prop where
  tables : ctx.tables = {} ∨ ctx.tables = linuxTables
  tcp : (ctx.tcp = {} ∧ ms = []) ∨ ctx.tcp = marksOf 12 ms
  udp : ctx.udp = {} ∨ ctx.udp = marksOf 2 []

variable {ctx : StateContext}

theorem SpecInv.build (h : SpecInv ctx ms) : buildIPstates ctx.tables = .ok linuxTables := by
  rcases h.tables with htables | htables
  · rw [htables]
    exact buildIPstates_first
  · rw [htables]
    exact buildIPstates_again

theorem SpecInv.calloc_tcp (h : SpecInv ctx ms) : callocMarks linuxTables.tcp ctx.tcp = marksOf 12 ms := by
  rcases h.tcp with ⟨htcp, hms⟩ | htcp
  · rw [htcp, hms]
    rfl
  · rw [htcp]
    rfl

theorem SpecInv.calloc_udp (h : SpecInv ctx ms) : callocMarks linuxTables.udp ctx.udp = marksOf 2 [] := by
  rcases h.udp with hudp | hudp
  · rw [hudp]
    rfl
  · rw [hudp]
    rfl

def NoUdpName (ss : Text) : Prop := protocolOf ss = some .udp → ∀ item ∈ specItems ss, item.ns = []

variable {ss : Text}

theorem specItems_of_empty (h : ss.drop 4 = []) : specItems ss = [] := by
  rw [specItems, h]
  rfl

theorem mentions_udp_of_noName (h : NoUdpName ss) : (itemsFor .udp ss).filterMap (mention .udp) = [] := by
  unfold itemsFor
  by_cases hudp : protocolOf ss = some .udp
  · rw [if_pos hudp, filterMap_eq_nil_iff]
    intro item hitem
    rw [mention, h hudp item hitem, stateNumber_nil]
    rfl
  · rw [if_neg hudp]
    rfl

theorem badSpec_udp (h : ∀ item ∈ specItems ss, item.ns = []) (earlier : List (Bool × Nat)) :
    BadSpec .udp earlier ss ↔ ss.drop 4 = [] ∨ specItems ss ≠ [] := by
  unfold BadSpec
  apply or_congr_right
  constructor
  · rintro ⟨us, item, vs, hsplit, -⟩ hnil
    rw [hsplit] at hnil
    exact absurd hnil (by simp)
  · intro hne
    cases hitems : specItems ss with
    | nil => exact absurd hitems hne
    | cons item items => exact ⟨[], item, items, rfl, .inl (h item (hitems ▸ mem_cons_self ..))⟩

theorem enterStateSpec_names (h : SpecInv ctx ms)
    {tx : StateProto} (hp : protocolOf ss = some tx) (hnames : ss.drop 4 ≠ []) :
    enterStateSpec ctx ss =
      (enterStateNames (({ ctx with tables := linuxTables } : StateContext).table tx) tx.name ss (specItems ss)
        (callocMarks (({ ctx with tables := linuxTables } : StateContext).table tx) (ctx.marks tx))).map
        fun r => (({ ctx with tables := linuxTables } : StateContext).setMarks r.1 tx, r.2) := by
  have hthere : ¬ (({ ctx with tables := linuxTables } : StateContext).table tx).st.isNone = true := by
    cases tx <;> simp [StateContext.table, linuxTables]
  have hmarks : ({ ctx with tables := linuxTables } : StateContext).marks tx = ctx.marks tx := by
    cases tx <;> rfl
  unfold enterStateSpec
  rw [hp]
  dsimp only
  rw [if_neg hnames, h.build]
  dsimp only
  rw [if_neg hthere, hmarks, show stateItems (ss.drop 4) = specItems ss from rfl]
  cases enterStateNames (({ ctx with tables := linuxTables } : StateContext).table tx) tx.name ss (specItems ss)
    (callocMarks (({ ctx with tables := linuxTables } : StateContext).table tx) (ctx.marks tx)) <;> rfl

theorem enterStateSpec_empty (ctx : StateContext) {tx : StateProto} (hp : protocolOf ss = some tx)
    (hempty : ss.drop 4 = []) : enterStateSpec ctx ss = .ok (ctx, [.noNames tx.name ss]) := by
  unfold enterStateSpec
  rw [hp]
  exact if_pos hempty

theorem enterStateSpec_tcp (h : SpecInv ctx ms) (hp : protocolOf ss = some .tcp) :
    ∃ ctx' reports, enterStateSpec ctx ss = .ok (ctx', reports) ∧
      SpecInv ctx' (ms ++ (specItems ss).filterMap (mention .tcp)) ∧ (reports ≠ [] ↔ BadSpec .tcp ms ss) := by
  by_cases hempty : ss.drop 4 = []
  · refine ⟨ctx, _, enterStateSpec_empty ctx hp hempty, ?_, iff_of_true (by simp) (.inl hempty)⟩
    rw [specItems_of_empty hempty, filterMap_nil, append_nil]
    exact h
  · rcases enterStateNames_tcp ss (specItems ss) ms with ⟨reports, hrun, hreports⟩
    rw [← h.calloc_tcp] at hrun
    refine ⟨({ ctx with tables := linuxTables } : StateContext).setMarks
      (marksOf 12 (ms ++ (specItems ss).filterMap (mention .tcp))) .tcp, reports, ?_,
      ⟨.inr rfl, .inr rfl, h.udp⟩, ?_⟩
    · rw [enterStateSpec_names h hp hempty]
      exact congrArg (Except.map _) hrun
    · rw [hreports]
      exact ⟨.inr, fun hbad => hbad.resolve_left hempty⟩

theorem enterStateSpec_udp (h : SpecInv ctx ms) (hp : protocolOf ss = some .udp) :
    (NoUdpName ss → ∃ ctx' reports, enterStateSpec ctx ss = .ok (ctx', reports) ∧ SpecInv ctx' ms ∧
        ∀ earlier, reports ≠ [] ↔ BadSpec .udp earlier ss) ∧
      (¬ NoUdpName ss → enterStateSpec ctx ss = .error .noName) := by
  by_cases hempty : ss.drop 4 = []
  · have hnames : NoUdpName ss := by
      intro _ item hitem
      rw [specItems_of_empty hempty] at hitem
      cases hitem
    refine ⟨fun _ => ⟨ctx, _, enterStateSpec_empty ctx hp hempty, h, ?_⟩, fun hno => absurd hnames hno⟩
    intro earlier
    exact iff_of_true (by simp) (.inl hempty)
  · have hrun := enterStateNames_udp ss (specItems ss) (marksOf 2 [])
    rw [← h.calloc_udp] at hrun
    rw [enterStateSpec_names h hp hempty]
    constructor
    · intro hnames
      rw [if_pos (hnames hp)] at hrun
      refine ⟨({ ctx with tables := linuxTables } : StateContext).setMarks (marksOf 2 []) .udp,
        (specItems ss).map fun _ => .nullName "UDP".toList ss, ?_, ⟨.inr rfl, h.tcp, .inr rfl⟩, ?_⟩
      · exact (congrArg (Except.map _) hrun).trans (by rw [h.calloc_udp]; rfl)
      intro earlier
      rw [badSpec_udp (hnames hp)]
      simp [hempty]
    · intro hno
      rw [if_neg fun hall => hno fun _ => hall] at hrun
      exact congrArg (Except.map _) hrun

/-- What is claimed of a run: it ends, each protocol has marked the states named for it,
and a value is reported on exactly when something in it is wrong. -/
def ExactRun (specs : List Text) : Prop :=
  ∃ ctx reports, enterStateSpecs specs {} = .ok (ctx, reports) ∧
    (∀ p x i, (ctx.marks p).has x i = true ↔ (x, i) ∈ mentions p specs) ∧
    ∀ p before ss after, specs = before ++ ss :: after → protocolOf ss = some p →
      (reports.getD before.length [] ≠ [] ↔ BadSpec p (mentions p before) ss)

theorem mentions_cons (p : StateProto) (ss : Text) (specs : List Text) :
    mentions p (ss :: specs) = (itemsFor p ss).filterMap (mention p) ++ mentions p specs := by
  rw [mentions, flatMap_cons, filterMap_append]
  rfl

theorem mention_lt {p : StateProto} {specs : List Text} {m : Bool × Nat} (h : m ∈ mentions p specs) :
    m.2 < p.slots.length := by
  rcases mem_filterMap.mp h with ⟨item, -, hitem⟩
  rcases Option.map_eq_some_iff.mp hitem with ⟨i, hi, rfl⟩
  exact stateNumber_lt hi

/-- The run from any point: by induction on the values, the marks those before it left. -/
theorem enterStateSpecs_run {specs : List Text} (hp : ∀ ss ∈ specs, (protocolOf ss).isSome)
    (hudp : ∀ ss ∈ specs, NoUdpName ss) {ctx : StateContext} {ms : List (Bool × Nat)} (h : SpecInv ctx ms) :
    ∃ ctx' reports, enterStateSpecs specs ctx = .ok (ctx', reports) ∧ SpecInv ctx' (ms ++ mentions .tcp specs) ∧
      ∀ p before ss after, specs = before ++ ss :: after → protocolOf ss = some p →
        (reports.getD before.length [] ≠ [] ↔ BadSpec p ((if p = .tcp then ms else []) ++ mentions p before) ss) := by
  induction specs generalizing ctx ms with
  | nil =>
    refine ⟨ctx, [], rfl, by simpa [mentions] using h, ?_⟩
    intro p before ss after hsplit
    exact absurd hsplit (by simp)
  | cons ss specs ih =>
    have hhead := hp ss (mem_cons_self ..)
    have hnames := hudp ss (mem_cons_self ..)
    have hrest := @ih (fun s hs => hp s (mem_cons_of_mem ss hs)) fun s hs => hudp s (mem_cons_of_mem ss hs)
    -- one value, whichever its protocol is
    have hstep : ∃ ctx₁ reports₁, enterStateSpec ctx ss = .ok (ctx₁, reports₁) ∧
        SpecInv ctx₁ (ms ++ (itemsFor .tcp ss).filterMap (mention .tcp)) ∧
        ∀ p, protocolOf ss = some p → (reports₁ ≠ [] ↔ BadSpec p (if p = .tcp then ms else []) ss) := by
      cases hproto : protocolOf ss with
      | none =>
        rw [hproto] at hhead
        cases hhead
      | some tx =>
        cases tx with
        | tcp =>
          rcases enterStateSpec_tcp h hproto with ⟨ctx₁, reports₁, hrun, hinv, hreports⟩
          refine ⟨ctx₁, reports₁, hrun, ?_, ?_⟩
          · rwa [itemsFor, if_pos hproto]
          · rintro p hp'
            cases hp'
            exact hreports
        | udp =>
          rcases (enterStateSpec_udp h hproto).1 hnames with ⟨ctx₁, reports₁, hrun, hinv, hreports⟩
          refine ⟨ctx₁, reports₁, hrun, ?_, ?_⟩
          · rw [itemsFor, if_neg (by rw [hproto]; decide), filterMap_nil, append_nil]
            exact hinv
          · rintro p hp'
            cases hp'
            exact hreports _
    rcases hstep with ⟨ctx₁, reports₁, hrun, hinv, hreports⟩
    rcases hrest hinv with ⟨ctx₂, reports₂, hrun₂, hinv₂, hreports₂⟩
    refine ⟨ctx₂, reports₁ :: reports₂, ?_, ?_, ?_⟩
    · rw [enterStateSpecs, hrun]
      dsimp only
      rw [hrun₂]
    · rw [mentions_cons, ← append_assoc]
      exact hinv₂
    · intro p before s after hsplit hs
      cases before with
      | nil =>
        rcases List.cons.inj hsplit with ⟨rfl, -⟩
        simpa [mentions] using hreports p hs
      | cons b before =>
        rcases List.cons.inj hsplit with ⟨rfl, htl⟩
        have hmore := hreports₂ p before s after htl hs
        rw [length_cons, getD_cons_succ, hmore, mentions_cons]
        cases p with
        | tcp => rw [if_pos rfl, if_pos rfl, append_assoc]
        | udp => simp only [reduceCtorEq, if_false, mentions_udp_of_noName hnames, nil_append]

theorem enterStateSpecs_noUdpName {specs : List Text} (hp : ∀ ss ∈ specs, (protocolOf ss).isSome)
    (h : SpecInv ctx ms) {r : StateContext × List (List StateReport)}
    (hrun : enterStateSpecs specs ctx = .ok r) : ∀ ss ∈ specs, NoUdpName ss := by
  induction specs generalizing ctx ms r with
  | nil =>
    intro ss hss
    cases hss
  | cons ss specs ih =>
    have hrest := fun s hs => hp s (mem_cons_of_mem ss hs)
    rw [enterStateSpecs] at hrun
    rw [forall_mem_cons]
    cases hproto : protocolOf ss with
    | none =>
      have hhead := hp ss (mem_cons_self ..)
      rw [hproto] at hhead
      cases hhead
    | some tx =>
      have hnames : NoUdpName ss := by
        by_contra hno
        cases tx with
        | tcp => exact hno fun hudp => by rw [hproto] at hudp; cases hudp
        | udp =>
          rw [(enterStateSpec_udp h hproto).2 hno] at hrun
          cases hrun
      refine ⟨hnames, ?_⟩
      have hstep : ∃ ctx₁ reports₁ ms₁, enterStateSpec ctx ss = .ok (ctx₁, reports₁) ∧ SpecInv ctx₁ ms₁ := by
        cases tx with
        | tcp =>
          rcases enterStateSpec_tcp h hproto with ⟨ctx₁, reports₁, hone, hinv, -⟩
          exact ⟨ctx₁, reports₁, _, hone, hinv⟩
        | udp =>
          rcases (enterStateSpec_udp h hproto).1 hnames with ⟨ctx₁, reports₁, hone, hinv, -⟩
          exact ⟨ctx₁, reports₁, _, hone, hinv⟩
      rcases hstep with ⟨ctx₁, reports₁, ms₁, hone, hinv⟩
      rw [hone] at hrun
      dsimp only at hrun
      cases hmore : enterStateSpecs specs ctx₁ with
      | error f =>
        rw [hmore] at hrun
        cases hrun
      | ok r' => exact ih hrest hinv hmore

/-- Every run of `-s` values is safe and exact as long as it gives no name for UDP. -/
theorem enterStateSpecs_exact_iff (specs : List Text) (hp : ∀ ss ∈ specs, (protocolOf ss).isSome) :
    ExactRun specs ↔ ∀ ss ∈ specs, NoUdpName ss := by
  have hstart : SpecInv {} [] := ⟨.inl rfl, .inl ⟨rfl, rfl⟩, .inl rfl⟩
  constructor
  · rintro ⟨ctx, reports, hrun, -⟩
    exact enterStateSpecs_noUdpName hp hstart hrun
  · intro hudp
    rcases enterStateSpecs_run hp hudp hstart with ⟨ctx, reports, hrun, hinv, hreports⟩
    refine ⟨ctx, reports, hrun, ?_, ?_⟩
    · intro p x i
      cases p with
      | tcp =>
        rcases hinv.tcp with ⟨htcp, hms⟩ | htcp
        · rw [nil_append] at hms
          rw [hms, StateContext.marks, htcp]
          cases x <;> simp [StateMarks.has]
        · rw [nil_append] at htcp
          rw [StateContext.marks, htcp]
          exact has_marksOf (fun m hm => mention_lt hm) x i
      | udp =>
        have hnone : mentions .udp specs = [] := by
          rw [mentions, filterMap_flatMap, flatMap_eq_nil_iff]
          intro ss hss
          exact mentions_udp_of_noName (hudp ss hss)
        rw [hnone, StateContext.marks]
        rcases hinv.udp with hu | hu
        · rw [hu]
          cases x <;> simp [StateMarks.has]
        · rw [hu]
          exact has_marksOf (by simp) x i
    · intro p before ss after hsplit hss
      have hreport := hreports p before ss after hsplit hss
      rwa [ite_self, nil_append] at hreport

/-- `-s udp:established` compares the name with NULL. -/
theorem udpEstablished_faults : enterStateSpecs ["udp:established".toList] {} = .error .noName := by
  decide +kernel

theorem tcpListen_exact : ExactRun ["TCP:listen,^close".toList, "tcp:LISTEN".toList] := by
  refine (enterStateSpecs_exact_iff _ (by decide +kernel)).mpr ?_
  intro ss hss hudp
  exact absurd hudp (by revert ss; decide +kernel)

end Lsof.Original
