import Lsof.Basis.Framing
import Lsof.Cli.IdLists
import Lsof.Original.ProcSelect

/-! # The `-d` list in both programs

`enter_fd()` walks a value with pointers; lsof-rs splits it at its commas. Over any
number of values both refuse the same items, and what is left selects the same
descriptors.
-/

namespace Lsof.Original

open Lsof.Basis Lsof.Core List

/-- What the inner loop of `enter_fd` finds: an item, the place of its last dash, and
what follows the comma after it, if one does. -/
structure FdScan where
  body : Text
  dash : Option Nat
  rest : Option Text
  deriving DecidableEq, Repr

def scanFd (place : Nat) (dash : Option Nat) : Text → FdScan
  | [] => { body := [], dash, rest := none }
  | c :: t =>
    if c = ',' then { body := [], dash, rest := some t }
    else
      let scanned := scanFd (place + 1) (if c = '-' then some place else dash) t
      { scanned with body := c :: scanned.body }

theorem length_rest_scanFd {place : Nat} {dash : Option Nat} {t rest : Text}
    (h : (scanFd place dash t).rest = some rest) : rest.length < t.length := by
  induction t generalizing place dash with
  | nil => cases h
  | cons c t ih =>
    unfold scanFd at h
    split at h
    · cases h
      simp
    · exact Nat.lt_succ_of_lt (ih h)

/-- Whether the character at the front is the mark of an exclusion, and what is read
after it. -/
def skipMark : Text → Bool × Text
  | [] => (false, [])
  | c :: t => if c = '^' then (true, t) else (false, c :: t)

theorem length_skipMark (t : Text) : (skipMark t).2.length ≤ t.length := by
  unfold skipMark
  split
  · exact Nat.le_refl _
  · split
    · simp
    · exact Nat.le_refl _

def fdItems (value : Text) : List (Bool × FdScan) :=
  if value.isEmpty then []
  else
    ((skipMark value).1, scanFd 0 none (skipMark value).2) ::
      match _h : (scanFd 0 none (skipMark value).2).rest with
      | none => []
      | some rest => fdItems rest
termination_by value.length
decreasing_by exact Nat.lt_of_lt_of_le (length_rest_scanFd _h) (length_skipMark value)

/-- The number that digits make; nothing where a character is none. -/
def sumDigits : Nat → Text → Option Nat
  | n, [] => some n
  | n, c :: t => if c.isDigit then sumDigits (n * 10 + (c.toNat - '0'.toNat)) t else none

/-- Why an item is refused. -/
inductive FdError where
  /-- illegal FD range for -d -/
  | illegalRange
  /-- non-digit in -d FD range -/
  | nonDigit
  /-- -d FD range's low >= its high -/
  | lowAtHigh
  /-- an exclusion in a list of inclusions, or the other way -/
  | mixed
  /-- invalid fd type given in -d option -/
  | invalidType
  deriving DecidableEq, Repr

def ckfdRange (first : Text) (dash : Nat) : Except FdError (Nat × Nat) :=
  if dash = 0 ∨ first.length ≤ dash then .error .illegalRange
  else
    match sumDigits 0 (first.take dash), sumDigits 0 (first.drop (dash + 1)) with
    | some lo, some hi => if lo ≥ hi then .error .lowAtHigh else .ok (lo, hi)
    | _, _ => .error .nonDigit

def fdItemOf (scan : FdScan) : Except FdError FdItem :=
  match scan.dash with
  | some dash => (ckfdRange scan.body dash).map (fun ends => .range ends.1 ends.2)
  | none => .ok ((sumDigits 0 scan.body).elim (.name scan.body) .number)

structure FdState where
  ctx : Context := {}
  err : Bool := false
  deriving DecidableEq, Repr

def enterFdItem (st : FdState) (item : Bool × FdScan) : FdState × Option FdError :=
  if item.2.body.isEmpty then (st, none)
  else
    match fdItemOf item.2 with
    | .error _ => ({ st with err := true }, none)
    | .ok fd =>
      match enterFdLst st.ctx fd item.1 with
      | some ctx => ({ st with ctx }, none)
      | none =>
        if st.ctx.fdlTy == some (!item.1) then ({ st with err := true }, none)
        else (st, some .invalidType)

def enterFd (st : FdState) (value : Text) : FdState × Option FdError :=
  if value.isEmpty then ({ st with err := true }, none) else foldUntil enterFdItem (fdItems value) st

/-- The item, where it is refused: the function returns 1 for it, or ends the program. -/
def refusedFd (st : FdState) (item : Bool × FdScan) : List (Bool × Text) :=
  let entered := enterFdItem { st with err := false } item
  if entered.1.err || entered.2.isSome then [(item.1, item.2.body)] else []

def refusedFds (st : FdState) (value : Text) : List (Bool × Text) :=
  outputsUntil enterFdItem refusedFd (fdItems value) st

end Lsof.Original

namespace Lsof.Cli

open Lsof.Basis Lsof.Core List

section Refused

variable (q : Quotes)

def heldFds (st : ListState) : Nat :=
  ((st.sel.fdFilter.map fun f => f.include.length + f.exclude.length)).getD 0

/-- The item, where it says something and the filter holds no more for it. -/
def refusedFd (quiet : Bool) (st : ListState) (item : Text) : List (Bool × Text) :=
  if (unmarked '^' item).2.isEmpty then []
  else if heldFds (enterFdItem q quiet st item).1 = heldFds st then [unmarked '^' item]
  else []

def refusedFds (st : ListState) (value : Text × Bool) : List (Bool × Text) :=
  outputsUntil (enterFdItem q value.2) (refusedFd q value.2) (value.1.splitOn ',') st

/-- One `-d` value, and whether a mixed list is refused in silence by then. -/
def enterFdValue (st : ListState) (value : Text × Bool) : ListState × Option Text :=
  enterFdList q value.2 st value.1

end Refused

end Lsof.Cli

namespace Lsof.Original

open Lsof.Basis Lsof.Core List

/-- An item as lsof-rs has it, and as `enter_fd` does. -/
structure SameItem (item : Text) (scanned : Bool × FdScan) : Prop where
  body : Cli.unmarked '^' item = (scanned.1, scanned.2.body)
  dash : scanned.2.dash = (Text.splitLast '-' scanned.2.body).map (fun halves => halves.1.length)

theorem scanFd_body_rest (place : Nat) (dash : Option Nat) (t : Text) :
    ',' ∉ (scanFd place dash t).body ∧
      t = (scanFd place dash t).body ++ ((scanFd place dash t).rest.map (fun rest => ',' :: rest)).getD [] := by
  induction t generalizing place dash with
  | nil => simp [scanFd]
  | cons c t ih =>
    unfold scanFd
    split
    · rename_i hc
      simp [hc]
    · rename_i hc
      have hrest := ih (place + 1) (if c = '-' then some place else dash)
      dsimp only
      constructor
      · simp only [mem_cons, not_or]
        exact ⟨Ne.symm hc, hrest.1⟩
      · rw [cons_append, ← hrest.2]

theorem scanFd_dash (place : Nat) (dash : Option Nat) (t : Text) :
    (scanFd place dash t).dash =
      ((Text.splitLast '-' (scanFd place dash t).body).map (fun halves => place + halves.1.length)).or dash := by
  induction t generalizing place dash with
  | nil => simp [scanFd, Text.splitLast]
  | cons c t ih =>
    unfold scanFd
    split
    · simp [Text.splitLast]
    · dsimp only
      rw [ih, Text.splitLast_cons]
      cases Text.splitLast '-' (scanFd (place + 1) (if c = '-' then some place else dash) t).body with
      | some halves => simp [Nat.add_assoc, Nat.add_comm 1]
      | none =>
        by_cases hc : c = '-'
        · simp [hc]
        · simp [hc]

def spelledItem (item : Bool × FdScan) : Text := (if item.1 then ['^'] else []) ++ item.2.body

def firstItem (value : Text) : Bool × FdScan := ((skipMark value).1, scanFd 0 none (skipMark value).2)

theorem fdItems_of_ne {value : Text} (h : value ≠ []) :
    fdItems value = firstItem value :: ((firstItem value).2.rest.map fdItems).getD [] := by
  rw [fdItems, if_neg (by simpa using h)]
  unfold firstItem
  split
  · rename_i hrest
    simp [hrest]
  · rename_i rest hrest
    simp [hrest]

theorem firstItem_spelled (value : Text) :
    ',' ∉ spelledItem (firstItem value) ∧
      value = spelledItem (firstItem value) ++ ((firstItem value).2.rest.map (fun rest => ',' :: rest)).getD [] := by
  have hscan := scanFd_body_rest 0 none (skipMark value).2
  have hvalue : value = (if (skipMark value).1 then ['^'] else []) ++ (skipMark value).2 := by
    unfold skipMark
    cases value with
    | nil => rfl
    | cons c t => by_cases hc : c = '^' <;> simp [hc]
  unfold spelledItem firstItem
  constructor
  · cases (skipMark value).1 with
    | false => simpa using hscan.1
    | true => simpa using hscan.1
  · rw [append_assoc, ← hscan.2]
    exact hvalue

theorem firstItem_same (value : Text) : SameItem (spelledItem (firstItem value)) (firstItem value) where
  body := by
    unfold spelledItem firstItem
    cases value with
    | nil => rfl
    | cons c t =>
      by_cases hc : c = '^'
      · simp [skipMark, hc, Cli.unmarked]
      · by_cases hcomma : c = ','
        · simp [skipMark, scanFd, hcomma, Cli.unmarked]
        · simp [skipMark, scanFd, hc, hcomma, Cli.unmarked]
  dash := by
    have hdash := scanFd_dash 0 none (skipMark value).2
    simpa [firstItem] using hdash

theorem splitOn_eq_fdItems (value : Text) :
    ∃ items idle, value.splitOn ',' = items ++ idle ∧ (∀ item ∈ idle, item = []) ∧
      List.Forall₂ SameItem items (fdItems value) := by
  induction hn : value.length using Nat.strong_induction_on generalizing value with
  | _ n ih =>
    by_cases hnil : value = []
    · refine ⟨[], [[]], ?_, by simp, ?_⟩
      · simp [hnil]
      · rw [hnil, fdItems]
        exact List.Forall₂.nil
    · have hspelled := firstItem_spelled value
      have hsame := firstItem_same value
      rw [fdItems_of_ne hnil]
      cases hrest : (firstItem value).2.rest with
      | none =>
        rw [hrest] at hspelled
        refine ⟨[spelledItem (firstItem value)], [], ?_, by simp, ?_⟩
        · have hwhole : value = spelledItem (firstItem value) := by simpa using hspelled.2
          rw [← hwhole] at hspelled ⊢
          exact splitOn_of_not_mem hspelled.1
        · exact List.Forall₂.cons hsame List.Forall₂.nil
      | some rest =>
        rw [hrest] at hspelled
        have hvalue : value = spelledItem (firstItem value) ++ ',' :: rest := by simpa using hspelled.2
        have hlt : rest.length < n := by
          rw [← hn, hvalue]
          simp
          omega
        rcases ih rest.length hlt rest rfl with ⟨items, idle, hsplit, hidle, hitems⟩
        refine ⟨spelledItem (firstItem value) :: items, idle, ?_, hidle, ?_⟩
        · rw [cons_append, ← hsplit]
          conv_lhs => rw [hvalue]
          exact splitOn_token hspelled.1 rest
        · exact List.Forall₂.cons hsame hitems

def INT_MAX : Nat := 2 ^ 31 - 1

/-- The numbers of an item, the ends of its range among them, are within an `int`. -/
def ItemFits (item : Text) : Prop :=
  ∀ part ∈ (Cli.unmarked '^' item).2.splitOn '-', Text.isDigits part = true → Text.digitsValue part ≤ INT_MAX

def NumbersFit (value : Text) : Prop := ∀ item ∈ value.splitOn ',', ItemFits item

instance (item : Text) : Decidable (ItemFits item) :=
  inferInstanceAs (Decidable (∀ part ∈ (Cli.unmarked '^' item).2.splitOn '-', _ → _))

instance (value : Text) : Decidable (NumbersFit value) :=
  inferInstanceAs (Decidable (∀ item ∈ value.splitOn ',', ItemFits item))

theorem sumDigits_eq (n : Nat) (t : Text) :
    sumDigits n t =
      if Text.isDigits t then some (t.foldl (fun n c => 10 * n + (c.toNat - '0'.toNat)) n) else none := by
  induction t generalizing n with
  | nil => rfl
  | cons c t ih =>
    rw [sumDigits, ih, Nat.mul_comm n 10, foldl_cons]
    cases hc : c.isDigit with
    | false => simp [Text.isDigits, hc]
    | true => simp [Text.isDigits, hc]

theorem sumDigits_zero (t : Text) :
    sumDigits 0 t = if Text.isDigits t then some (Text.digitsValue t) else none := sumDigits_eq 0 t

theorem le_foldl_digits (n : Nat) (t : Text) : n ≤ t.foldl (fun n c => 10 * n + (c.toNat - '0'.toNat)) n := by
  induction t generalizing n with
  | nil => exact Nat.le_refl n
  | cons c t ih =>
    have hnext := ih (10 * n + (c.toNat - '0'.toNat))
    rw [foldl_cons]
    omega

theorem fdNumber_of_le (q : Cli.Quotes) {digits : Text} (item : Text) (h : Text.digitsValue digits ≤ INT_MAX) :
    Cli.fdNumber q digits item = .ok (Text.digitsValue digits) := by
  have hsum : ∀ n, digits.foldl (fun n c => 10 * n + (c.toNat - '0'.toNat)) n ≤ INT_MAX →
      digits.foldlM (fun n c =>
        let n := n * 10 + (c.toNat - '0'.toNat)
        if n ≤ 2 ^ 31 - 1 then some n else none) n =
        some (digits.foldl (fun n c => 10 * n + (c.toNat - '0'.toNat)) n) := by
    clear h
    induction digits with
    | nil => simp
    | cons c t ih =>
      intro n hn
      rw [foldl_cons] at hn
      have hle := le_foldl_digits (10 * n + (c.toNat - '0'.toNat)) t
      rw [foldlM_cons, foldl_cons]
      simp only [Nat.mul_comm n 10]
      have hbound : 10 * n + (c.toNat - '0'.toNat) ≤ 2 ^ 31 - 1 := Nat.le_trans hle hn
      rw [if_pos hbound]
      exact ih _ hn
  unfold Cli.fdNumber
  rw [hsum 0 h]
  rfl

theorem ckfdRange_halves {body : Text} {halves : Text × Text} (h : Text.splitLast '-' body = some halves) :
    ckfdRange body halves.1.length =
      if halves.1.isEmpty then .error .illegalRange
      else if Text.isDigits halves.1 ∧ Text.isDigits halves.2 then
        if Text.digitsValue halves.1 ≥ Text.digitsValue halves.2 then .error .lowAtHigh
        else .ok (Text.digitsValue halves.1, Text.digitsValue halves.2)
      else .error .nonDigit := by
  have hbody := Text.eq_of_splitLast h
  have htake : body.take halves.1.length = halves.1 := by
    rw [hbody, take_left]
  have hdrop : body.drop (halves.1.length + 1) = halves.2 := by
    rw [hbody, drop_append]
    simp
  have hlong : ¬ body.length ≤ halves.1.length := by
    rw [hbody]
    simp
  unfold ckfdRange
  rw [htake, hdrop, sumDigits_zero, sumDigits_zero]
  by_cases hempty : halves.1 = []
  · simp [hempty]
  · have hlen : halves.1.length ≠ 0 := fun hzero => hempty (length_eq_zero_iff.mp hzero)
    rw [if_neg (by simp [hlen, hlong])]
    by_cases hlo : Text.isDigits halves.1 = true
    · by_cases hhi : Text.isDigits halves.2 = true
      · simp [hlo, hhi, hempty]
      · simp [hlo, hhi, hempty]
    · simp [hlo, hempty]

theorem dash_not_mem_of_isDigits {t : Text} (h : Text.isDigits t = true) : '-' ∉ t := by
  intro hmem
  have hdigit := all_eq_true.mp h '-' hmem
  cases hdigit

theorem fdRange_agrees (q : Cli.Quotes) {item body : Text} (hbody : (Cli.unmarked '^' item).2 = body)
    (hfit : ItemFits item) {halves : Text × Text} (h : Text.splitLast '-' body = some halves) :
    (Cli.fdRange q body halves).toOption = (ckfdRange body halves.1.length).toOption := by
  rw [ckfdRange_halves h]
  unfold Cli.fdRange
  by_cases hempty : halves.1 = []
  · simp [hempty, Except.toOption]
  · rw [if_neg (by simpa using hempty), if_neg (by simpa using hempty)]
    by_cases hlo : Text.isDigits halves.1 = true
    · by_cases hhi : Text.isDigits halves.2 = true
      · -- Both ends are numbers, and the item has no other part.
        have hparts : (Cli.unmarked '^' item).2.splitOn '-' = [halves.1, halves.2] := by
          rw [hbody, Text.eq_of_splitLast h, splitOn_token (dash_not_mem_of_isDigits hlo),
            splitOn_of_not_mem (dash_not_mem_of_isDigits hhi)]
        have hlofit := hfit halves.1 (by simp [hparts]) hlo
        have hhifit := hfit halves.2 (by simp [hparts]) hhi
        simp only [Cli.fdRangeEnd, hlo, hhi, if_true, fdNumber_of_le q body hlofit,
          fdNumber_of_le q body hhifit, true_and]
        by_cases hge : Text.digitsValue halves.1 ≥ Text.digitsValue halves.2
        · simp [hge, bind, Except.bind, Except.toOption]
        · simp [hge, bind, Except.bind, Except.toOption]
      · cases hnumber : Cli.fdNumber q halves.1 body with
        | ok lo => simp [Cli.fdRangeEnd, hlo, hhi, hnumber, bind, Except.bind, Except.toOption]
        | error e => simp [Cli.fdRangeEnd, hlo, hhi, hnumber, bind, Except.bind, Except.toOption]
    · simp [Cli.fdRangeEnd, hlo, bind, Except.bind, Except.toOption]

variable {spec : FdSpec}

theorem mem_fdNames_of_read {nm : Text} (h : Cli.fdNamed nm = some spec) : nm ∈ fdNames.map Prod.fst := by
  by_contra hno
  simp only [fdNames, map_cons, map_nil, mem_cons, not_mem_nil, or_false, not_or] at hno
  have hother : Cli.otherDialectsFdNames.contains nm = false := by
    simp only [Cli.otherDialectsFdNames, contains_eq_mem, mem_cons, not_mem_nil, or_false, hno, decide_false]
  simp only [Cli.fdNamed, hno, hother, if_false, Bool.false_eq_true, reduceCtorEq] at h

theorem fdSpecOf_eq_none_iff (fd : FdItem) : Cli.fdSpecOf fd = none ↔ fdEntryOf fd = none := by
  cases fd with
  | number n => simp [Cli.fdSpecOf, fdEntryOf]
  | range lo hi => simp [Cli.fdSpecOf, fdEntryOf]
  | name nm =>
    simp only [Cli.fdSpecOf, fdEntryOf]
    by_cases hmem : nm ∈ fdNames.map Prod.fst
    · rcases mem_map.mp hmem with ⟨row, hrow, hname⟩
      have hentered := fdNames_entered row hrow
      rw [hname] at hentered
      simp [hentered]
    · have hread : Cli.fdNamed nm = none :=
        Option.eq_none_iff_forall_ne_some.mpr fun spec hs => hmem (mem_fdNames_of_read hs)
      have hentry : fdNamed nm = none :=
        Option.eq_none_iff_forall_ne_some.mpr fun e he => hmem (mem_fdNames he)
      simp [hread, hentry]

variable {scanned : Bool × FdScan} {item : Text}

/-- What lsof-rs makes of an item that `ckfd_range` lets pass. -/
theorem fdSpecRead_agrees (q : Cli.Quotes) (hsame : SameItem item scanned) (hfit : ItemFits item) :
    (∃ e why, Cli.fdRangeOf q scanned.2.body = .error e ∧ fdItemOf scanned.2 = .error why) ∨
      ∃ range fd, Cli.fdRangeOf q scanned.2.body = .ok range ∧ fdItemOf scanned.2 = .ok fd ∧
        Cli.fdSpecRead q range scanned.2.body =
          (Cli.fdSpecOf fd).elim (.error (.kind "invalid fd type given in -d option".toList)) .ok := by
  have hbody : (Cli.unmarked '^' item).2 = scanned.2.body := by rw [hsame.body]
  unfold Cli.fdRangeOf fdItemOf
  rw [hsame.dash]
  cases hsplit : Text.splitLast '-' scanned.2.body with
  | some halves =>
    have hagree := fdRange_agrees q hbody hfit hsplit
    simp only [Option.map_some]
    cases hrust : Cli.fdRange q scanned.2.body halves with
    | error e =>
      cases hck : ckfdRange scanned.2.body halves.1.length with
      | error why => exact Or.inl ⟨e, why, rfl, rfl⟩
      | ok ends => simp [hrust, hck, Except.toOption] at hagree
    | ok ends =>
      cases hck : ckfdRange scanned.2.body halves.1.length with
      | error why => simp [hrust, hck, Except.toOption] at hagree
      | ok ends' =>
        have hends : ends = ends' := by simpa [hrust, hck, Except.toOption] using hagree
        exact Or.inr ⟨some ends, .range ends.1 ends.2, rfl, by rw [hends]; rfl, rfl⟩
  | none =>
    have hwhole : scanned.2.body.splitOn '-' = [scanned.2.body] :=
      splitOn_of_not_mem (Text.splitLast_eq_none.mp hsplit)
    simp only [Option.map_none, sumDigits_zero]
    apply Or.inr
    by_cases hdigits : Text.isDigits scanned.2.body = true
    · have hvalue := hfit scanned.2.body (by simp [hbody, hwhole]) hdigits
      refine ⟨none, .number (Text.digitsValue scanned.2.body), rfl, by simp [hdigits], ?_⟩
      simp [Cli.fdSpecRead, hdigits, fdNumber_of_le q _ hvalue, Cli.fdSpecOf]
    · refine ⟨none, .name scanned.2.body, rfl, by simp [hdigits], ?_⟩
      simp only [Cli.fdSpecRead, hdigits, Cli.fdSpecOf]
      cases Cli.fdNamed scanned.2.body with
      | none => rfl
      | some spec => rfl

variable {filter : Option FdFilter} {ctx : Context}

theorem excluding_of_agree (h : FdAgree ctx filter) : Cli.excluding (filter.getD {}) = ctx.fdlTy := by
  unfold FdAgree at h
  cases hty : ctx.fdlTy with
  | none =>
    rw [hty] at h
    simp [h.2, Cli.excluding]
  | some excl =>
    rw [hty] at h
    rcases h with ⟨_, specs, hspecs, hfilter, _⟩
    cases excl <;> simp [hfilter, Cli.excluding, hspecs]

variable {excl : Bool}

theorem filter_of_agree (h : FdAgree ctx filter) (hty : ctx.fdlTy = some excl) : some (filter.getD {}) = filter := by
  unfold FdAgree at h
  rw [hty] at h
  rcases h with ⟨_, specs, _, hfilter, _⟩
  rw [hfilter]
  rfl

theorem enterFd_of_spec {fd : FdItem}
    (hspec : Cli.fdSpecOf fd = some spec) (hmix : Cli.excluding (filter.getD {}) ≠ some (!excl)) :
    Cli.enterFd filter fd excl = some (Cli.pushFdSpec (filter.getD {}) excl spec) := by
  unfold Cli.enterFd
  dsimp only
  have hkind : (Cli.excluding (filter.getD {}) == some (!excl)) = false := by simpa using hmix
  unfold Cli.excluding at hkind
  rw [hkind, hspec]
  rfl

theorem enterFdLst_eq_none_iff {fd : FdItem} :
    enterFdLst ctx fd excl = none ↔ ctx.fdlTy = some (!excl) ∨ fdEntryOf fd = none := by
  unfold enterFdLst
  by_cases hmix : ctx.fdlTy = some (!excl)
  · simp [hmix]
  · rw [if_neg (by simpa using hmix)]
    cases fdEntryOf fd with
    | none => simp
    | some f =>
      dsimp only
      split <;> simp [hmix]

/-- What an item that says something comes to, in both programs: it is refused, it is
entered, or it ends them. -/
theorem enterFdItem_cases (q : Cli.Quotes) (quiet : Bool) {st : Cli.ListState} {c : FdState}
    (h : FdAgree c.ctx st.sel.fdFilter) (hsame : SameItem item scanned)
    (hfit : ItemFits item) (hne : scanned.2.body ≠ []) :
    (∃ st', Cli.enterFdItem q quiet st item = (st', none) ∧ st'.sel.fdFilter = st.sel.fdFilter ∧
        enterFdItem c scanned = ({ c with err := true }, none)) ∨
      (∃ st' ctx spec, Cli.enterFdItem q quiet st item = (st', none) ∧
        st'.sel.fdFilter = some (Cli.pushFdSpec (st.sel.fdFilter.getD {}) scanned.1 spec) ∧
        enterFdItem c scanned = ({ c with ctx }, none) ∧ FdAgree ctx st'.sel.fdFilter) ∨
      (∃ st' e, Cli.enterFdItem q quiet st item = (st', some e) ∧
        st'.sel.fdFilter = some (st.sel.fdFilter.getD {}) ∧ enterFdItem c scanned = (c, some .invalidType)) := by
  have hexcluding := excluding_of_agree h
  unfold Cli.enterFdItem enterFdItem
  rw [hsame.body]
  dsimp only
  rw [if_neg (by simpa using hne), if_neg (by simpa using hne)]
  rcases fdSpecRead_agrees q hsame hfit with ⟨e, why, hrust, hck⟩ | ⟨range, fd, hrust, hck, hspecs⟩
  · rw [hrust, hck]
    exact Or.inl ⟨_, rfl, rfl, rfl⟩
  · rw [hrust, hck, hexcluding]
    dsimp only
    by_cases hmix : c.ctx.fdlTy = some (!scanned.1)
    · -- The list is of the other kind, and its filter is there.
      have hfilter := filter_of_agree h hmix
      have hrefused := enterFdLst_eq_none_iff.mpr (Or.inl hmix : _ ∨ fdEntryOf fd = none)
      have hother : ((some (!scanned.1)).filter fun was => was != scanned.1) = some (!scanned.1) := by
        cases scanned.1 <;> rfl
      rw [hmix, hother, hrefused]
      apply Or.inl
      cases quiet with
      | false => exact ⟨_, rfl, hfilter, by simp⟩
      | true => exact ⟨_, rfl, hfilter, by simp⟩
    · have hkind : (c.ctx.fdlTy.filter fun was => was != scanned.1) = none := by
        cases hty : c.ctx.fdlTy with
        | none => rfl
        | some was =>
          rw [hty] at hmix
          cases was <;> cases hx : scanned.1 <;> simp [hx] at hmix ⊢
      have hsame' : (c.ctx.fdlTy == some (!scanned.1)) = false := by simpa using hmix
      rw [hkind, hspecs]
      apply Or.inr
      cases hspec : Cli.fdSpecOf fd with
      | none =>
        have hentry := (fdSpecOf_eq_none_iff fd).mp hspec
        rw [enterFdLst_eq_none_iff.mpr (Or.inr hentry)]
        exact Or.inr ⟨_, _, rfl, rfl, by simp [hsame']⟩
      | some spec =>
        have hentered := enterFd_of_spec hspec (hexcluding ▸ hmix)
        cases hctx : enterFdLst c.ctx fd scanned.1 with
        | none =>
          rcases enterFdLst_eq_none_iff.mp hctx with hother | hentry
          · exact absurd hother hmix
          · rw [(fdSpecOf_eq_none_iff fd).mpr hentry] at hspec
            cases hspec
        | some ctx => exact Or.inl ⟨_, ctx, spec, rfl, rfl, rfl, h.enterFd hctx hentered⟩

def SameFds (st : Cli.ListState) (c : FdState) : Prop := FdAgree c.ctx st.sel.fdFilter

/-- The same item, whose numbers are within an `int`. -/
def ReadAlike (item : Text) (scanned : Bool × FdScan) : Prop := ItemFits item ∧ SameItem item scanned

theorem enterFdItem_empty (hsame : SameItem item scanned)
    (hnil : scanned.2.body = []) (q : Cli.Quotes) (quiet : Bool) (st : Cli.ListState) (c : FdState) :
    Cli.enterFdItem q quiet st item = (st, none) ∧ enterFdItem c scanned = (c, none) := by
  constructor
  · simp [Cli.enterFdItem, hsame.body, hnil]
  · simp [enterFdItem, hnil]

theorem enterFdItem_alike (q : Cli.Quotes) (quiet : Bool) (st : Cli.ListState) (c : FdState) (item : Text)
    (scanned : Bool × FdScan) (h : SameFds st c) (hread : ReadAlike item scanned) :
    Alike SameFds (Cli.enterFdItem q quiet st item) (enterFdItem c scanned) := by
  by_cases hnil : scanned.2.body = []
  · have hempty := enterFdItem_empty hread.2 hnil q quiet st c
    rw [hempty.1, hempty.2]
    exact Alike.goes h
  · rcases enterFdItem_cases q quiet h hread.2 hread.1 hnil with
      ⟨st', hrust, hfilter, hc⟩ | ⟨st', ctx, spec, hrust, _, hc, hagree⟩ | ⟨st', e, hrust, _, hc⟩
    · rw [hrust, hc]
      apply Alike.goes
      unfold SameFds
      rw [hfilter]
      exact h
    · rw [hrust, hc]
      exact Alike.goes hagree
    · rw [hrust, hc]
      exact Alike.ends st' c e FdError.invalidType

theorem heldFds_push {st st' : Cli.ListState}
    (h : st'.sel.fdFilter = some (Cli.pushFdSpec (st.sel.fdFilter.getD {}) excl spec)) :
    Cli.heldFds st' = Cli.heldFds st + 1 := by
  unfold Cli.heldFds Cli.pushFdSpec at *
  rw [h]
  cases st.sel.fdFilter with
  | none => cases excl <;> rfl
  | some f =>
    cases excl with
    | false => simp; omega
    | true => simp; omega

theorem refusedFd_alike (q : Cli.Quotes) (quiet : Bool) (st : Cli.ListState) (c : FdState) (item : Text)
    (scanned : Bool × FdScan) (h : SameFds st c) (hread : ReadAlike item scanned) :
    Cli.refusedFd q quiet st item = refusedFd c scanned := by
  unfold Cli.refusedFd refusedFd
  dsimp only
  rw [hread.2.body]
  by_cases hnil : scanned.2.body = []
  · simp [hnil, enterFdItem]
  · rw [if_neg (by simpa using hnil)]
    have hcleared : SameFds st { c with err := false } := h
    rcases enterFdItem_cases q quiet hcleared hread.2 hread.1 hnil with
      ⟨st', hrust, hfilter, hc⟩ | ⟨st', ctx, spec, hrust, hfilter, hc, _⟩ | ⟨st', e, hrust, hfilter, hc⟩
    · have hheld : Cli.heldFds st' = Cli.heldFds st := by rw [Cli.heldFds, hfilter, Cli.heldFds]
      simp [hrust, hc, hheld]
    · have hheld := heldFds_push hfilter
      simp [hrust, hc, hheld]
    · have hheld : Cli.heldFds st' = Cli.heldFds st := by
        rw [Cli.heldFds, hfilter, Cli.heldFds]
        cases st.sel.fdFilter <;> rfl
      simp [hrust, hc, hheld]

theorem readAlike_items {value : Text} (h : NumbersFit value) :
    ∃ items idle, value.splitOn ',' = items ++ idle ∧ (∀ item ∈ idle, item = []) ∧
      List.Forall₂ ReadAlike items (fdItems value) := by
  rcases splitOn_eq_fdItems value with ⟨items, idle, hsplit, hidle, hitems⟩
  refine ⟨items, idle, hsplit, hidle, ?_⟩
  apply (forall₂_and_left _ _).mpr
  constructor
  · intro item hitem
    apply h
    rw [hsplit]
    exact mem_append_left idle hitem
  · exact hitems

def SameValue (value : Text × Bool) (given : Text) : Prop := NumbersFit given ∧ value.1 = given

theorem enterFdItem_idle (q : Cli.Quotes) (quiet : Bool) (st : Cli.ListState) :
    Cli.enterFdItem q quiet st [] = (st, none) ∧ Cli.refusedFd q quiet st [] = [] := by
  constructor
  · rfl
  · rfl

theorem enterFdValue_alike (q : Cli.Quotes) (st : Cli.ListState) (c : FdState) (value : Text × Bool) (given : Text)
    (h : SameFds st c) (hsame : SameValue value given) :
    Alike SameFds (Cli.enterFdValue q st value) (enterFd c given) := by
  unfold Cli.enterFdValue Cli.enterFdList enterFd
  rw [hsame.2]
  by_cases hnil : given = []
  · simp only [hnil, isEmpty_nil, if_true]
    exact Alike.goes h
  · rw [if_neg (by simpa using hnil), if_neg (by simpa using hnil)]
    rcases readAlike_items hsame.1 with ⟨items, idle, hsplit, hidle, hitems⟩
    rw [hsplit, foldUntil_append_idle]
    · exact foldUntil_alike (enterFdItem_alike q value.2) hitems h
    · intro st item hitem
      rw [hidle item hitem]
      exact (enterFdItem_idle q value.2 st).1

theorem refusedFds_alike (q : Cli.Quotes) (st : Cli.ListState) (c : FdState) (value : Text × Bool) (given : Text)
    (h : SameFds st c) (hsame : SameValue value given) : Cli.refusedFds q st value = refusedFds c given := by
  unfold Cli.refusedFds refusedFds
  rw [hsame.2]
  rcases readAlike_items hsame.1 with ⟨items, idle, hsplit, hidle, hitems⟩
  rw [hsplit, outputsUntil_append_idle]
  · exact outputsUntil_alike (enterFdItem_alike q value.2) (refusedFd_alike q value.2) hitems h
  · intro st item hitem
    rw [hidle item hitem]
    exact enterFdItem_idle q value.2 st

def enterFdValues (values : List Text) : FdState × Option FdError := foldUntil enterFd values {}

/-- The items that `ckfd_range` and `enter_fd_lst` refuse. -/
def refusedItems (values : List Text) : List (Bool × Text) := outputsUntil enterFd refusedFds values {}

def readFdValues (q : Cli.Quotes) (early : Cli.Early) (values : List (Text × Bool)) : Cli.ListState × Option Text :=
  foldUntil (Cli.enterFdValue q) values { early }

/-- The items that `enter_fd_list` refuses. -/
def readRefusedItems (q : Cli.Quotes) (early : Cli.Early) (values : List (Text × Bool)) : List (Bool × Text) :=
  outputsUntil (Cli.enterFdValue q) (Cli.refusedFds q) values { early }

theorem sameValues {values : List (Text × Bool)} (h : ∀ value ∈ values, NumbersFit value.1) :
    List.Forall₂ SameValue values (values.map Prod.fst) := by
  apply forall₂_map_right_iff.mpr
  apply forall₂_same.mpr
  intro value hvalue
  exact ⟨h value hvalue, rfl⟩

/-- Over any `-d` values whose numbers are within an `int`, both programs refuse the same
items and stop at the same name; and where they do not stop, the filter matches a
descriptor exactly when the C's file starts with `SELFD`. -/
theorem fdValues_select_alike (q : Cli.Quotes) (early : Cli.Early) (values : List (Text × Bool))
    (hfit : ∀ value ∈ values, NumbersFit value.1) :
    readRefusedItems q early values = refusedItems (values.map Prod.fst) ∧
      (readFdValues q early values).2.isSome = (enterFdValues (values.map Prod.fst)).2.isSome ∧
      ((enterFdValues (values.map Prod.fst)).2 = none → ∀ fd d, descriptor fd = some d → ∀ st,
          (enterFdValues (values.map Prod.fst)).1.ctx.allocLfile st d.1 d.2 =
            (if st.pri then st.sf else KindSet.none).insertIf
              ((readFdValues q early values).1.sel.fdFilter.any fun f => f.matches fd) (.single .fd)) := by
  have hstart : SameFds { early } {} := ⟨rfl, rfl⟩
  have hvalues := sameValues hfit
  have hrun := foldUntil_alike (enterFdValue_alike q) hvalues hstart
  constructor
  · exact outputsUntil_alike (enterFdValue_alike q) (refusedFds_alike q) hvalues hstart
  · constructor
    · exact hrun.isSome_eq
    · intro hgoes fd d hd st
      have hmatch : ((readFdValues q early values).1.sel.fdFilter.any fun f => f.matches fd) =
          (enterFdValues (values.map Prod.fst)).1.ctx.fdMatched d.1 d.2 :=
        FdAgree.any_matches (hrun.related hgoes) hd
      rw [Context.allocLfile_eq, hmatch]

/-- `-d 0-2,5- -d ^4,cwd`: a range without its high end and an exclusion are refused. -/
theorem fdValues_refused_alike :
    NumbersFit "0-2,5-".toList ∧ NumbersFit "^4,cwd,".toList ∧
      refusedItems ["0-2,5-".toList, "^4,cwd,".toList] = [(false, "5-".toList), (true, "4".toList)] := by
  have hfirst : NumbersFit "0-2,5-".toList := by decide
  have hsecond : NumbersFit "^4,cwd,".toList := by decide
  have halike := fdValues_select_alike { host := .linux, standIns := false } {}
    [("0-2,5-".toList, false), ("^4,cwd,".toList, true)] (by decide)
  have hread : readRefusedItems { host := .linux, standIns := false } {}
      [("0-2,5-".toList, false), ("^4,cwd,".toList, true)] = [(false, "5-".toList), (true, "4".toList)] := by
    decide
  exact ⟨hfirst, hsecond, halike.1.symm.trans hread⟩

end Lsof.Original
