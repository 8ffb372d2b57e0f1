import Lsof.Basis.Fields
import Lsof.Basis.Text

/-! # Lines of the password file

A line is read as glibc's `files` service reads it: fields are cut from a moving
position, the user and the group number by `strtoul()`. The grammar that comes
of it is stated over the line's fields, and a line is read exactly when it is in
the grammar.
-/

namespace Lsof.Linux.Passwd

open Lsof.Basis List

/-- `isspace()` in the C locale. -/
def isSpace (b : UInt8) : Bool :=
  b == 0x20 || b == 0x09 || b == 0x0A || b == 0x0B || b == 0x0C || b == 0x0D

def isDigit (b : UInt8) : Bool := 0x30 ≤ b && b ≤ 0x39

def ULONG_MAX : Nat := 2 ^ 64 - 1

def checkedMul (v n : Nat) : Option Nat := if v * n ≤ ULONG_MAX then some (v * n) else none

def checkedAdd (v n : Nat) : Option Nat := if v + n ≤ ULONG_MAX then some (v + n) else none

def wrappingNeg (v : Nat) : Nat := (2 ^ 64 - v) % 2 ^ 64

/-- One digit more of a number that is none once it has passed `ULONG_MAX`. -/
def addDigit (value : Option Nat) (d : UInt8) : Option Nat :=
  (value.bind fun v => checkedMul v 10).bind fun v => checkedAdd v (d.toNat - 0x30)

def signAt (s : Bytes) (i : Nat) : Bool × Nat :=
  match s[i]? with
  | some 0x2D => (true, i + 1)
  | some 0x2B => (false, i + 1)
  | _ => (false, i)

/-- `strtoul(s, &end, 10)` of a 64-bit `long`: the value and how many bytes it read. -/
def strtoul (s : Bytes) : Nat × Nat :=
  let sign := signAt s (s.takeWhile isSpace).length
  let digits := (s.drop sign.2).takeWhile isDigit
  if digits = [] then (0, 0)
  else
    match digits.foldl addDigit (some 0) with
    | none => (ULONG_MAX, sign.2 + digits.length)
    | some v => (if sign.1 then wrappingNeg v else v, sign.2 + digits.length)

def isColon (b : UInt8) : Bool := b == 0x3A

def stringField (line : Bytes) (pos : Nat) : Bytes × Nat :=
  let field := firstField isColon (line.drop pos)
  let stop := pos + field.length
  (field, if stop < line.length then stop + 1 else stop)

def u32 (value : Nat) : Option Nat := if value < 2 ^ 32 then some value else none

def intField (line : Bytes) (pos : Nat) : Option (Nat × Nat) :=
  let rest := line.drop pos
  let read := strtoul rest
  if read.2 = 0 then none
  else
    match rest[read.2]? with
    | none => (u32 read.1).map fun value => (value, pos + read.2)
    | some b => if b = 0x3A then (u32 read.1).map fun value => (value, pos + 1 + read.2) else none

/-- The line ends at its newline, or at a NUL, as a C string does. -/
def lineEnd (b : UInt8) : Bool := b == 0x0A || b == 0

def opensCompat (name : Bytes) : Bool := name.head? == some 0x2B || name.head? == some 0x2D

def parseLine (line : Bytes) : Option (Bytes × Nat) :=
  let line := (firstField lineEnd line).dropWhile isSpace
  if line = [] || line.head? == some 0x23 then none
  else
    let name := stringField line 0
    if opensCompat name.1 then none
    else
      let password := stringField line name.2
      (intField line password.2).bind fun uid =>
        (intField line uid.2).bind fun _ => some (name.1, uid.1)

def decimal (digits : Bytes) : Nat := digits.foldl (fun v d => v * 10 + (d.toNat - 0x30)) 0

/-- A number's value: past `ULONG_MAX` it is that, and a minus negates modulo `2 ^ 64`. -/
def signedValue (minus : Bool) (n : Nat) : Nat :=
  if ULONG_MAX < n then ULONG_MAX else if minus then wrappingNeg n else n

inductive Sign : Bytes → Bool → Prop where
  | none : Sign [] false
  | plus : Sign [0x2B] false
  | minus : Sign [0x2D] true

structure IsNumber (field : Bytes) (value : Nat) : Prop where
  parts : ∃ blanks sign digits minus, field = blanks ++ (sign ++ digits) ∧
    (∀ b ∈ blanks, isSpace b = true) ∧ Sign sign minus ∧ digits ≠ [] ∧
    (∀ d ∈ digits, isDigit d = true) ∧ value = signedValue minus (decimal digits)
  fits : value < 2 ^ 32

def body (line : Bytes) : Bytes := (firstField lineEnd line).dropWhile isSpace

def fields (line : Bytes) : List Bytes := (body line).splitOnP isColon

structure IsEntry (line name : Bytes) (uid : Nat) : Prop where
  nonempty : body line ≠ []
  no_comment : (body line).head? ≠ some 0x23
  name_first : (fields line)[0]? = some name
  no_compat : name.head? ≠ some 0x2B ∧ name.head? ≠ some 0x2D
  uid_third : ∃ field, (fields line)[2]? = some field ∧ IsNumber field uid
  gid_fourth : ∃ field gid, (fields line)[3]? = some field ∧ IsNumber field gid

theorem addDigit_some (v : Nat) (d : UInt8) : addDigit (some v) d = checkedAdd (v * 10) (d.toNat - 0x30) := by
  unfold addDigit checkedMul
  rw [Option.bind_some]
  by_cases h : v * 10 ≤ ULONG_MAX
  · rw [if_pos h, Option.bind_some]
  · rw [if_neg h, Option.bind_none, checkedAdd, if_neg (by omega)]

theorem foldl_addDigit_none (digits : Bytes) : digits.foldl addDigit none = none := by
  induction digits with
  | nil => rfl
  | cons d digits ih => exact ih

theorem le_foldl_decimal (digits : Bytes) (v : Nat) : v ≤ digits.foldl (fun v d => v * 10 + (d.toNat - 0x30)) v := by
  induction digits generalizing v with
  | nil => exact Nat.le_refl v
  | cons d digits ih =>
    have hnext := ih (v * 10 + (d.toNat - 0x30))
    rw [foldl_cons]
    omega

/-- Once past `ULONG_MAX` a number stays there, since digits only make it larger. -/
theorem foldl_addDigit (digits : Bytes) {v : Nat} (hv : v ≤ ULONG_MAX) :
    digits.foldl addDigit (some v) =
      if digits.foldl (fun v d => v * 10 + (d.toNat - 0x30)) v ≤ ULONG_MAX then
        some (digits.foldl (fun v d => v * 10 + (d.toNat - 0x30)) v)
      else none := by
  induction digits generalizing v with
  | nil =>
    rw [foldl_nil, foldl_nil, if_pos hv]
  | cons d digits ih =>
    rw [foldl_cons, foldl_cons, addDigit_some, checkedAdd]
    by_cases h : v * 10 + (d.toNat - 0x30) ≤ ULONG_MAX
    · rw [if_pos h]
      exact ih h
    · have hle := le_foldl_decimal digits (v * 10 + (d.toNat - 0x30))
      rw [if_neg h, foldl_addDigit_none, if_neg (by omega)]

theorem foldl_addDigit_zero (digits : Bytes) :
    digits.foldl addDigit (some 0) = if decimal digits ≤ ULONG_MAX then some (decimal digits) else none :=
  foldl_addDigit digits (Nat.zero_le _)

theorem isSpace_of_isDigit {b : UInt8} (h : isDigit b = true) : isSpace b = false ∧ b ≠ 0x2D ∧ b ≠ 0x2B := by
  have hrange : 0x30 ≤ b.toNat ∧ b.toNat ≤ 0x39 := by
    simpa [isDigit, UInt8.le_iff_toNat_le] using h
  simp only [isSpace, Bool.or_eq_false_iff, beq_eq_false_iff_ne, ne_eq, ← UInt8.toNat_inj, UInt8.reduceToNat]
  omega

theorem strtoul_number {blanks sign digits tail : Bytes} {minus : Bool}
    (hblanks : ∀ b ∈ blanks, isSpace b = true) (hsign : Sign sign minus) (hne : digits ≠ [])
    (hdigits : ∀ d ∈ digits, isDigit d = true) (htail : ∀ b ∈ tail.head?, isDigit b = false) :
    strtoul (blanks ++ (sign ++ digits) ++ tail) =
      (signedValue minus (decimal digits), (blanks ++ (sign ++ digits)).length) := by
  obtain ⟨d, rest, rfl⟩ := exists_cons_of_ne_nil hne
  obtain ⟨hspace, hminus, hplus⟩ := isSpace_of_isDigit (hdigits d mem_cons_self)
  have hstop : ((sign ++ d :: rest) ++ tail).takeWhile isSpace = [] := by
    cases hsign with
    | none => simp [hspace]
    | plus => rfl
    | minus => rfl
  have hblank : ((blanks ++ (sign ++ d :: rest) ++ tail).takeWhile isSpace) = blanks := by
    rw [append_assoc, takeWhile_append_of_pos hblanks, hstop, append_nil]
  have hat : signAt (blanks ++ (sign ++ d :: rest) ++ tail) blanks.length = (minus, blanks.length + sign.length) := by
    have hget : (blanks ++ (sign ++ d :: rest) ++ tail)[blanks.length]? = ((sign ++ d :: rest) ++ tail)[0]? := by
      rw [append_assoc, getElem?_append_right (Nat.le_refl _), Nat.sub_self]
    unfold signAt
    rw [hget]
    cases hsign with
    | none => simp [hminus, hplus]
    | plus => rfl
    | minus => rfl
  have hdrop : (blanks ++ (sign ++ d :: rest) ++ tail).drop (blanks.length + sign.length) = d :: rest ++ tail := by
    rw [← append_assoc, append_assoc _ (d :: rest), ← length_append, drop_left]
  have htake : (d :: rest ++ tail).takeWhile isDigit = d :: rest := by
    rw [takeWhile_append_of_pos hdigits]
    cases tail with
    | nil => simp
    | cons b tail => simp [htail b (by simp)]
  have hlen : (blanks ++ (sign ++ d :: rest)).length = blanks.length + sign.length + (d :: rest).length := by
    simp only [length_append]
    omega
  unfold strtoul
  dsimp only
  rw [hblank, hat]
  dsimp only
  rw [hdrop, htake, if_neg hne, foldl_addDigit_zero, hlen]
  unfold signedValue
  by_cases hle : decimal (d :: rest) ≤ ULONG_MAX
  · rw [if_pos hle, if_neg (by omega)]
  · rw [if_neg hle, if_pos (by omega)]

theorem number_of_strtoul {s : Bytes} (h : (strtoul s).2 ≠ 0) :
    ∃ blanks sign digits tail minus, s = blanks ++ (sign ++ digits) ++ tail ∧
      (∀ b ∈ blanks, isSpace b = true) ∧ Sign sign minus ∧ digits ≠ [] ∧
      (∀ d ∈ digits, isDigit d = true) ∧ ∀ b ∈ tail.head?, isDigit b = false := by
  have hs := takeWhile_append_dropWhile (p := isSpace) (l := s)
  obtain ⟨sign, minus, rest, hrest, hsign, hat⟩ : ∃ sign minus rest,
      s.dropWhile isSpace = sign ++ rest ∧ Sign sign minus ∧
        signAt s (s.takeWhile isSpace).length = (minus, (s.takeWhile isSpace).length + sign.length) := by
    have hget : s[(s.takeWhile isSpace).length]? = (s.dropWhile isSpace)[0]? := by
      conv => lhs; lhs; rw [← hs]
      rw [getElem?_append_right (Nat.le_refl _), Nat.sub_self]
    unfold signAt
    rw [hget]
    cases hdrop : s.dropWhile isSpace with
    | nil => exact ⟨[], false, [], rfl, .none, rfl⟩
    | cons b rest =>
      by_cases hminus : b = 0x2D
      · exact ⟨[0x2D], true, rest, by rw [hminus]; rfl, .minus, by rw [hminus]; rfl⟩
      · by_cases hplus : b = 0x2B
        · exact ⟨[0x2B], false, rest, by rw [hplus]; rfl, .plus, by rw [hplus]; rfl⟩
        · exact ⟨[], false, b :: rest, rfl, .none, by simp [hminus, hplus]⟩
  have hrestAt : s.drop ((s.takeWhile isSpace).length + sign.length) = rest := by
    have hleft : s.drop (s.takeWhile isSpace).length = s.dropWhile isSpace := by
      have hlong : (s.takeWhile isSpace ++ s.dropWhile isSpace).drop (s.takeWhile isSpace).length =
          s.dropWhile isSpace := drop_left
      rwa [hs] at hlong
    rw [← drop_drop, hleft, hrest, drop_left]
  refine ⟨s.takeWhile isSpace, sign, rest.takeWhile isDigit, rest.dropWhile isDigit, minus, ?_, ?_, hsign, ?_, ?_, ?_⟩
  · rw [append_assoc, append_assoc, takeWhile_append_dropWhile, ← hrest, hs]
  · intro b hb
    exact mem_takeWhile_imp hb
  · intro hnil
    apply h
    unfold strtoul
    dsimp only
    rw [hat]
    dsimp only
    rw [hrestAt, if_pos hnil]
  · intro d hd
    exact mem_takeWhile_imp hd
  · intro b hb
    have hnot := head?_dropWhile_not isDigit rest
    rw [Option.mem_def.mp hb] at hnot
    simpa using hnot

theorem not_colon_of_number {blanks sign digits : Bytes} {minus : Bool}
    (hblanks : ∀ b ∈ blanks, isSpace b = true) (hsign : Sign sign minus)
    (hdigits : ∀ d ∈ digits, isDigit d = true) : ∀ b ∈ blanks ++ (sign ++ digits), isColon b = false := by
  have hsigned : ∀ b ∈ sign, isColon b = false := by
    cases hsign <;> simp [isColon]
  intro b hb
  rw [isColon, beq_eq_false_iff_ne]
  intro heq
  rcases mem_append.mp hb with hb | hb
  · exact absurd (heq ▸ hblanks b hb) (by decide)
  · rcases mem_append.mp hb with hb | hb
    · exact absurd (heq ▸ hsigned b hb) (by decide)
    · exact absurd (heq ▸ hdigits b hb) (by decide)

theorem atEnd_iff (rest : Bytes) : AtEnd isColon rest ↔ rest[0]? = none ∨ rest[0]? = some 0x3A := by
  cases rest with
  | nil => simp [AtEnd]
  | cons b rest => simp [AtEnd, isColon]

theorem stringField_eq (line : Bytes) (pos : Nat) :
    (stringField line pos).1 = firstField isColon (line.drop pos) ∧
      line.drop (stringField line pos).2 = pastField isColon (line.drop pos) := by
  refine ⟨rfl, ?_⟩
  rw [← drop_firstField, drop_drop]
  unfold stringField
  dsimp only
  by_cases hlt : pos + (firstField isColon (line.drop pos)).length < line.length
  · rw [if_pos hlt]
    rfl
  · rw [if_neg hlt, drop_of_length_le (by omega), drop_of_length_le (by omega)]

theorem intField_eq_some {line : Bytes} {pos value next : Nat} (h : intField line pos = some (value, next)) :
    IsNumber (firstField isColon (line.drop pos)) value ∧ line.drop next = pastField isColon (line.drop pos) := by
  unfold intField at h
  dsimp only at h
  by_cases hzero : (strtoul (line.drop pos)).2 = 0
  · rw [if_pos hzero] at h
    cases h
  · rw [if_neg hzero] at h
    obtain ⟨blanks, sign, digits, tail, minus, hrest, hblanks, hsign, hne, hdigits, htail⟩ := number_of_strtoul hzero
    have hread := strtoul_number hblanks hsign hne hdigits htail
    rw [← hrest] at hread
    have hget : (line.drop pos)[(strtoul (line.drop pos)).2]? = tail[0]? := by
      rw [hread, hrest, getElem?_append_right (Nat.le_refl _), Nat.sub_self]
    have hcolon := not_colon_of_number hblanks hsign hdigits
    rw [hget] at h
    have hend : AtEnd isColon tail ∧ u32 (strtoul (line.drop pos)).1 = some value ∧
        next = pos + (strtoul (line.drop pos)).2 + (if tail = [] then 0 else 1) := by
      rw [atEnd_iff]
      cases tail with
      | nil =>
        obtain ⟨v, hv, hpair⟩ := Option.map_eq_some_iff.mp h
        cases hpair
        exact ⟨.inl rfl, hv, rfl⟩
      | cons b tail =>
        change (if b = 0x3A then _ else none) = _ at h
        by_cases hb : b = 0x3A
        · rw [if_pos hb] at h
          obtain ⟨v, hv, hpair⟩ := Option.map_eq_some_iff.mp h
          cases hpair
          refine ⟨.inr (by rw [hb]; rfl), hv, ?_⟩
          rw [if_neg (by simp)]
          omega
        · rw [if_neg hb] at h
          cases h
    obtain ⟨hat, hvalue, hnext⟩ := hend
    have hfields := firstField_append hcolon hat
    rw [← hrest] at hfields
    constructor
    · rw [hfields.1]
      unfold u32 at hvalue
      split at hvalue
      next hlt =>
        rw [hread] at hvalue hlt
        cases hvalue
        exact ⟨⟨blanks, sign, digits, minus, rfl, hblanks, hsign, hne, hdigits, rfl⟩, hlt⟩
      next => cases hvalue
    · rw [hfields.2, hnext, Nat.add_assoc, ← drop_drop, ← drop_drop]
      conv => lhs; rw [hread, hrest]
      rw [drop_left]
      cases tail with
      | nil => simp
      | cons b tail => simp

theorem intField_of_number {line : Bytes} {pos value : Nat}
    (h : IsNumber (firstField isColon (line.drop pos)) value) : ∃ next, intField line pos = some (value, next) := by
  obtain ⟨⟨blanks, sign, digits, minus, hfield, hblanks, hsign, hne, hdigits, hvalue⟩, hfits⟩ := h
  obtain ⟨rest, hline, hat, -⟩ := firstField_append_rest isColon (line.drop pos)
  have htail : ∀ b ∈ rest.head?, isDigit b = false := by
    intro b hb
    have hcolon : b = 0x3A := by simpa [isColon] using hat b hb
    rw [hcolon]
    rfl
  have hread := strtoul_number hblanks hsign hne hdigits htail
  rw [← hfield, ← hline] at hread
  have hpos : (firstField isColon (line.drop pos)).length ≠ 0 := by
    rw [hfield]
    have hlen := length_pos_of_ne_nil hne
    simp only [length_append]
    omega
  have hget : (line.drop pos)[(firstField isColon (line.drop pos)).length]? = rest[0]? := by
    conv => lhs; lhs; rw [hline]
    rw [getElem?_append_right (Nat.le_refl _), Nat.sub_self]
  have hu32 : u32 (signedValue minus (decimal digits)) = some value := by
    rw [← hvalue, u32, if_pos hfits]
  unfold intField
  dsimp only
  rw [hread]
  dsimp only
  rw [if_neg hpos, hget, hu32]
  rcases (atEnd_iff rest).mp hat with hnone | hcolon
  · rw [hnone]
    exact ⟨_, rfl⟩
  · rw [hcolon]
    exact ⟨_, rfl⟩

theorem not_number_nil {value : Nat} (h : IsNumber [] value) : False := by
  obtain ⟨blanks, sign, digits, minus, hfield, -, -, hne, -, -⟩ := h.parts
  have hempty := append_eq_nil_iff.mp (append_eq_nil_iff.mp hfield.symm).2
  exact hne hempty.2

theorem number_at_iff {parts : List Bytes} {k value : Nat} :
    (∃ field, parts[k]? = some field ∧ IsNumber field value) ↔ IsNumber (parts.getD k []) value := by
  rw [getD_eq_getElem?_getD]
  cases hk : parts[k]? with
  | none =>
    constructor
    · rintro ⟨field, hfield, -⟩
      cases hfield
    · intro h
      exact absurd h not_number_nil
  | some field =>
    constructor
    · rintro ⟨other, hother, h⟩
      cases hother
      exact h
    · intro h
      exact ⟨field, rfl, h⟩

theorem head?_fields (line : Bytes) : (fields line)[0]? = some (firstField isColon (body line)) := by
  rw [fields, splitOnP_eq_firstField]
  rfl

theorem getD_fields (line : Bytes) :
    (fields line).getD 2 [] = firstField isColon (pastField isColon (pastField isColon (body line))) ∧
      (fields line).getD 3 [] =
        firstField isColon (pastField isColon (pastField isColon (pastField isColon (body line)))) := by
  unfold fields
  simp only [splitOnP_getD_succ, splitOnP_getD_zero, and_self]

theorem opensCompat_eq_false {name : Bytes} :
    opensCompat name = false ↔ name.head? ≠ some 0x2B ∧ name.head? ≠ some 0x2D := by
  simp [opensCompat]

theorem parseLine_steps (line name : Bytes) (uid : Nat) :
    parseLine line = some (name, uid) ↔
      body line ≠ [] ∧ (body line).head? ≠ some 0x23 ∧
      (stringField (body line) 0).1 = name ∧ opensCompat name = false ∧
      ∃ next gid, intField (body line) (stringField (body line) (stringField (body line) 0).2).2 = some (uid, next) ∧
        intField (body line) next = some gid := by
  unfold parseLine
  dsimp only
  change (if (decide (body line = []) || (body line).head? == some 0x23) = true then none else
    if opensCompat (stringField (body line) 0).1 = true then none else
      (intField (body line) (stringField (body line) (stringField (body line) 0).2).2).bind fun uid =>
        (intField (body line) uid.2).bind fun _ => some ((stringField (body line) 0).1, uid.1)) = _ ↔ _
  generalize body line = text
  constructor
  · intro h
    by_cases hskip : (decide (text = []) || text.head? == some 0x23) = true
    · rw [if_pos hskip] at h
      cases h
    · rw [if_neg hskip] at h
      simp only [Bool.or_eq_true, decide_eq_true_eq, beq_iff_eq, not_or] at hskip
      by_cases hcompat : opensCompat (stringField text 0).1 = true
      · rw [if_pos hcompat] at h
        cases h
      · rw [if_neg hcompat] at h
        obtain ⟨read, hread, h⟩ := Option.bind_eq_some_iff.mp h
        obtain ⟨gid, hgid, h⟩ := Option.bind_eq_some_iff.mp h
        cases h
        exact ⟨hskip.1, hskip.2, rfl, Bool.not_eq_true _ ▸ hcompat, read.2, gid, hread, hgid⟩
  · rintro ⟨hne, hcomment, rfl, hcompat, next, gid, huid, hgid⟩
    have hskip : (decide (text = []) || text.head? == some 0x23) = false := by
      simp [hne, hcomment]
    rw [hskip, hcompat, huid, Option.bind_some, hgid]
    rfl

/-- A line names a user exactly when it is in the grammar. -/
theorem parseLine_eq_some_iff (line name : Bytes) (uid : Nat) :
    parseLine line = some (name, uid) ↔ IsEntry line name uid := by
  obtain ⟨hthird, hfourth⟩ := getD_fields line
  obtain ⟨hname, hafter⟩ := stringField_eq (body line) 0
  obtain ⟨-, hlater⟩ := stringField_eq (body line) (stringField (body line) 0).2
  rw [drop_zero] at hname hafter
  rw [hafter] at hlater
  rw [parseLine_steps]
  constructor
  · rintro ⟨hne, hcomment, rfl, hcompat, next, ⟨gid, last⟩, huid, hgid⟩
    obtain ⟨huidNumber, hnext⟩ := intField_eq_some huid
    obtain ⟨hgidNumber, -⟩ := intField_eq_some hgid
    rw [hlater, ← hthird] at huidNumber
    rw [hnext, hlater, ← hfourth] at hgidNumber
    obtain ⟨field, hfield, hgidAt⟩ := number_at_iff.mpr hgidNumber
    exact ⟨hne, hcomment, hname ▸ head?_fields line, opensCompat_eq_false.mp hcompat,
      number_at_iff.mpr huidNumber, field, gid, hfield, hgidAt⟩
  · intro h
    obtain ⟨field, gid, hfield, hgidNumber⟩ := h.gid_fourth
    have huidNumber := number_at_iff.mp h.uid_third
    have hgidAt := number_at_iff.mp ⟨field, hfield, hgidNumber⟩
    rw [hthird, ← hlater] at huidNumber
    obtain ⟨next, huid⟩ := intField_of_number huidNumber
    have hnext := (intField_eq_some huid).2
    rw [hfourth, ← hlater, ← hnext] at hgidAt
    obtain ⟨last, hgid⟩ := intField_of_number hgidAt
    have hfirst : (stringField (body line) 0).1 = name := by
      rw [hname]
      exact Option.some.inj ((head?_fields line).symm.trans h.name_first)
    exact ⟨h.nonempty, h.no_comment, hfirst, opensCompat_eq_false.mpr h.no_compat, next, _, huid, hgid⟩

end Lsof.Linux.Passwd
