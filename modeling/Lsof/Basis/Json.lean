import Lsof.Basis.Lines

/-! # JSON

The values made of whole numbers, strings, arrays and objects, a reader of
their texts, and a printer without blanks that the reader undoes.

The reader is strict and takes part of the grammar only: no blanks, no
fractions, exponents or literals, and no character as a pair of surrogates. So
whatever it reads is JSON, and every reader of JSON reads the same value.
-/

namespace Lsof.Basis

open List

inductive Json where
  | num (n : Int)
  | str (s : Text)
  | arr (items : List Json)
  | obj (members : List (Text × Json))
  deriving Repr

namespace Json

@[elab_as_elim, induction_eliminator]
theorem induct {P : Json → Prop} (num : ∀ n, P (num n)) (str : ∀ s, P (str s))
    (arr : ∀ items, (∀ v ∈ items, P v) → P (arr items))
    (obj : ∀ members, (∀ m ∈ members, P m.2) → P (obj members)) (v : Json) : P v :=
  @Json.rec P (fun items => ∀ v ∈ items, P v) (fun members => ∀ m ∈ members, P m.2) (fun m => P m.2)
    num str arr obj (forall_mem_nil _) (fun _ _ hv hvs => forall_mem_cons.mpr ⟨hv, hvs⟩)
    (forall_mem_nil _) (fun _ _ hm hms => forall_mem_cons.mpr ⟨hm, hms⟩) (fun _ _ hv => hv) v

/-- No object gives a key twice. -/
inductive Distinct : Json → Prop
  | num (n : Int) : Distinct (num n)
  | str (s : Text) : Distinct (str s)
  | arr {items : List Json} (h : ∀ v ∈ items, Distinct v) : Distinct (arr items)
  | obj {members : List (Text × Json)} (hkeys : (members.map Prod.fst).Nodup)
      (h : ∀ m ∈ members, Distinct m.2) : Distinct (obj members)

def escapeLetter (c : Char) : Option Char :=
  ([('"', '"'), ('\\', '\\'), ('/', '/'), ('b', '\x08'), ('f', '\x0c'), ('n', '\n'), ('r', '\r'),
    ('t', '\t')] : List (Char × Char)).lookup c

/-- What follows a backslash: a letter, or `u` and four digits. -/
def readEscape : Text → Option (Char × Text)
  | [] => none
  | c :: rest =>
    if c = 'u' then
      let digits := rest.take 4
      let n := Text.hexValue digits
      if digits.length = 4 ∧ digits.all (fun d => (Text.hexDigitValue d).isSome) ∧ n.isValidChar then
        some (Char.ofNat n, rest.drop 4)
      else none
    else (escapeLetter c).map fun d => (d, rest)

/-- One character of a string. A quote ends it and no control may stand in it. -/
def readChar : Text → Option (Char × Text)
  | [] => none
  | c :: rest =>
    if c = '\\' then readEscape rest
    else if c = '"' ∨ c.toNat < 0x20 then none
    else some (c, rest)

def readString : Nat → Text → Option (Text × Text)
  | 0, _ => none
  | fuel + 1, t =>
    if t.head? = some '"' then some ([], t.tail)
    else (readChar t).bind fun r => (readString fuel r.2).map fun s => (r.1 :: s.1, s.2)

def readNat (t : Text) : Option (Nat × Text) :=
  let digits := t.takeWhile Char.isDigit
  if digits = [] ∨ (digits.head? = some '0' ∧ digits ≠ ['0']) then none
  else some (Text.digitsValue digits, t.dropWhile Char.isDigit)

def readNumber (t : Text) : Option (Json × Text) :=
  if t.head? = some '-' then (readNat t.tail).map fun r => (num (-r.1), r.2)
  else (readNat t).map fun r => (num r.1, r.2)

def readKey (fuel : Nat) (t : Text) : Option (Text × Text) :=
  if t.head? = some '"' then
    (readString fuel t.tail).bind fun r => if r.2.head? = some ':' then some (r.1, r.2.tail) else none
  else none

def readAfter {α : Type} (close : Char) (more : Text → Option (List α × Text)) (item : α) (t : Text) :
    Option (List α × Text) :=
  if t.head? = some ',' then (more t.tail).map fun r => (item :: r.1, r.2)
  else if t.head? = some close then some ([item], t.tail)
  else none

def readMember (value : Text → Option (Json × Text)) (fuel : Nat) (t : Text) :
    Option ((Text × Json) × Text) :=
  (readKey fuel t).bind fun k => (value k.2).map fun r => ((k.1, r.1), r.2)

mutual

def readValue : Nat → Text → Option (Json × Text)
  | 0, _ => none
  | fuel + 1, t =>
    if t.head? = some '"' then (readString fuel t.tail).map fun r => (str r.1, r.2)
    else if t.head? = some '[' then
      if t.tail.head? = some ']' then some (arr [], t.tail.tail)
      else (readItems fuel t.tail).map fun r => (arr r.1, r.2)
    else if t.head? = some '\x7b' then
      if t.tail.head? = some '\x7d' then some (obj [], t.tail.tail)
      else (readMembers fuel t.tail).map fun r => (obj r.1, r.2)
    else readNumber t

def readItems : Nat → Text → Option (List Json × Text)
  | 0, _ => none
  | fuel + 1, t => (readValue fuel t).bind fun r => readAfter ']' (readItems fuel) r.1 r.2

def readMembers : Nat → Text → Option (List (Text × Json) × Text)
  | 0, _ => none
  | fuel + 1, t =>
    (readMember (readValue fuel) fuel t).bind fun r => readAfter '\x7d' (readMembers fuel) r.1 r.2

end

/-- The value a whole text spells. Every step takes a character, so the length of
the text bounds them. -/
def parse (t : Text) : Option Json :=
  match readValue t.length t with
  | some (v, []) => some v
  | _ => none

/-- How a writer spells the characters of a string: any way that reads back. -/
structure Spelling where
  char : Char → Text
  read_char : ∀ c rest, readChar (char c ++ rest) = some (c, rest)

def ofInt : Int → Text
  | .ofNat n => Text.ofNat n
  | .negSucc n => '-' :: Text.ofNat (n + 1)

section Print

variable (w : Spelling)

def Spelling.string (s : Text) : Text := '"' :: (s.flatMap w.char ++ ['"'])

mutual

def print : Json → Text
  | num n => ofInt n
  | str s => w.string s
  | arr items => '[' :: ([','].intercalate (printItems items) ++ [']'])
  | obj members => '\x7b' :: ([','].intercalate (printMembers members) ++ ['\x7d'])

def printItems : List Json → List Text
  | [] => []
  | v :: items => print v :: printItems items

def printMembers : List (Text × Json) → List Text
  | [] => []
  | (k, v) :: members => (w.string k ++ ':' :: print v) :: printMembers members

end

theorem printItems_eq (items : List Json) : printItems w items = items.map (print w) := by
  induction items with
  | nil => rfl
  | cons v items ih => rw [printItems, ih, map_cons]

theorem printMembers_eq (members : List (Text × Json)) :
    printMembers w members = members.map fun m => w.string m.1 ++ ':' :: m.2.print w := by
  induction members with
  | nil => rfl
  | cons m members ih => rw [printMembers, ih, map_cons]

theorem readString_string (s rest : Text) {fuel : Nat} (h : s.length < fuel) :
    readString fuel (s.flatMap w.char ++ '"' :: rest) = some (s, rest) := by
  induction s generalizing fuel with
  | nil =>
    obtain ⟨fuel, rfl⟩ := Nat.exists_eq_succ_of_ne_zero (Nat.ne_of_gt h)
    rfl
  | cons c s ih =>
    obtain ⟨fuel, rfl⟩ := Nat.exists_eq_succ_of_ne_zero (Nat.ne_of_gt (Nat.zero_lt_of_lt h))
    have hread := w.read_char c (s.flatMap w.char ++ '"' :: rest)
    rw [flatMap_cons, append_assoc, readString]
    -- the spelling of a character does not begin with a quote: that does not read
    have hquote : (w.char c ++ (s.flatMap w.char ++ '"' :: rest)).head? ≠ some '"' := by
      intro hhead
      rw [head?_eq_some_iff] at hhead
      obtain ⟨t, ht⟩ := hhead
      rw [ht] at hread
      cases hread
    rw [if_neg hquote, hread, Option.bind_some, ih (Nat.lt_of_succ_lt_succ h)]
    rfl

/-- What may follow a number: it is the longest run of digits. -/
def Stops (t : Text) : Prop := ∀ c ∈ t.head?, c.isDigit = false

theorem stops_cons {c : Char} (h : c.isDigit = false) (t : Text) : Stops (c :: t) := fun d hd => by
  rw [head?_cons, Option.mem_some_iff] at hd
  exact hd ▸ h

theorem ofNat_eq_zero_of_head {n : Nat} (h : (Text.ofNat n).head? = some '0') : Text.ofNat n = ['0'] := by
  unfold Text.ofNat at h ⊢
  induction n using Nat.strongRecOn with
  | _ n ih =>
    by_cases hn : n < 10
    · rw [Nat.toDigits_of_lt_base hn, head?_cons, Option.some.injEq] at h
      rw [Nat.toDigits_of_lt_base hn, h]
    · rw [Nat.toDigits_of_base_le (by decide) (by omega), head?_append_of_ne_nil _ Nat.toDigits_ne_nil] at h
      -- the leading digits alone would be the number 0
      have hzero := ih (n / 10) (by omega) h
      have hval : Nat.ofDigitChars 10 (Nat.toDigits 10 (n / 10)) 0 = n / 10 := Nat.ofDigitChars_ten_toDigits
      rw [hzero] at hval
      have hlead : Nat.ofDigitChars 10 ['0'] 0 = 0 := by decide
      omega

variable {rest : Text}

theorem readNat_ofNat (n : Nat) (h : Stops rest) : readNat (Text.ofNat n ++ rest) = some (n, rest) := by
  have hdigits : ∀ c ∈ Text.ofNat n, c.isDigit = true := fun c hc => Text.isDigit_of_mem_ofNat hc
  have htake : (Text.ofNat n ++ rest).takeWhile Char.isDigit = Text.ofNat n := by
    rw [takeWhile_append_of_pos hdigits]
    cases rest with
    | nil => exact append_nil _
    | cons c rest => rw [takeWhile_cons_of_neg (by rw [h c rfl]; decide), append_nil]
  have hdrop : (Text.ofNat n ++ rest).dropWhile Char.isDigit = rest := by
    rw [dropWhile_append_of_pos hdigits]
    cases rest with
    | nil => rfl
    | cons c rest => rw [dropWhile_cons_of_neg (by rw [h c rfl]; decide)]
  have hvalue : Text.digitsValue (Text.ofNat n) = n := by
    rw [Text.digitsValue_eq]
    exact Nat.ofDigitChars_ten_toDigits
  unfold readNat
  dsimp only
  rw [htake, hdrop, hvalue, if_neg]
  rintro (hnil | ⟨hhead, hne⟩)
  · exact Text.ofNat_ne_nil n hnil
  · exact hne (ofNat_eq_zero_of_head hhead)

theorem readNumber_ofInt (n : Int) (h : Stops rest) : readNumber (ofInt n ++ rest) = some (num n, rest) := by
  cases n with
  | ofNat n =>
    have hhead : (Text.ofNat n ++ rest).head? ≠ some '-' := by
      rw [head?_append_of_ne_nil _ (Text.ofNat_ne_nil n)]
      intro hminus
      exact absurd (Text.isDigit_of_mem_ofNat (mem_of_head? hminus)) (by decide)
    rw [readNumber, ofInt, if_neg hhead, readNat_ofNat n h]
    rfl
  | negSucc n =>
    rw [readNumber, ofInt, cons_append, head?_cons, if_pos rfl, tail_cons, readNat_ofNat _ h]
    rfl

/-- A reader with steps enough for a text reads it as this value. -/
def ReadsBack {α : Type} (read : Nat → Text → Option (α × Text)) (t : Text) (a : α) : Prop :=
  ∀ fuel rest, t.length ≤ fuel → Stops rest → read fuel (t ++ rest) = some (a, rest)

theorem read_intercalate {α : Type} {close : Char} (hclose : close ≠ ',' ∧ close.isDigit = false)
    {one : Nat → Text → Option (α × Text)} {many : Nat → Text → Option (List α × Text)}
    (hmany : ∀ fuel t, many (fuel + 1) t = (one fuel t).bind fun r => readAfter close (many fuel) r.1 r.2)
    {shown : α → Text} {items : List α} (hne : items ≠ []) (hone : ∀ a ∈ items, ReadsBack one (shown a) a)
    {fuel : Nat} (hfuel : ([','].intercalate (items.map shown)).length < fuel) :
    many fuel ([','].intercalate (items.map shown) ++ close :: rest) = some (items, rest) := by
  induction items generalizing fuel with
  | nil => exact absurd rfl hne
  | cons a items ih =>
    obtain ⟨fuel, rfl⟩ := Nat.exists_eq_succ_of_ne_zero (Nat.ne_of_gt (Nat.zero_lt_of_lt hfuel))
    rw [Nat.succ_eq_add_one, hmany]
    have ha := hone a mem_cons_self fuel
    cases items with
    | nil =>
      rw [map_singleton, intercalate_singleton] at hfuel ⊢
      rw [ha _ (by omega) (stops_cons hclose.2 rest), Option.bind_some, readAfter, head?_cons,
        if_neg (fun h => hclose.1 (Option.some.inj h)), if_pos rfl]
      rfl
    | cons b items =>
      rw [map_cons, map_cons, intercalate_cons_cons, ← map_cons] at hfuel ⊢
      simp only [length_append, length_singleton] at hfuel
      have hrest : many fuel ([','].intercalate ((b :: items).map shown) ++ close :: rest) =
          some (b :: items, rest) :=
        ih (cons_ne_nil b items) (fun c hc => hone c (mem_cons_of_mem a hc)) (by omega)
      rw [append_assoc, append_assoc, singleton_append,
        ha _ (by omega) (stops_cons (by decide) _), Option.bind_some, readAfter, head?_cons,
        if_pos rfl, tail_cons, hrest]
      rfl

theorem length_le_spelled (s : Text) : s.length ≤ (s.flatMap w.char).length := by
  induction s with
  | nil => exact Nat.le_refl 0
  | cons c s ih =>
    have hne : w.char c ≠ [] := fun h => by
      have hread := w.read_char c []
      rw [h] at hread
      cases hread
    have hpos := length_pos_iff.mpr hne
    rw [flatMap_cons, length_append, length_cons]
    omega

theorem length_string (s : Text) : s.length + 2 ≤ (w.string s).length := by
  have hle := length_le_spelled w s
  simp only [Spelling.string, length_cons, length_append, length_nil]
  omega

theorem readsBack_member {k : Text} {v : Json} (h : ReadsBack readValue (v.print w) v) :
    ReadsBack (fun fuel => readMember (readValue fuel) fuel) (w.string k ++ ':' :: v.print w) (k, v) := by
  intro fuel rest hfuel hrest
  have hk := length_string w k
  simp only [length_append, length_cons] at hfuel
  have hkey : readKey fuel (w.string k ++ ':' :: (v.print w ++ rest)) = some (k, v.print w ++ rest) := by
    rw [readKey, Spelling.string, cons_append, head?_cons, if_pos rfl, tail_cons,
      append_assoc, singleton_append, readString_string w k _ (by omega), Option.bind_some,
      head?_cons, if_pos rfl]
    rfl
  dsimp only
  rw [append_assoc, cons_append, readMember, hkey, Option.bind_some, h fuel rest (by omega) hrest]
  rfl

theorem ofInt_head (n : Int) : ∃ c t, ofInt n = c :: t ∧ (c = '-' ∨ c.isDigit = true) := by
  cases n with
  | ofNat n =>
    obtain ⟨c, t, h⟩ := exists_cons_of_ne_nil (Text.ofNat_ne_nil n)
    exact ⟨c, t, h, .inr (Text.isDigit_of_mem_ofNat (n := n) (h ▸ mem_cons_self))⟩
  | negSucc n => exact ⟨'-', _, rfl, .inl rfl⟩

theorem readsBack_num (n : Int) : ReadsBack readValue (ofInt n) (num n) := by
  intro fuel rest hfuel hrest
  obtain ⟨c, t, hhead, hc⟩ := ofInt_head n
  have hnot : ∀ d : Char, d ≠ '-' → d.isDigit = false → (ofInt n ++ rest).head? ≠ some d := by
    intro d hminus hdigit h
    rw [hhead, cons_append, head?_cons, Option.some.injEq] at h
    subst h
    rcases hc with hc | hc
    · exact hminus hc
    · exact absurd (hc.symm.trans hdigit) (by decide)
  cases fuel with
  | zero =>
    rw [hhead] at hfuel
    cases hfuel
  | succ fuel =>
    rw [readValue, if_neg (hnot _ (by decide) (by decide)), if_neg (hnot _ (by decide) (by decide)),
      if_neg (hnot _ (by decide) (by decide)), readNumber_ofInt n hrest]

theorem readsBack_str (s : Text) : ReadsBack readValue (w.string s) (str s) := by
  intro fuel rest hfuel _
  have hlen := length_string w s
  cases fuel with
  | zero => omega
  | succ fuel =>
    rw [readValue, Spelling.string, cons_append, head?_cons, if_pos rfl, tail_cons,
      append_assoc, singleton_append, readString_string w s rest (by omega)]
    rfl

theorem head_ne_of_readsBack {t : Text} {v : Json} (h : ReadsBack readValue t v) (rest : Text) :
    (t ++ rest).head? ≠ some ']' := by
  have hread := h t.length [] (Nat.le_refl _) nofun
  cases t with
  | nil => cases hread
  | cons c t =>
    intro hc
    rw [cons_append, head?_cons, Option.some.injEq] at hc
    subst hc
    rw [length_cons, readValue] at hread
    simp [readNumber, readNat] at hread

theorem readsBack_arr {items : List Json} (h : ∀ v ∈ items, ReadsBack readValue (v.print w) v) :
    ReadsBack readValue ((arr items).print w) (arr items) := by
  intro fuel rest hfuel _
  rw [print, printItems_eq] at hfuel ⊢
  simp only [length_cons, length_append, length_nil] at hfuel
  cases fuel with
  | zero => omega
  | succ fuel =>
    rw [readValue, cons_append, head?_cons, if_neg (by decide), if_pos rfl, tail_cons, append_assoc, singleton_append]
    cases items with
    | nil => rfl
    | cons v items =>
      have hhead : ([','].intercalate ((v :: items).map (print w)) ++ ']' :: rest).head? ≠ some ']' := by
        rw [map_cons, Text.intercalate_cons, append_assoc]
        exact head_ne_of_readsBack (h v mem_cons_self) _
      have hread : readItems fuel ([','].intercalate ((v :: items).map (print w)) ++ ']' :: rest) =
          some (v :: items, rest) :=
        read_intercalate (by decide) (fun _ _ => readItems.eq_2 ..) (cons_ne_nil v items) h (by omega)
      rw [if_neg hhead, hread]
      rfl

theorem readsBack_obj {members : List (Text × Json)} (h : ∀ m ∈ members, ReadsBack readValue (m.2.print w) m.2) :
    ReadsBack readValue ((obj members).print w) (obj members) := by
  intro fuel rest hfuel _
  rw [print, printMembers_eq] at hfuel ⊢
  simp only [length_cons, length_append, length_nil] at hfuel
  cases fuel with
  | zero => omega
  | succ fuel =>
    rw [readValue, cons_append, head?_cons, if_neg (by decide), if_neg (by decide), if_pos rfl,
      tail_cons, append_assoc, singleton_append]
    cases members with
    | nil => rfl
    | cons m members =>
      let shown := fun m : Text × Json => w.string m.1 ++ ':' :: m.2.print w
      have hhead : ([','].intercalate ((m :: members).map shown) ++ '\x7d' :: rest).head? ≠
          some '\x7d' := by
        rw [map_cons, Text.intercalate_cons, append_assoc]
        exact fun hquote => absurd (Option.some.inj hquote) (by decide : '"' ≠ '\x7d')
      have hread : readMembers fuel ([','].intercalate ((m :: members).map shown) ++ '\x7d' :: rest) =
          some (m :: members, rest) :=
        read_intercalate (by decide) (fun _ _ => readMembers.eq_2 ..) (List.cons_ne_nil m members)
          (fun m hm => readsBack_member w (h m hm)) (by omega)
      rw [if_neg hhead, hread]
      rfl

theorem readsBack_print (v : Json) : ReadsBack readValue (v.print w) v := by
  induction v with
  | num n => exact readsBack_num n
  | str s => exact readsBack_str w s
  | arr items ih => exact readsBack_arr w ih
  | obj members ih => exact readsBack_obj w ih

theorem parse_print (v : Json) : parse (v.print w) = some v := by
  have hread := readsBack_print w v _ [] (Nat.le_refl _) nofun
  rw [List.append_nil] at hread
  rw [parse, hread]

def commaPush (acc : Text × Bool) (t : Text) : Text × Bool :=
  ((if acc.2 then acc.1 else acc.1 ++ [',']) ++ t, false)

theorem foldl_commaPush_false (out : Text) (ts : List Text) :
    ts.foldl commaPush (out, false) = (out ++ ts.flatMap ([','] ++ ·), false) := by
  induction ts generalizing out with
  | nil => rw [List.foldl_nil, List.flatMap_nil, List.append_nil]
  | cons t ts ih =>
    rw [List.foldl_cons, commaPush, ih, List.flatMap_cons]
    simp

theorem foldl_commaPush (out : Text) (ts : List Text) :
    (ts.foldl commaPush (out, true)).1 = out ++ [','].intercalate ts := by
  cases ts with
  | nil => exact (List.append_nil out).symm
  | cons t ts =>
    rw [List.foldl_cons, commaPush, foldl_commaPush_false, Text.intercalate_cons]
    simp

def marks : Text := ['[', ']', '\x7b', '\x7d', ',', ':', '"', '-']

variable {P : Char → Prop} (hmarks : ∀ c ∈ marks, P c) (hchar : ∀ c, ∀ d ∈ w.char c, P d)

include hmarks hchar

theorem forall_mem_string (s : Text) : ∀ c ∈ w.string s, P c := by
  have hquote : P '"' := hmarks _ (by decide)
  refine forall_mem_cons.mpr ⟨hquote, forall_mem_append.mpr ⟨fun c hc => ?_, by simp [hquote]⟩⟩
  obtain ⟨d, -, hc⟩ := mem_flatMap.mp hc
  exact hchar d c hc

theorem forall_mem_print (hdigit : ∀ c : Char, c.isDigit = true → P c) (v : Json) : ∀ c ∈ v.print w, P c := by
  have hcomma : ∀ c ∈ [','], P c := by simp [hmarks ',' (by decide)]
  induction v with
  | num n =>
    rw [print]
    cases n with
    | ofNat n => exact fun c hc => hdigit c (Text.isDigit_of_mem_ofNat hc)
    | negSucc n =>
      refine forall_mem_cons.mpr ⟨hmarks _ (by decide), fun c hc => ?_⟩
      exact hdigit c (Text.isDigit_of_mem_ofNat hc)
  | str s =>
    rw [print]
    exact forall_mem_string w hmarks hchar s
  | arr items ih =>
    rw [print, printItems_eq]
    refine forall_mem_cons.mpr ⟨hmarks _ (by decide), forall_mem_append.mpr ⟨?_, ?_⟩⟩
    · refine Text.forall_mem_intercalate hcomma fun t ht => ?_
      obtain ⟨v, hv, rfl⟩ := mem_map.mp ht
      exact ih v hv
    · simp [hmarks ']' (by decide)]
  | obj members ih =>
    rw [print, printMembers_eq]
    refine forall_mem_cons.mpr ⟨hmarks _ (by decide), forall_mem_append.mpr ⟨?_, ?_⟩⟩
    · refine Text.forall_mem_intercalate hcomma fun t ht => ?_
      obtain ⟨m, hm, rfl⟩ := mem_map.mp ht
      refine forall_mem_append.mpr ⟨forall_mem_string w hmarks hchar m.1, ?_⟩
      exact forall_mem_cons.mpr ⟨hmarks _ (by decide), ih m hm⟩
    · simp [hmarks '\x7d' (by decide)]

end Print

end Json

end Lsof.Basis
