import Lsof.Basis.Lines
import Lsof.Cli.OptionLetters

/-! # Errors the parse reads on after

The lines are held in two buffers, no larger than the arguments that made them:
a letter that is no option is itself in `codes`, any other line is an escape and
a code there, and its text, if it has one, is in `texts` after its length.
What is held is printed through a sink once it passes a limit.
-/

namespace Lsof.Cli

open Lsof.Basis Lsof.Core List

abbrev Str := { t : Text // t.byteLen < 2 ^ 63 }

inductive LetterKind where
  | crossOver
  | fileStruct
  | field
  | tcpTpi
  deriving DecidableEq, Repr

def LetterKind.code : LetterKind → Char
  | .crossOver => 'X'
  | .fileStruct => 'S'
  | .field => 'L'
  | .tcpTpi => 'P'

def LetterKind.ofCode (c : Char) : Option LetterKind :=
  if c = 'X' then some .crossOver
  else if c = 'S' then some .fileStruct
  else if c = 'L' then some .field
  else if c = 'P' then some .tcpTpi
  else none

def LetterKind.message : LetterKind → Text
  | .crossOver => "unknown cross-over option: ".toList
  | .fileStruct => "unknown file struct option: ".toList
  | .field => "unknown field: ".toList
  | .tcpTpi => "unsupported TCP/TPI info selection: ".toList

inductive EarlyLine where
  | letter (kind : LetterKind) (c : Char)
  | illegal (c : Char)
  | colon
  | plusJson (c : Char)
  | noUid (name : Str)
  | line (text : Str)
  deriving DecidableEq, Repr

/-- How errors quote an argument: the platform, and whether this parse reads
words with stand-ins. -/
structure Quotes where
  host : Host
  standIns : Bool
  deriving DecidableEq, Repr

def Quotes.quoting (q : Quotes) (message : Text) (c : Char) : Text := Cli.quoting q.host q.standIns message [c]

def Quotes.illegal (q : Quotes) (c : Char) : Text := q.quoting "illegal option character: ".toList c

def EarlyLine.format (q : Quotes) : EarlyLine → Text
  | .letter kind c => q.quoting kind.message c
  | .illegal c => q.illegal c
  | .colon => "colon is an illegal option character.".toList
  | .plusJson c => '+' :: (if c = 'j' then 'j' else 'J') :: " is not supported".toList
  | .noUid name => "can't get UID for ".toList ++ name
  | .line text => text

structure Early where
  codes : Text := []
  texts : Text := []
  /-- An error made in silence was found. -/
  failed : Bool := false
  /-- Whether there is a sink to print through. -/
  sink : Bool := false
  /-- Whether lines were printed through it. -/
  told : Bool := false
  deriving DecidableEq, Repr

namespace Early

/-- Opens a code in `codes`. -/
def ESC : Char := Char.ofNat 0

def SPILL : Nat := 1 <<< 20

def held (e : Early) : Nat := min (e.codes.byteLen + e.texts.byteLen) (2 ^ 64 - 1)

def nextText (texts : Text) : Text × Text :=
  let (len, rest) : Text × Text :=
    if ':' ∈ texts then (texts.takeWhile (· != ':'), (texts.dropWhile (· != ':')).drop 1) else (['0'], [])
  let len := min (((Text.parseUnsigned 64 len).map BitVec.toNat).getD 0) rest.byteLen
  (Text.splitAt? len rest).getD (rest, [])

def eachLine (q : Quotes) : Text → Text → List Text
  | [], _ => []
  | [c], _ => if c = ESC then [] else [q.illegal c]
  | c :: d :: codes, texts =>
    if c ≠ ESC then q.illegal c :: eachLine q (d :: codes) texts
    else if d = ':' then "colon is an illegal option character.".toList :: eachLine q codes texts
    else if d = 'J' ∨ d = 'j' then ('+' :: d :: " is not supported".toList) :: eachLine q codes texts
    else if d = 'U' then
      ("can't get UID for ".toList ++ (nextText texts).1) :: eachLine q codes (nextText texts).2
    else if d = 'T' then (nextText texts).1 :: eachLine q codes (nextText texts).2
    else match LetterKind.ofCode d with
      | some kind => match codes with
        | [] => []
        | c :: codes => q.quoting kind.message c :: eachLine q codes texts
      | none => q.illegal d :: eachLine q codes texts

/-- Print what is held, if there is a sink, and forget it. The lines printed
come back with the store. -/
def tell (q : Quotes) (e : Early) : Early × List Text :=
  if e.sink then
    let lines := eachLine q e.codes e.texts
    ({ e with codes := [], texts := [], told := e.told || !lines.isEmpty }, lines.map ("lsof: ".toList ++ ·))
  else (e, [])

def spill (q : Quotes) (e : Early) : Early × List Text :=
  if e.held > SPILL then e.tell q else (e, [])

def text (q : Quotes) (e : Early) (t : Text) : Early × List Text :=
  spill q { e with texts := e.texts ++ Text.ofNat t.byteLen ++ ':' :: t }

def letter (q : Quotes) (e : Early) (kind : LetterKind) (c : Char) : Early × List Text :=
  spill q { e with codes := e.codes ++ [ESC, kind.code, c] }

def illegal (q : Quotes) (e : Early) (c : Char) : Early × List Text :=
  let e := if c = ESC then { e with codes := e.codes ++ [ESC] } else e
  spill q { e with codes := e.codes ++ [c] }

def colon (q : Quotes) (e : Early) : Early × List Text :=
  spill q { e with codes := e.codes ++ [ESC, ':'] }

def plusJson (q : Quotes) (e : Early) (c : Char) : Early × List Text :=
  spill q { e with codes := e.codes ++ [ESC, if c = 'j' then 'j' else 'J'] }

def noUid (q : Quotes) (e : Early) (name : Text) : Early × List Text :=
  text q { e with codes := e.codes ++ [ESC, 'U'] } name

def line (q : Quotes) (e : Early) (t : Text) : Early × List Text :=
  text q { e with codes := e.codes ++ [ESC, 'T'] } t

def fail (q : Quotes) (e : Early) (message : Text) : Early × List Text :=
  if message.isEmpty then ({ e with failed := true }, []) else e.line q message

def store (q : Quotes) (e : Early) : EarlyLine → Early × List Text
  | .letter kind c => e.letter q kind c
  | .illegal c => e.illegal q c
  | .colon => e.colon q
  | .plusJson c => e.plusJson q c
  | .noUid name => e.noUid q name
  | .line t => e.line q t

end Early

inductive EarlyOp where
  | store (l : EarlyLine)
  | fail (message : Str)
  | tell
  deriving DecidableEq, Repr

def EarlyOp.stored : EarlyOp → List EarlyLine
  | .store l => [l]
  | .fail message => if message.val.isEmpty then [] else [.line message]
  | .tell => []

namespace Early

def apply (q : Quotes) (e : Early) : EarlyOp → Early × List Text
  | .store l => e.store q l
  | .fail message => e.fail q message
  | .tell => e.tell q

def run (q : Quotes) (e : Early) : List EarlyOp → Early × List Text
  | [] => (e, [])
  | op :: ops =>
    let (e', printed) := e.apply q op
    let (e'', more) := run q e' ops
    (e'', printed ++ more)

end Early

namespace EarlyLine

open Early (ESC)

def codes : EarlyLine → Text
  | .letter kind c => [ESC, kind.code, c]
  | .illegal c => if c = ESC then [ESC, c] else [c]
  | .colon => [ESC, ':']
  | .plusJson c => [ESC, if c = 'j' then 'j' else 'J']
  | .noUid _ => [ESC, 'U']
  | .line _ => [ESC, 'T']

def texts : EarlyLine → Text
  | .noUid t | .line t => Text.ofNat t.val.byteLen ++ ':' :: t.val
  | _ => []

theorem codes_ne_nil (l : EarlyLine) : l.codes ≠ [] := by
  cases l with
  | illegal c =>
    by_cases hc : c = ESC
    · simp only [codes, if_pos hc]
      exact cons_ne_nil _ _
    · simp only [codes, if_neg hc]
      exact cons_ne_nil _ _
  | letter | colon | plusJson | noUid | line => exact cons_ne_nil _ _

end EarlyLine

namespace Early

theorem nextText_append (t : Str) (rest : Text) :
    nextText (Text.ofNat t.val.byteLen ++ ':' :: t.val ++ rest) = (t.val, rest) := by
  have hdigits : ∀ c ∈ Text.ofNat t.val.byteLen, (c != ':') = true := by
    intro c hc
    have hdigit := Text.isDigit_of_mem_ofNat hc
    exact bne_iff_ne.mpr fun h => absurd (h ▸ hdigit) (by decide)
  have hsmall : (BitVec.ofNat 64 t.val.byteLen).toNat = t.val.byteLen := by
    have hlt := t.property
    rw [BitVec.toNat_ofNat, Nat.mod_eq_of_lt (by omega)]
  have hlen := Text.parseUnsigned_ofNat (BitVec.ofNat 64 t.val.byteLen)
  rw [hsmall] at hlen
  have hmem : ':' ∈ Text.ofNat t.val.byteLen ++ ':' :: (t.val ++ rest) := by simp
  rw [append_assoc, cons_append, nextText, if_pos hmem]
  dsimp only
  rw [takeWhile_append_of_pos hdigits, dropWhile_append_of_pos hdigits,
    takeWhile_cons_of_neg (by decide), dropWhile_cons_of_neg (by decide), append_nil,
    drop_one, tail_cons, hlen, Option.map_some, Option.getD_some, hsmall, Text.byteLen_append,
    Nat.min_eq_left (Nat.le_add_right _ _), Text.splitAt?_append, Option.getD_some]

theorem eachLine_json (q : Quotes) {d : Char} (hd : d = 'J' ∨ d = 'j') (codes texts : Text) :
    eachLine q (ESC :: d :: codes) texts = ('+' :: d :: " is not supported".toList) :: eachLine q codes texts := by
  have hcolon : d ≠ ':' := by rcases hd with rfl | rfl <;> decide
  rw [eachLine, if_neg (fun h => h rfl), if_neg hcolon, if_pos hd]

theorem eachLine_uid (q : Quotes) (codes texts : Text) :
    eachLine q (ESC :: 'U' :: codes) texts =
      ("can't get UID for ".toList ++ (nextText texts).1) :: eachLine q codes (nextText texts).2 := by
  rw [eachLine, if_neg (fun h => h rfl), if_neg (by decide), if_neg (by decide), if_pos rfl]

theorem eachLine_text (q : Quotes) (codes texts : Text) :
    eachLine q (ESC :: 'T' :: codes) texts = (nextText texts).1 :: eachLine q codes (nextText texts).2 := by
  rw [eachLine, if_neg (fun h => h rfl), if_neg (by decide), if_neg (by decide), if_neg (by decide), if_pos rfl]

theorem eachLine_append (q : Quotes) (l : EarlyLine) (codes texts : Text) :
    eachLine q (l.codes ++ codes) (l.texts ++ texts) = l.format q :: eachLine q codes texts := by
  cases l with
  | letter kind c => cases kind <;> rfl
  | illegal c =>
    by_cases hc : c = ESC
    · subst hc
      rfl
    · have hcodes : (EarlyLine.illegal c).codes = [c] := if_neg hc
      rw [hcodes, singleton_append]
      cases codes with
      | nil => exact if_neg hc
      | cons d codes =>
        rw [eachLine, if_pos hc]
        rfl
  | colon => rfl
  | plusJson c =>
    refine eachLine_json q ?_ codes texts
    split
    · exact .inr rfl
    · exact .inl rfl
  | noUid name =>
    have hread := nextText_append name texts
    simp only [EarlyLine.codes, EarlyLine.texts, cons_append, eachLine_uid, hread]
    rfl
  | line t =>
    have hread := nextText_append t texts
    simp only [EarlyLine.codes, EarlyLine.texts, cons_append, eachLine_text, hread]
    rfl

def codesOf (ls : List EarlyLine) : Text := ls.flatMap EarlyLine.codes

def textsOf (ls : List EarlyLine) : Text := ls.flatMap EarlyLine.texts

def Holds (e : Early) (ls : List EarlyLine) : Prop := e.codes = codesOf ls ∧ e.texts = textsOf ls

theorem eachLine_of (q : Quotes) (ls : List EarlyLine) :
    eachLine q (codesOf ls) (textsOf ls) = ls.map (EarlyLine.format q) := by
  induction ls with
  | nil => rfl
  | cons l ls ih =>
    rw [codesOf, textsOf, flatMap_cons, flatMap_cons, eachLine_append, map_cons]
    exact congrArg _ ih

variable {e : Early}

theorem Holds.eachLine {ls : List EarlyLine} (h : e.Holds ls) (q : Quotes) :
    eachLine q e.codes e.texts = ls.map (EarlyLine.format q) := by
  rw [h.1, h.2, eachLine_of]

theorem codesOf_append (ls ks : List EarlyLine) : codesOf (ls ++ ks) = codesOf ls ++ codesOf ks :=
  flatMap_append

theorem textsOf_append (ls ks : List EarlyLine) : textsOf (ls ++ ks) = textsOf ls ++ textsOf ks :=
  flatMap_append

theorem store_eq_spill (q : Quotes) (e : Early) (l : EarlyLine) :
    e.store q l = spill q { e with codes := e.codes ++ l.codes, texts := e.texts ++ l.texts } := by
  cases l with
  | illegal c =>
    by_cases hc : c = ESC
    · subst hc
      simp only [store, illegal, EarlyLine.codes, EarlyLine.texts, if_true, append_assoc,
        append_nil, singleton_append]
    · simp only [store, illegal, EarlyLine.codes, EarlyLine.texts, if_neg hc, append_nil]
  | letter kind c => simp only [store, letter, EarlyLine.codes, EarlyLine.texts, append_nil]
  | colon => simp only [store, colon, EarlyLine.codes, EarlyLine.texts, append_nil]
  | plusJson c => simp only [store, plusJson, EarlyLine.codes, EarlyLine.texts, append_nil]
  | noUid name => simp only [store, noUid, text, EarlyLine.codes, EarlyLine.texts, append_assoc]
  | line t => simp only [store, line, text, EarlyLine.codes, EarlyLine.texts, append_assoc]

def said (q : Quotes) (l : EarlyLine) : Text := "lsof: ".toList ++ l.format q

/-- From a store that held `first` of the lines `all`, the first `k` have been
printed and the others are held. What is printed is all that is held, so it
takes in all of the `first` lines. -/
structure After (q : Quotes) (e : Early) (all : List EarlyLine) (first : Nat) (r : Early × List Text) (k : Nat) :
    Prop where
  within : k ≤ all.length
  whole : k = 0 ∨ first ≤ k
  printed : r.2 = (all.take k).map (said q)
  holds : r.1.Holds (all.drop k)
  told : r.1.told = (e.told || decide (0 < k))
  sink : r.1.sink = e.sink
  silent : e.sink = false → k = 0

section Running

variable {q : Quotes} {e : Early} {ls : List EarlyLine}

theorem after_nothing (h : e.Holds ls) (first : Nat) : After q e ls first (e, []) 0 where
  within := Nat.zero_le _
  whole := .inl rfl
  printed := rfl
  holds := h
  told := (Bool.or_false _).symm
  sink := rfl
  silent _ := rfl

theorem tell_of_holds (h : e.Holds ls) (hsink : e.sink = true) :
    e.tell q = ({ e with codes := [], texts := [], told := e.told || decide (0 < ls.length) }, ls.map (said q)) := by
  have hsome : (!(ls.map (EarlyLine.format q)).isEmpty) = decide (0 < ls.length) := by cases ls <;> rfl
  rw [tell, if_pos hsink, h.eachLine]
  dsimp only
  rw [hsome, map_map]
  rfl

theorem after_tell (h : e.Holds ls) : ∃ k, After q e ls ls.length (e.tell q) k := by
  by_cases hsink : e.sink = true
  · rw [tell_of_holds h hsink]
    refine ⟨ls.length, Nat.le_refl _, .inr (Nat.le_refl _), ?_, ?_, rfl, rfl, ?_⟩
    · rw [take_length]
    · rw [drop_length]
      exact ⟨rfl, rfl⟩
    · exact fun hno => absurd hsink (by simp [hno])
  · refine ⟨0, ?_⟩
    rw [tell, if_neg hsink]
    exact after_nothing h _

theorem after_spill (h : e.Holds ls) : ∃ k, After q e ls ls.length (e.spill q) k := by
  unfold spill
  split
  · exact after_tell h
  · exact ⟨0, after_nothing h _⟩

theorem Holds.push (h : e.Holds ls) (l : EarlyLine) :
    Holds { e with codes := e.codes ++ l.codes, texts := e.texts ++ l.texts } (ls ++ [l]) := by
  constructor
  · rw [codesOf_append, ← h.1, codesOf, flatMap_singleton]
  · rw [textsOf_append, ← h.2, textsOf, flatMap_singleton]

theorem after_store (h : e.Holds ls) (l : EarlyLine) : ∃ k, After q e (ls ++ [l]) ls.length (e.store q l) k := by
  obtain ⟨k, hk⟩ := after_spill (q := q) (h.push l)
  rw [← store_eq_spill] at hk
  refine ⟨k, { hk with whole := ?_ }⟩
  have hwhole := hk.whole
  rw [length_append, length_singleton] at hwhole
  omega

theorem after_apply (h : e.Holds ls) (op : EarlyOp) :
    ∃ k, After q e (ls ++ op.stored) ls.length (e.apply q op) k := by
  cases op with
  | store l => exact after_store h l
  | fail message =>
    by_cases hempty : message.val.isEmpty = true
    · refine ⟨0, ?_⟩
      rw [EarlyOp.stored, if_pos hempty, append_nil, apply, fail, if_pos hempty]
      exact { after_nothing (e := e) h _ with }
    · rw [EarlyOp.stored, if_neg hempty, apply, fail, if_neg hempty]
      exact after_store h (.line message)
  | tell =>
    rw [EarlyOp.stored, append_nil]
    exact after_tell h

theorem After.trans {ks : List EarlyLine} {first k m : Nat} {r s : Early × List Text}
    (hr : After q e ls first r k) (hs : After q r.1 (ls.drop k ++ ks) (ls.drop k).length s m)
    (hfirst : first ≤ ls.length) : After q e (ls ++ ks) first (s.1, r.2 ++ s.2) (k + m) := by
  have hk := hr.within
  have hm := hs.within
  have hsplit : ls ++ ks = ls.take k ++ (ls.drop k ++ ks) := by rw [← append_assoc, take_append_drop]
  have hlen : (ls.take k).length = k := length_take_of_le hk
  rw [length_append, length_drop] at hm
  constructor
  · rw [length_append]
    omega
  · have hwhole := hr.whole
    have hmore := hs.whole
    rw [length_drop] at hmore
    omega
  · have htake : (ls ++ ks).take (k + m) = ls.take k ++ (ls.drop k ++ ks).take m := by
      rw [hsplit, take_append, hlen, take_of_length_le (by omega), Nat.add_sub_cancel_left]
    rw [htake, map_append, hr.printed, hs.printed]
  · rw [hsplit, drop_append, hlen]
    have hdrop : (ls.take k).drop (k + m) = [] := drop_of_length_le (by omega)
    rw [hdrop, nil_append, Nat.add_sub_cancel_left]
    exact hs.holds
  · rw [hs.told, hr.told, Bool.or_assoc]
    congr 1
    simp only [← Bool.decide_or]
    congr 1
    apply propext
    omega
  · rw [hs.sink, hr.sink]
  · intro hno
    have hk0 := hr.silent hno
    have hm0 := hs.silent (hr.sink.trans hno)
    omega

theorem after_run (h : e.Holds ls) (ops : List EarlyOp) :
    ∃ k, After q e (ls ++ ops.flatMap EarlyOp.stored) ls.length (e.run q ops) k := by
  induction ops generalizing e ls with
  | nil =>
    refine ⟨0, ?_⟩
    rw [flatMap_nil, append_nil]
    exact after_nothing h _
  | cons op ops ih =>
    obtain ⟨k, hk⟩ := after_apply (q := q) h op
    obtain ⟨m, hm⟩ := ih hk.holds
    refine ⟨k + m, ?_⟩
    rw [flatMap_cons, ← append_assoc]
    exact hk.trans hm (by rw [length_append]; omega)

end Running

variable {q : Quotes}

theorem held_spill_le (hsink : e.sink = true) : (e.spill q).1.held ≤ SPILL := by
  unfold spill
  split
  next =>
    rw [tell, if_pos hsink]
    exact Nat.zero_le _
  next hover => exact Nat.le_of_not_lt hover

theorem held_apply_le (hsink : e.sink = true) (hheld : e.held ≤ SPILL) (op : EarlyOp) :
    (e.apply q op).1.held ≤ SPILL := by
  cases op with
  | store l =>
    rw [apply, store_eq_spill]
    exact held_spill_le hsink
  | fail message =>
    rw [apply, fail]
    split
    · exact hheld
    · have hline : e.line q message.val = e.store q (.line message) := rfl
      rw [hline, store_eq_spill]
      exact held_spill_le hsink
  | tell =>
    rw [apply, tell, if_pos hsink]
    exact Nat.zero_le _

theorem held_run_le (hsink : e.sink = true) (hheld : e.held ≤ SPILL)
    (hholds : ∃ ls, e.Holds ls) (ops : List EarlyOp) : (e.run q ops).1.held ≤ SPILL := by
  induction ops generalizing e with
  | nil => exact hheld
  | cons op ops ih =>
    obtain ⟨ls, hls⟩ := hholds
    obtain ⟨k, hk⟩ := after_apply (q := q) hls op
    exact ih (hk.sink.trans hsink) (held_apply_le hsink hheld op) ⟨_, hk.holds⟩

theorem le_of_held_le (h : e.held ≤ SPILL) : e.codes.byteLen + e.texts.byteLen ≤ SPILL := by
  have hlimit : SPILL < 2 ^ 64 - 1 := by decide
  unfold held at h
  omega

/-- Nothing is lost: what was printed and what is still held, in words, are the
lines stored, in order. With a sink no more is held than the limit. -/
theorem run_loses_nothing (q : Quotes) (sink : Bool) (ops : List EarlyOp) :
    let r := run q { sink } ops
    r.2 ++ (eachLine q r.1.codes r.1.texts).map ("lsof: ".toList ++ ·) =
        (ops.flatMap EarlyOp.stored).map (said q) ∧
      (sink = true → r.1.codes.byteLen + r.1.texts.byteLen ≤ SPILL) := by
  have hstart : Holds { sink } [] := ⟨rfl, rfl⟩
  obtain ⟨k, hk⟩ := after_run (q := q) hstart ops
  rw [nil_append] at hk
  refine ⟨?_, fun hsink => le_of_held_le (held_run_le hsink (Nat.zero_le _) ⟨[], hstart⟩ ops)⟩
  have hsaid : ("lsof: ".toList ++ ·) ∘ EarlyLine.format q = said q := rfl
  rw [hk.printed, hk.holds.eachLine, map_map, hsaid, ← map_append, take_append_drop]

end Early

end Lsof.Cli
