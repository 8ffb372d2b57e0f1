import Lsof.Cli.InetArgs

/-! # The ports of `-i`

The grammar of a list of ports, and that the scan takes exactly what it takes and
enters the ranges it reads.
-/

namespace Lsof.Cli

open Lsof.Basis Lsof.Core List

def Digits (ds : Text) : Prop := ds ≠ [] ∧ ∀ c ∈ ds, c.isDigit = true

/-- A number as it is entered: the largest there is for one that does not fit. -/
def enteredValue (ds : Text) : Nat := min (Text.digitsValue ds) (2 ^ 32 - 1)

theorem satDigit_min (n : Nat) (c : Char) :
    satDigit (min n (2 ^ 32 - 1)) c = min (10 * n + (c.toNat - '0'.toNat)) (2 ^ 32 - 1) := by
  unfold satDigit
  omega

theorem foldl_satDigit (ds : Text) (n : Nat) :
    ds.foldl satDigit (min n (2 ^ 32 - 1)) =
      min (ds.foldl (fun n c => 10 * n + (c.toNat - '0'.toNat)) n) (2 ^ 32 - 1) := by
  induction ds generalizing n with
  | nil => rfl
  | cons c ds ih => rw [foldl_cons, foldl_cons, satDigit_min, ih]

theorem satValue_eq_enteredValue (ds : Text) : satValue ds = enteredValue ds := foldl_satDigit ds 0

theorem Digits.not_mem {ds : Text} (h : Digits ds) {c : Char} (hc : c.isDigit = false) : c ∉ ds :=
  fun hmem => Bool.false_ne_true (hc.symm.trans (h.2 c hmem))

/-- One entry of a list of ports, and the range it reads as. -/
inductive PortItem : Text → Nat × Nat → Prop where
  | port {ds : Text} (hds : Digits ds) : PortItem ds (enteredValue ds, enteredValue ds)
  | range {low high : Text} (hlow : Digits low) (hhigh : Digits high)
      (hle : enteredValue low ≤ enteredValue high) :
      PortItem (low ++ '-' :: high) (enteredValue low, enteredValue high)

/-- Entries with a comma between them. One more comma may follow the last entry;
the last may also lack its high end, which is then 0. -/
inductive PortList : Text → List (Nat × Nat) → Prop where
  | last {item : Text} {r : Nat × Nat} (hitem : PortItem item r) : PortList item [r]
  | trailing {item : Text} {r : Nat × Nat} (hitem : PortItem item r) : PortList (item ++ [',']) [r]
  | noHigh {low : Text} (hlow : Digits low) (hle : enteredValue low ≤ 0) :
      PortList (low ++ ['-']) [(enteredValue low, 0)]
  | more {item rest : Text} {r : Nat × Nat} {rs : List (Nat × Nat)} (hitem : PortItem item r)
      (hrest : PortList rest rs) : PortList (item ++ ',' :: rest) (r :: rs)

def EnteredPorts (st st' : Entering) (rs : List (Nat × Nat)) : Prop :=
  st.entries + rs.length ≤ maxNwad ∧ st' = { entries := st.entries + rs.length, ports := st.ports ++ rs }

section Ports

variable {proto : Option Protocol} {host : Option IpAddr}

variable {st st' : Entering} {r : Nat × Nat}

theorem enterAddress_some_iff : enterAddress proto host st (some r) = .ok st' ↔ EnteredPorts st st' [r] := by
  rw [enterAddress, if_neg (by simp), EnteredPorts, length_singleton]
  by_cases hfull : maxNwad ≤ st.entries
  · rw [if_pos hfull]
    exact ⟨nofun, fun h => absurd h.1 (by omega)⟩
  · rw [if_neg hfull]
    exact ⟨fun h => ⟨by omega, (Except.ok.inj h).symm⟩, fun h => congrArg Except.ok h.2.symm⟩

theorem readPorts_digit {c : Char} (hc : c.isDigit = true) (fresh : Bool) (e : PortEntry) (st : Entering)
    (rest : Text) : readPorts proto host fresh e st (c :: rest) = readPorts proto host false (e.push c) st rest := by
  have hcomma : c ≠ ',' := by rintro rfl; exact absurd hc (by decide)
  have hdash : c ≠ '-' := by rintro rfl; exact absurd hc (by decide)
  rw [readPorts, if_neg (by simp [hc]), if_neg hcomma, if_neg hdash, if_pos hc]

theorem readPorts_digits {ds : Text} (hds : Digits ds) (e : PortEntry) (st : Entering) (rest : Text) :
    readPorts proto host true e st (ds ++ rest) = readPorts proto host false (ds.foldl PortEntry.push e) st rest := by
  have hrun : ∀ {ds : Text}, (∀ c ∈ ds, c.isDigit = true) → ∀ e, readPorts proto host false e st (ds ++ rest) =
      readPorts proto host false (ds.foldl PortEntry.push e) st rest := by
    intro ds hds
    induction ds with
    | nil => exact fun e => rfl
    | cons c ds ih =>
      obtain ⟨hc, hmore⟩ := forall_mem_cons.mp hds
      intro e
      rw [cons_append, readPorts_digit hc, ih hmore, foldl_cons]
  obtain ⟨hne, hall⟩ := hds
  obtain ⟨c, ds, rfl⟩ := exists_cons_of_ne_nil hne
  obtain ⟨hc, hmore⟩ := forall_mem_cons.mp hall
  rw [cons_append, readPorts_digit hc, hrun hmore, foldl_cons]

theorem foldl_push_start (ds : Text) (n m : Nat) :
    ds.foldl PortEntry.push ⟨n, m, false⟩ = ⟨ds.foldl satDigit n, m, false⟩ := by
  induction ds generalizing n with
  | nil => rfl
  | cons c ds ih => exact ih (satDigit n c)

theorem foldl_push_stop (ds : Text) (n m : Nat) :
    ds.foldl PortEntry.push ⟨n, m, true⟩ = ⟨n, ds.foldl satDigit m, true⟩ := by
  induction ds generalizing m with
  | nil => rfl
  | cons c ds ih => exact ih (satDigit m c)

theorem readPorts_start {ds : Text} (hds : Digits ds) (st : Entering) (rest : Text) :
    readPorts proto host true {} st (ds ++ rest) =
      readPorts proto host false ⟨enteredValue ds, 0, false⟩ st rest := by
  rw [readPorts_digits hds, foldl_push_start, ← satValue_eq_enteredValue]
  rfl

theorem readPorts_stop {ds : Text} (hds : Digits ds) (start : Nat) (st : Entering) (rest : Text) :
    readPorts proto host true ⟨start, 0, true⟩ st (ds ++ rest) =
      readPorts proto host false ⟨start, enteredValue ds, true⟩ st rest := by
  rw [readPorts_digits hds, foldl_push_stop, ← satValue_eq_enteredValue]
  rfl

theorem readPorts_dash (start : Nat) (st : Entering) (rest : Text) :
    readPorts proto host false ⟨start, 0, false⟩ st ('-' :: rest) =
      readPorts proto host true ⟨start, 0, true⟩ st rest := by
  rw [readPorts]
  rfl

variable {e : PortEntry} {rest : Text}

theorem readPorts_comma {st : Entering} :
    readPorts proto host false e st (',' :: rest) =
      match e.finish proto host st with
      | .error err => .error err
      | .ok st => if rest.isEmpty then .ok st else readPorts proto host true {} st rest := by
  rw [readPorts]
  rfl

theorem finish_port (n : Nat) (st : Entering) :
    PortEntry.finish ⟨n, 0, false⟩ proto host st = enterAddress proto host st (some (n, n)) := by
  rw [PortEntry.finish]
  exact if_neg (Nat.lt_irrefl n)

theorem finish_range {n m : Nat} (hle : n ≤ m) (st : Entering) :
    PortEntry.finish ⟨n, m, true⟩ proto host st = enterAddress proto host st (some (n, m)) := by
  rw [PortEntry.finish]
  exact if_neg (Nat.not_lt_of_le hle)

theorem le_of_finish_range {n m : Nat} (h : PortEntry.finish ⟨n, m, true⟩ proto host st = .ok st') : n ≤ m := by
  by_contra hlt
  rw [PortEntry.finish] at h
  dsimp only at h
  rw [if_pos rfl, if_pos (Nat.lt_of_not_le hlt)] at h
  exact absurd h nofun

theorem PortItem.read {item : Text} (h : PortItem item r) (proto : Option Protocol) (host : Option IpAddr) :
    ∃ e : PortEntry, (∀ st rest, readPorts proto host true {} st (item ++ rest) =
        readPorts proto host false e st rest) ∧
      ∀ st, e.finish proto host st = enterAddress proto host st (some r) := by
  cases h with
  | port hds =>
    exact ⟨_, readPorts_start hds, finish_port _⟩
  | @range low high hlow hhigh hle =>
    refine ⟨⟨enteredValue low, enteredValue high, true⟩, fun st rest => ?_, finish_range hle⟩
    rw [append_assoc, cons_append, readPorts_start hlow, readPorts_dash, readPorts_stop hhigh]

theorem PortItem.ne_nil {item : Text} (h : PortItem item r) : item ≠ [] := by
  cases h with
  | port hds => exact hds.1
  | range hlow => exact append_ne_nil_of_left_ne_nil hlow.1 _

variable {rs : List (Nat × Nat)} {text : Text}

theorem PortList.ne_nil (h : PortList text rs) : text ≠ [] := by
  cases h with
  | last hitem => exact hitem.ne_nil
  | trailing hitem => exact append_ne_nil_of_left_ne_nil hitem.ne_nil _
  | noHigh hlow => exact append_ne_nil_of_left_ne_nil hlow.1 _
  | more hitem => exact append_ne_nil_of_left_ne_nil hitem.ne_nil _

theorem EnteredPorts.trans {st st' st'' : Entering}
    (h : EnteredPorts st st' [r]) (h' : EnteredPorts st' st'' rs) : EnteredPorts st st'' (r :: rs) := by
  obtain ⟨-, rfl⟩ := h
  obtain ⟨hroom, rfl⟩ := h'
  rw [length_singleton] at hroom ⊢
  dsimp only at hroom
  refine ⟨by rw [length_cons]; omega, ?_⟩
  rw [append_assoc, singleton_append, length_cons, Nat.add_assoc, Nat.add_comm 1]

theorem readPorts_of_portList (h : PortList text rs)
    (hentered : EnteredPorts st st' rs) : readPorts proto host true {} st text = .ok st' := by
  induction h generalizing st with
  | last hitem =>
    obtain ⟨e, hread, hfinish⟩ := hitem.read proto host
    have hend := hread st []
    rw [append_nil] at hend
    rw [hend, readPorts, hfinish]
    exact enterAddress_some_iff.mpr hentered
  | trailing hitem =>
    obtain ⟨e, hread, hfinish⟩ := hitem.read proto host
    rw [hread, readPorts_comma, hfinish, enterAddress_some_iff.mpr hentered]
    rfl
  | noHigh hlow hle =>
    rw [readPorts_start hlow, readPorts_dash, readPorts, finish_range hle]
    exact enterAddress_some_iff.mpr hentered
  | @more item rest r rs hitem hrest ih =>
    obtain ⟨e, hread, hfinish⟩ := hitem.read proto host
    obtain ⟨hroom, hst'⟩ := hentered
    rw [length_cons] at hroom
    have hfirst : EnteredPorts st ⟨st.entries + 1, st.ports ++ [r]⟩ [r] := ⟨by rw [length_singleton]; omega, rfl⟩
    have hnext : EnteredPorts ⟨st.entries + 1, st.ports ++ [r]⟩ st' rs := by
      refine ⟨by dsimp only; omega, ?_⟩
      rw [hst', length_cons, append_assoc, singleton_append, Nat.add_assoc, Nat.add_comm 1]
    rw [hread, readPorts_comma, hfinish, enterAddress_some_iff.mpr hfirst]
    dsimp only
    rw [if_neg (by simpa using hrest.ne_nil)]
    exact ih hnext

theorem portList_of_ending {item rest : Text} (hitem : PortItem item r)
    (hfinish : ∀ st, e.finish proto host st = enterAddress proto host st (some r))
    (hends : rest = [] ∨ ∃ more, rest = ',' :: more)
    (hmore : ∀ more st, rest = ',' :: more → more ≠ [] → readPorts proto host true {} st more = .ok st' →
      ∃ rs, PortList more rs ∧ EnteredPorts st st' rs) (h : readPorts proto host false e st rest = .ok st') :
    ∃ rs, PortList (item ++ rest) rs ∧ EnteredPorts st st' rs := by
  rcases hends with rfl | ⟨more, rfl⟩
  · rw [readPorts, hfinish] at h
    rw [append_nil]
    exact ⟨[r], .last hitem, enterAddress_some_iff.mp h⟩
  · rw [readPorts_comma, hfinish] at h
    cases hfirst : enterAddress proto host st (some r) with
    | error e =>
      rw [hfirst] at h
      exact absurd h nofun
    | ok st₁ =>
      rw [hfirst] at h
      dsimp only at h
      have hone := enterAddress_some_iff.mp hfirst
      by_cases hlast : more = []
      · rw [if_pos (by rw [hlast]; rfl)] at h
        exact ⟨[r], hlast ▸ .trailing hitem, Except.ok.inj h ▸ hone⟩
      · rw [if_neg (by simpa using hlast)] at h
        obtain ⟨rs, hlist, hentered⟩ := hmore more st₁ rfl hlast h
        exact ⟨r :: rs, .more hitem hlist, hone.trans hentered⟩

theorem digits_then {c : Char} (hc : c.isDigit = true) (rest : Text) :
    ∃ ds after, c :: rest = ds ++ after ∧ Digits ds ∧ ∀ d more, after = d :: more → d.isDigit = false := by
  refine ⟨(c :: rest).takeWhile Char.isDigit, (c :: rest).dropWhile Char.isDigit,
    (takeWhile_append_dropWhile).symm, ⟨?_, fun d hd => mem_takeWhile_imp hd⟩, ?_⟩
  · rw [takeWhile_cons_of_pos hc]
    exact cons_ne_nil _ _
  · intro d more hafter
    have hhead := head?_dropWhile_not Char.isDigit (c :: rest)
    rw [hafter] at hhead
    simpa using hhead

theorem ends_of_readPorts (hnext : ∀ d more, rest = d :: more → d.isDigit = false)
    (h : readPorts proto host false e st rest = .ok st') :
    (rest = [] ∨ ∃ more, rest = ',' :: more) ∨ (e.range = false ∧ ∃ more, rest = '-' :: more) := by
  cases rest with
  | nil => exact .inl (.inl rfl)
  | cons d more =>
    by_cases hcomma : d = ','
    · exact .inl (.inr ⟨more, by rw [hcomma]⟩)
    rw [readPorts, if_neg (by simp), if_neg hcomma] at h
    by_cases hdash : d = '-'
    · refine .inr ⟨?_, more, by rw [hdash]⟩
      rw [if_pos hdash] at h
      split at h
      · exact absurd h nofun
      next hrange => exact eq_false_of_ne_true hrange
    · rw [if_neg hdash, if_neg (by rw [hnext d more rfl]; decide)] at h
      exact absurd h nofun

theorem finish_of_readPorts (hends : rest = [] ∨ ∃ more, rest = ',' :: more)
    (h : readPorts proto host false e st rest = .ok st') : ∃ st₁, e.finish proto host st = .ok st₁ := by
  rcases hends with rfl | ⟨more, rfl⟩
  · exact ⟨st', by rwa [readPorts] at h⟩
  · rw [readPorts_comma] at h
    split at h
    · cases h
    next st₁ hst₁ => exact ⟨st₁, hst₁⟩

theorem portList_of_dash {low after : Text} (hlow : Digits low)
    (hmore : ∀ more st, more.length < after.length → more ≠ [] → readPorts proto host true {} st more = .ok st' →
      ∃ rs, PortList more rs ∧ EnteredPorts st st' rs)
    (h : readPorts proto host true ⟨enteredValue low, 0, true⟩ st after = .ok st') :
    ∃ rs, PortList (low ++ '-' :: after) rs ∧ EnteredPorts st st' rs := by
  cases after with
  | nil =>
    rw [readPorts] at h
    have hle := le_of_finish_range h
    rw [finish_range hle] at h
    exact ⟨_, .noHigh hlow hle, enterAddress_some_iff.mp h⟩
  | cons d after =>
    by_cases hd : d.isDigit = true
    · obtain ⟨high, rest, htext, hhigh, hnext⟩ := digits_then hd after
      rw [htext] at h hmore ⊢
      rw [readPorts_stop hhigh] at h
      rcases ends_of_readPorts hnext h with hends | ⟨hrange, -⟩
      · obtain ⟨st₁, hfinish⟩ := finish_of_readPorts hends h
        have hle := le_of_finish_range hfinish
        have hitem := PortItem.range hlow hhigh hle
        rw [show low ++ '-' :: (high ++ rest) = low ++ '-' :: high ++ rest by simp]
        refine portList_of_ending hitem (finish_range hle) hends (fun more st hrest hne => ?_) h
        exact hmore more st (by rw [hrest, length_append, length_cons]; omega) hne
      · exact absurd hrange nofun
    · rw [readPorts, if_pos (by simp [hd])] at h
      exact absurd h nofun

theorem portList_of_readPorts (hne : text ≠ [])
    (h : readPorts proto host true {} st text = .ok st') : ∃ rs, PortList text rs ∧ EnteredPorts st st' rs := by
  -- by the length of the list: an entry, and what follows its comma
  induction hlen : text.length using Nat.strong_induction_on generalizing text st with
  | _ n ih =>
    obtain ⟨c, text, rfl⟩ := exists_cons_of_ne_nil hne
    by_cases hc : c.isDigit = true
    · obtain ⟨low, rest, htext, hlow, hnext⟩ := digits_then hc text
      have hmore : ∀ more st, more.length < rest.length → more ≠ [] →
          readPorts proto host true {} st more = .ok st' → ∃ rs, PortList more rs ∧ EnteredPorts st st' rs := by
        intro more st hshorter hne hread
        have hsum := congrArg List.length htext
        rw [length_append] at hsum
        exact ih more.length (by omega) hne hread rfl
      rw [htext] at h ⊢
      rw [readPorts_start hlow] at h
      rcases ends_of_readPorts hnext h with hends | ⟨-, after, rfl⟩
      · refine portList_of_ending (.port hlow) (finish_port _) hends (fun more st hrest => ?_) h
        exact hmore more st (by rw [hrest, length_cons]; omega)
      · rw [readPorts_dash] at h
        refine portList_of_dash hlow (fun more st hshorter => ?_) h
        exact hmore more st (by rw [length_cons]; omega)
    · rw [readPorts, if_pos (by simp [hc])] at h
      exact absurd h nofun

/-- The ports of a specification, which it may not have. -/
inductive PortText : Text → List (Nat × Nat) → Prop where
  | absent : PortText [] []
  | list {text : Text} {rs : List (Nat × Nat)} (hlist : PortList text rs) : PortText (':' :: text) rs

theorem PortList.rs_ne_nil (h : PortList text rs) : rs ≠ [] := by
  cases h <;> exact cons_ne_nil _ _

theorem readTail_iff {s : Text} :
    readTail proto host st s = .ok st' ↔
      ∃ rs, PortText s rs ∧ (proto ≠ none ∨ host ≠ none ∨ rs ≠ []) ∧ st.entries + max rs.length 1 ≤ maxNwad ∧
        st' = { entries := st.entries + max rs.length 1, ports := st.ports ++ rs } := by
  constructor
  · intro h
    unfold readTail at h
    split at h
    · rw [enterAddress] at h
      by_cases hnothing : (none : Option (Nat × Nat)).isNone && proto.isNone && host.isNone
      · rw [if_pos hnothing] at h
        exact absurd h nofun
      rw [if_neg hnothing] at h
      by_cases hfull : maxNwad ≤ st.entries
      · rw [if_pos hfull] at h
        exact absurd h nofun
      rw [if_neg hfull] at h
      have hroom : st.entries + 1 ≤ maxNwad := Nat.lt_of_not_le hfull
      refine ⟨[], .absent, ?_, hroom, (Except.ok.inj h).symm⟩
      by_contra hall
      simp only [ne_eq, not_true_eq_false, or_false, not_or, not_not] at hall
      exact hnothing (by rw [hall.1, hall.2]; rfl)
    next list =>
      split at h
      · exact absurd h nofun
      next hne =>
        obtain ⟨rs, hlist, hroom, hst'⟩ := portList_of_readPorts (by simpa using hne) h
        have hpos := length_pos_iff.mpr hlist.rs_ne_nil
        have hmax : max rs.length 1 = rs.length := by omega
        rw [← hmax] at hroom hst'
        exact ⟨rs, .list hlist, .inr (.inr hlist.rs_ne_nil), hroom, hst'⟩
    · exact absurd h nofun
  · rintro ⟨rs, htext, hsome, hroom, rfl⟩
    cases htext with
    | absent =>
      have hnot : ¬ ((none : Option (Nat × Nat)).isNone && proto.isNone && host.isNone) = true := by
        cases proto <;> cases host <;> simp_all
      rw [length_nil, Nat.max_eq_right (Nat.zero_le 1)] at hroom
      rw [readTail, enterAddress, if_neg hnot, if_neg (by omega)]
      rfl
    | list hlist =>
      have hpos := length_pos_iff.mpr hlist.rs_ne_nil
      have hmax : max rs.length 1 = rs.length := by omega
      rw [hmax] at hroom ⊢
      rw [readTail, if_neg (by simpa using hlist.ne_nil)]
      exact readPorts_of_portList hlist ⟨hroom, rfl⟩

end Ports

end Lsof.Cli
