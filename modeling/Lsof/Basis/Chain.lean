import Mathlib

/-! # Hash chains and their summaries

A table of chains in which the first entry of a bucket stays at its head and
each later one goes just behind the head. Searching a chain for a key meets
one of two entries first: the last one walked into the bucket's head position,
or the first of that key. A summary that keeps, for each key, the first and the
last entry, and for each bucket its head, therefore answers every search the
chain answers, whatever collides with what.
-/

namespace Lsof.Basis

open List

/-- The first entry becomes the head; a later one goes just behind it. -/
def chainInsert {ι : Type} : List ι → ι → List ι
  | [], e => [e]
  | head :: rest, e => head :: e :: rest

def chainOf {ι : Type} (walked : List ι) : List ι := walked.foldl chainInsert []

theorem foldl_chainInsert {ι : Type} (walked : List ι) (head : ι) (rest : List ι) :
    walked.foldl chainInsert (head :: rest) = head :: (walked.reverse ++ rest) := by
  induction walked generalizing rest with
  | nil => rfl
  | cons e walked ih => simp [chainInsert, ih]

theorem chainOf_cons {ι : Type} (head : ι) (walked : List ι) : chainOf (head :: walked) = head :: walked.reverse := by
  simp [chainOf, chainInsert, foldl_chainInsert]

theorem find?_and_eq_iff {ι : Type} (es : List ι) (p q : ι → Bool) :
    es.find? p = es.find? (fun e => p e && q e) ↔ ∀ e, es.find? p = some e → q e = true := by
  induction es with
  | nil => simp
  | cons e es ih =>
    cases hp : p e with
    | false => simp [hp, ih]
    | true =>
      cases hq : q e with
      | true => simp [hp, hq]
      | false =>
        simp only [find?_cons, hp, hq, Bool.and_false, Option.some.injEq, forall_eq', Bool.false_eq_true, iff_false]
        intro hsame
        have hfound := find?_some hsame.symm
        simp [hq] at hfound

/-- The first and the last entry made with one key. -/
@[ext] structure Span (ι : Type) where
  first : ι
  last : ι
  deriving DecidableEq, Repr

namespace Span

variable {ι : Type}

def enter (span : Option (Span ι)) (e : ι) : Span ι :=
  { first := (span.map Span.first).getD e, last := e }

/-- The entry of this key the chain with this head meets first. -/
def firstMet [DecidableEq ι] (span : Option (Span ι)) (head : Option ι) : Option ι :=
  span.map (fun s => if head = some s.last then s.last else s.first)

theorem firstMet_isSome [DecidableEq ι] (span : Option (Span ι)) (head : Option ι) :
    (firstMet span head).isSome = span.isSome := by
  cases span <;> rfl

end Span

def update {κ ν : Type} [DecidableEq κ] (m : κ → Option ν) (k : κ) (v : ν) : κ → Option ν :=
  fun k' => if k' = k then some v else m k'

@[simp] theorem update_self {κ ν : Type} [DecidableEq κ] (m : κ → Option ν) (k : κ) (v : ν) :
    update m k v k = some v := if_pos rfl

theorem update_of_ne {κ ν : Type} [DecidableEq κ] (m : κ → Option ν) {k k' : κ} (v : ν)
    (h : k' ≠ k) : update m k v k' = m k' := if_neg h

section Table

variable {ι κ β : Type} [DecidableEq κ] [DecidableEq β]
  (key : ι → Option κ) (bucket : κ → β)

def inBucket (b : β) (e : ι) : Bool := (key e).map bucket == some b

/-- The chain of bucket `b`, where the table's entries are walked last entered first. -/
def bucketChain (entered : List ι) (b : β) : List ι :=
  chainOf (entered.reverse.filter (inBucket key bucket b))

def spanOf (entered : List ι) (k : κ) : Option (Span ι) :=
  match entered.find? (fun e => key e == some k), entered.reverse.find? (fun e => key e == some k) with
  | some first, some last => some { first, last }
  | _, _ => none

/-- The entry walked first into a bucket: the last one entered there. -/
def headOf (entered : List ι) (b : β) : Option ι :=
  entered.reverse.find? (inBucket key bucket b)

theorem inBucket_of_key {k : κ} {e : ι} (h : (key e == some k) = true) : inBucket key bucket (bucket k) e = true := by
  have hk : key e = some k := by simpa using h
  simp [inBucket, hk]

theorem find?_filter_bucket (k : κ) (es : List ι) :
    (es.filter (inBucket key bucket (bucket k))).find? (fun e => key e == some k) =
      es.find? (fun e => key e == some k) := by
  induction es with
  | nil => rfl
  | cons e es ih =>
    by_cases hk : (key e == some k) = true
    · simp [inBucket_of_key key bucket hk, hk]
    · by_cases hb : inBucket key bucket (bucket k) e = true
      · simp [hb, hk, ih]
      · simp [hb, hk, ih]

theorem spanOf_isSome (es : List ι) (k : κ) : (spanOf key es k).isSome = es.any (fun e => key e == some k) := by
  unfold spanOf
  cases hf : es.find? (fun e => key e == some k) with
  | none =>
    have hnone := find?_eq_none.mp hf
    symm
    simp only [Option.isSome_none, any_eq_false]
    exact hnone
  | some first =>
    have hmem := mem_of_find?_eq_some hf
    have hkey := find?_some hf
    have hlast : (es.reverse.find? (fun e => key e == some k)).isSome = true := by
      rw [find?_isSome]
      exact ⟨first, by simpa using hmem, hkey⟩
    obtain ⟨last, hl⟩ := Option.isSome_iff_exists.mp hlast
    symm
    simp only [hl, Option.isSome_some, any_eq_true]
    exact ⟨first, hmem, hkey⟩

theorem spanOf_append (es : List ι) (e : ι) (k : κ) :
    spanOf key (es ++ [e]) k =
      if key e = some k then some (Span.enter (spanOf key es k) e) else spanOf key es k := by
  have hs := spanOf_isSome key es k
  unfold spanOf at hs ⊢
  by_cases hk : key e = some k
  · have hkb : (key e == some k) = true := by simp [hk]
    cases hf : es.find? (fun e => key e == some k) with
    | none => simp [hf, hk, Span.enter]
    | some first =>
      have hany : es.any (fun e => key e == some k) = true := by
        rw [any_eq_true]
        have hkey := find?_some hf
        exact ⟨first, mem_of_find?_eq_some hf, hkey⟩
      rw [hf, hany] at hs
      cases hl : es.reverse.find? (fun e => key e == some k) with
      | none => rw [hl] at hs; cases hs
      | some last => simp [hf, hk, Span.enter]
  · have hkb : (key e == some k) = false := by simp [hk]
    simp only [find?_append, reverse_append, reverse_singleton, singleton_append,
      find?_cons, hkb, find?_nil, Option.or_none, if_neg hk]

omit [DecidableEq κ] in
theorem headOf_append (es : List ι) (e : ι) (b : β) :
    headOf key bucket (es ++ [e]) b =
      if inBucket key bucket b e = true then some e else headOf key bucket es b := by
  unfold headOf
  by_cases hb : inBucket key bucket b e = true
  · simp [hb]
  · simp [hb]

theorem firstMet_eq_find?_bucketChain [DecidableEq ι] (es : List ι) (k : κ) :
    Span.firstMet (spanOf key es k) (headOf key bucket es (bucket k)) =
      (bucketChain key bucket es (bucket k)).find? (fun e => key e == some k) := by
  have hlast := find?_filter_bucket key bucket k es.reverse
  have hfirst := find?_filter_bucket key bucket k es
  unfold bucketChain spanOf
  rw [← hfirst, ← hlast]
  have hhead : headOf key bucket es (bucket k) =
      (es.reverse.filter (inBucket key bucket (bucket k))).head? := by
    rw [headOf, head?_filter]
  rw [hhead, filter_reverse]
  -- Everything now speaks of the bucket's own entries, in the order entered.
  generalize es.filter (inBucket key bucket (bucket k)) = own
  rcases eq_nil_or_concat own with rfl | ⟨early, last, rfl⟩
  · rfl
  · simp only [concat_eq_append, reverse_append, reverse_singleton,
      singleton_append, head?_cons, chainOf_cons, reverse_reverse,
      find?_cons, find?_append, find?_nil]
    by_cases hk : (key last == some k) = true
    · -- The head has the key: it is the last entry of the key, too.
      simp only [hk]
      cases early.find? (fun e => key e == some k) <;> simp [Span.firstMet]
    · simp only [hk, Option.or_none]
      cases hf : early.find? (fun e => key e == some k) with
      | none => simp [Span.firstMet]
      | some first =>
        cases hl : early.reverse.find? (fun e => key e == some k) with
        | none =>
          have := find?_eq_none.mp hl first
            (by simpa using mem_of_find?_eq_some hf)
          exact absurd (find?_some hf) this
        | some l =>
          have hne : ¬ last = l := by
            rintro rfl
            have hkey := find?_some hl
            exact hk hkey
          simp [Span.firstMet, hne]

/-- The entry a chain meets first, in the order of entering: the last of the
bucket where it has the key, else the first that has it. -/
theorem find?_bucketChain_eq_some_iff (es : List ι) (k : κ) (e : ι) :
    (bucketChain key bucket es (bucket k)).find? (fun e => key e == some k) = some e ↔
      key e = some k ∧
        ((∃ early, es.filter (inBucket key bucket (bucket k)) = early ++ [e]) ∨ ∃ before after last,
            es.filter (inBucket key bucket (bucket k)) = before ++ e :: after ++ [last] ∧
              key last ≠ some k ∧ ∀ a ∈ before, key a ≠ some k) := by
  unfold bucketChain
  rw [filter_reverse]
  generalize es.filter (inBucket key bucket (bucket k)) = own
  rcases eq_nil_or_concat own with rfl | ⟨early, last, rfl⟩
  · simp [chainOf]
  · simp only [concat_eq_append, reverse_append, reverse_singleton,
      singleton_append, chainOf_cons, reverse_reverse, find?_cons]
    by_cases hk : key last = some k
    · have hkb : (key last == some k) = true := by simp [hk]
      simp only [hkb, Option.some.injEq]
      constructor
      · intro he
        subst he
        exact ⟨hk, Or.inl ⟨early, rfl⟩⟩
      · rintro ⟨_, ⟨early', hown⟩ | ⟨before, after, last', hown, hlast, _⟩⟩
        · simpa using (append_inj' hown rfl).2
        · have hsame : last = last' := by simpa using (append_inj' hown rfl).2
          exact absurd (hsame ▸ hk) hlast
    · have hkb : (key last == some k) = false := by simp [hk]
      simp only [hkb, find?_eq_some_iff_append, beq_iff_eq, Bool.not_eq_true', beq_eq_false_iff_ne]
      constructor
      · rintro ⟨he, before, after, rfl, hbefore⟩
        exact ⟨he, Or.inr ⟨before, after, last, by simp, hk, hbefore⟩⟩
      · rintro ⟨he, ⟨early', hown⟩ | ⟨before, after, last', hown, _, hbefore⟩⟩
        · have hsame : last = e := by simpa using (append_inj' hown rfl).2
          exact absurd (hsame ▸ he) hk
        · exact ⟨he, before, after, (append_inj' hown rfl).1, hbefore⟩

def chainAt (table : β → List ι) (b : β) (e : ι) : β → List ι :=
  fun b' => if b' = b then chainInsert (table b') e else table b'

/-- A table holds the entries walked, each in the chain of its key's bucket,
and counts them: at zero nothing walked had a key. -/
structure Chained (walked : List ι) (table : β → List ι) (count : Nat) : Prop where
  chains : ∀ b, table b = chainOf (walked.filter (inBucket key bucket b))
  count : count = 0 → ∀ e ∈ walked, key e = none

variable {key bucket} {walked : List ι} {table : β → List ι} {count : Nat} {e : ι}

omit [DecidableEq κ] in
theorem Chained.nil : Chained key bucket [] (fun _ => []) 0 where
  chains _ := rfl
  count := by simp

omit [DecidableEq κ] in
theorem Chained.enter (h : Chained key bucket walked table count) {k : κ} (hkey : key e = some k) :
    Chained key bucket (walked ++ [e]) (chainAt table (bucket k) e) (count + 1) where
  chains := by
    intro b
    have hin : inBucket key bucket b e = decide (bucket k = b) := by
      rw [Bool.eq_iff_iff]
      simp [inBucket, hkey]
    rw [filter_append, filter_singleton, hin, chainAt, h.chains b]
    by_cases hb : b = bucket k
    · simp [hb, chainOf]
    · have hb' : ¬ bucket k = b := fun h => hb h.symm
      simp [hb, hb']
  count := by omega

omit [DecidableEq κ] in
theorem Chained.skip (h : Chained key bucket walked table count) (hkey : key e = none) :
    Chained key bucket (walked ++ [e]) table count where
  chains := by
    intro b
    rw [filter_append, filter_singleton, h.chains b]
    simp [inBucket, hkey]
  count := by
    intro hzero e' he'
    rw [mem_append, mem_singleton] at he'
    rcases he' with he' | he'
    · exact h.count hzero e' he'
    · rw [he', hkey]

omit [DecidableEq κ] in
theorem key_of_mem_bucketChain {es : List ι} {b : β} (h : e ∈ bucketChain key bucket es b) : ∃ k, key e = some k := by
  have hmem : ∀ walked : List ι, e ∈ chainOf walked → e ∈ walked := by
    intro walked
    cases walked with
    | nil => exact fun h => h
    | cons head rest => simp [chainOf_cons]
  have hin := of_mem_filter (hmem _ h)
  cases hkey : key e with
  | none => simp [inBucket, hkey] at hin
  | some k => exact ⟨k, rfl⟩

omit [DecidableEq κ] in
theorem Chained.search {entered : List ι} (h : Chained key bucket entered.reverse table count)
    (b : β) (test : ι → Bool) :
    (if count = 0 then none else (table b).find? test) = (bucketChain key bucket entered b).find? test := by
  unfold bucketChain
  rw [h.chains]
  by_cases hzero : count = 0
  · have hempty : entered.reverse.filter (inBucket key bucket b) = [] := by
      rw [filter_eq_nil_iff]
      intro e he
      simp [inBucket, h.count hzero e he]
    rw [if_pos hzero, hempty]
    rfl
  · rw [if_neg hzero]

theorem Chained.firstMet [DecidableEq ι] {entered : List ι}
    (h : Chained key bucket entered.reverse table count) {k : κ} {test : ι → Bool}
    (htest : ∀ e k', key e = some k' → (test e = true ↔ k' = k)) :
    (if count = 0 then none else (table (bucket k)).find? test) =
      Span.firstMet (spanOf key entered k) (headOf key bucket entered (bucket k)) := by
  rw [h.search, firstMet_eq_find?_bucketChain]
  apply find?_congr
  intro e he
  obtain ⟨k', hk'⟩ := key_of_mem_bucketChain he
  rw [Bool.eq_iff_iff, htest e k' hk', hk']
  simp

end Table

end Lsof.Basis
