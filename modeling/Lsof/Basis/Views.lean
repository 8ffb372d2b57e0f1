import Lsof.Basis.Text

/-! # Reading a buffer through views

A view is a stretch of a buffer: where it begins and its bytes. A computation that
reads through views gives with its result the places of the buffer that it read.
Numbers are read in one of the two byte orders.
-/

namespace Lsof.Basis

open List

structure Reading (α : Type) where
  value : α
  places : List Nat

namespace Reading

variable {α β : Type}

instance : Monad Reading where
  pure a := ⟨a, []⟩
  bind x f := ⟨(f x.value).value, x.places ++ (f x.value).places⟩

@[simp] theorem value_pure (a : α) : (pure a : Reading α).value = a := rfl

@[simp] theorem value_bind (x : Reading α) (f : α → Reading β) : (x >>= f).value = (f x.value).value := rfl

/-- Every place read is among the first `n`. -/
def Within (n : Nat) (x : Reading α) : Prop := ∀ i ∈ x.places, i < n

theorem Within.pure (n : Nat) (a : α) : Within n (Pure.pure a : Reading α) := fun _ h => absurd h not_mem_nil

theorem Within.bind {n : Nat} {x : Reading α} {f : α → Reading β} (hx : x.Within n) (hf : (f x.value).Within n) :
    (x >>= f).Within n := by
  intro i hi
  rcases mem_append.mp hi with hi | hi
  · exact hx i hi
  · exact hf i hi

end Reading

inductive ByteOrder where
  | little
  | big
  deriving DecidableEq, Repr

namespace ByteOrder

/-- The number that bytes stand for, the lowest first. -/
def lowFirst (bs : Bytes) : Nat := bs.foldr (fun b n => b.toNat + 256 * n) 0

def value : ByteOrder → Bytes → Nat
  | little, bs => lowFirst bs
  | big, bs => lowFirst bs.reverse

def lowFirstBytes : Nat → Nat → Bytes
  | 0, _ => []
  | w + 1, n => UInt8.ofNat (n % 256) :: lowFirstBytes w (n / 256)

def bytes (order : ByteOrder) (w n : Nat) : Bytes :=
  match order with
  | little => lowFirstBytes w n
  | big => (lowFirstBytes w n).reverse

theorem length_lowFirstBytes (w n : Nat) : (lowFirstBytes w n).length = w := by
  induction w generalizing n with
  | zero => rfl
  | succ w ih => rw [lowFirstBytes, length_cons, ih]

theorem lowFirst_lowFirstBytes {w n : Nat} (h : n < 256 ^ w) : lowFirst (lowFirstBytes w n) = n := by
  induction w generalizing n with
  | zero =>
    rw [Nat.pow_zero] at h
    have hzero : n = 0 := by omega
    rw [hzero]
    rfl
  | succ w ih =>
    have hrest : n / 256 < 256 ^ w := by
      rw [Nat.pow_succ] at h
      omega
    have hbyte : (UInt8.ofNat (n % 256)).toNat = n % 256 := by
      rw [UInt8.toNat_ofNat']
      omega
    change (UInt8.ofNat (n % 256)).toNat + 256 * lowFirst (lowFirstBytes w (n / 256)) = n
    rw [hbyte, ih hrest]
    omega

theorem lowFirst_lt (bs : Bytes) : lowFirst bs < 256 ^ bs.length := by
  induction bs with
  | nil => decide
  | cons b bs ih =>
    have hb := b.toNat_lt
    change b.toNat + 256 * lowFirst bs < 256 ^ (bs.length + 1)
    rw [Nat.pow_succ]
    omega

theorem lowFirstBytes_lowFirst (bs : Bytes) : lowFirstBytes bs.length (lowFirst bs) = bs := by
  induction bs with
  | nil => rfl
  | cons b bs ih =>
    have hb := b.toNat_lt
    change UInt8.ofNat ((b.toNat + 256 * lowFirst bs) % 256) ::
      lowFirstBytes bs.length ((b.toNat + 256 * lowFirst bs) / 256) = _
    rw [show (b.toNat + 256 * lowFirst bs) % 256 = b.toNat by omega,
      show (b.toNat + 256 * lowFirst bs) / 256 = lowFirst bs by omega, ih, UInt8.ofNat_toNat]

theorem length_bytes (order : ByteOrder) (w n : Nat) : (order.bytes w n).length = w := by
  cases order with
  | little => exact length_lowFirstBytes w n
  | big => exact (length_reverse).trans (length_lowFirstBytes w n)

theorem value_bytes (order : ByteOrder) {w n : Nat} (h : n < 256 ^ w) : order.value (order.bytes w n) = n := by
  cases order with
  | little => exact lowFirst_lowFirstBytes h
  | big => exact (congrArg lowFirst (reverse_reverse _)).trans (lowFirst_lowFirstBytes h)

end ByteOrder

structure View where
  base : Nat
  bytes : Bytes
  deriving DecidableEq, Repr

namespace View

def whole (buf : Bytes) : View := ⟨0, buf⟩

def length (v : View) : Nat := v.bytes.length

/-- The stretch from `a` up to `b`, where the view has it. -/
def slice (v : View) (a b : Nat) : Option View :=
  if a ≤ b ∧ b ≤ v.length then some ⟨v.base + a, (v.bytes.drop a).take (b - a)⟩ else none

def after (v : View) (a : Nat) : Option View := v.slice a v.length

def number (order : ByteOrder) (w : Nat) (v : View) (i : Nat) : Reading (Option Nat) :=
  if i + w ≤ v.length then ⟨some (order.value ((v.bytes.drop i).take w)), List.range' (v.base + i) w⟩
  else ⟨none, []⟩

def first (v : View) : Reading (Option UInt8) :=
  match v.bytes with
  | [] => ⟨none, []⟩
  | b :: _ => ⟨some b, [v.base]⟩

def Of (buf : Bytes) (v : View) : Prop := ∃ front back, buf = front ++ v.bytes ++ back ∧ front.length = v.base

variable {buf : Bytes} {v u : View}

theorem Of.whole (buf : Bytes) : (View.whole buf).Of buf := ⟨[], [], by simp [View.whole], rfl⟩

theorem Of.le (h : v.Of buf) : v.base + v.length ≤ buf.length := by
  rcases h with ⟨front, back, hbuf, hbase⟩
  rw [hbuf, ← hbase, View.length, length_append, length_append]
  omega

theorem Of.slice (h : v.Of buf) {a b : Nat} (hs : v.slice a b = some u) : u.Of buf := by
  rcases h with ⟨front, back, hbuf, hbase⟩
  unfold View.slice at hs
  split at hs
  next hab =>
    rw [View.length] at hab
    refine ⟨front ++ v.bytes.take a, v.bytes.drop b ++ back, ?_, ?_⟩
    · have hmiddle : v.bytes = v.bytes.take a ++ ((v.bytes.drop a).take (b - a) ++ v.bytes.drop b) := by
        have hdrop : v.bytes.drop b = (v.bytes.drop a).drop (b - a) := by
          rw [drop_drop]
          congr 1
          omega
        rw [hdrop, take_append_drop, take_append_drop]
      rw [← Option.some.inj hs, hbuf]
      conv_lhs => rw [hmiddle]
      simp only [append_assoc]
    · rw [← Option.some.inj hs, length_append, length_take, hbase, Nat.min_eq_left (by omega)]
  next => exact absurd hs nofun

theorem Of.after (h : v.Of buf) {a : Nat} (ha : v.after a = some u) : u.Of buf := h.slice ha

theorem Of.within_number (h : v.Of buf) (order : ByteOrder) (w i : Nat) : (v.number order w i).Within buf.length := by
  have hle := h.le
  unfold number
  split
  next hi =>
    intro j hj
    rcases mem_range'.mp hj with ⟨k, hk, rfl⟩
    omega
  next => exact fun _ hj => absurd hj not_mem_nil

theorem Of.within_first (h : v.Of buf) : v.first.Within buf.length := by
  have hle := h.le
  unfold first
  cases hbytes : v.bytes with
  | nil => exact fun _ hj => absurd hj not_mem_nil
  | cons b bs =>
    intro j hj
    rw [mem_singleton.mp hj]
    rw [length, hbytes, length_cons] at hle
    omega

theorem length_of_slice {a b : Nat} (h : v.slice a b = some u) : u.length = b - a := by
  unfold slice at h
  split at h
  next hab =>
    rw [← Option.some.inj h, length, length_take, length_drop]
    rw [length] at hab
    omega
  next => exact absurd h nofun

theorem le_of_slice {a b : Nat} (h : v.slice a b = some u) : a ≤ b := by
  unfold slice at h
  split at h
  next hab => exact hab.1
  next => exact absurd h nofun

theorem value_number_bytes {order : ByteOrder} {w n i : Nat} {front back : Bytes}
    (h : v.bytes = front ++ (order.bytes w n ++ back)) (hi : front.length = i) (hn : n < 256 ^ w) :
    (v.number order w i).value = some n := by
  have hw := order.length_bytes w n
  have hfits : i + w ≤ v.length := by
    rw [length, h, length_append, length_append]
    omega
  have htake : (order.bytes w n ++ back).take w = order.bytes w n := take_left' hw
  rw [number, if_pos hfits, h, ← hi, drop_left, htake, order.value_bytes hn]

theorem slice_bytes {front middle back : Bytes} (h : v.bytes = front ++ (middle ++ back)) :
    v.slice front.length (front.length + middle.length) = some ⟨v.base + front.length, middle⟩ := by
  have hfits : front.length ≤ front.length + middle.length ∧ front.length + middle.length ≤ v.length := by
    rw [length, h, length_append, length_append]
    omega
  rw [slice, if_pos hfits, h, drop_left, Nat.add_sub_cancel_left, take_left]

theorem after_bytes {front back : Bytes} (h : v.bytes = front ++ back) :
    v.after front.length = some ⟨v.base + front.length, back⟩ := by
  have hlength : v.length = front.length + back.length := by rw [length, h, length_append]
  rw [after, hlength]
  apply slice_bytes
  rw [h, append_nil]

theorem value_number_append {r rest : Bytes} (h : v.bytes = r ++ rest) (order : ByteOrder) {w i : Nat}
    (hi : i + w ≤ r.length) : (v.number order w i).value = ((whole r).number order w i).value := by
  have hfits : i + w ≤ v.length := by
    rw [length, h, length_append]
    omega
  have hwhole : i + w ≤ (whole r).length := hi
  rw [number, number, if_pos hfits, if_pos hwhole, h, drop_append_of_le_length (by omega),
    take_append_of_le_length (by rw [length_drop]; omega)]
  rfl

theorem value_number_congr (h : v.bytes = u.bytes) (order : ByteOrder) (w i : Nat) :
    (v.number order w i).value = (u.number order w i).value := by
  unfold number length
  rw [h]
  split <;> rfl

theorem value_first_congr (h : v.bytes = u.bytes) : v.first.value = u.first.value := by
  unfold first
  rw [h]
  cases u.bytes <;> rfl

theorem slice_congr (h : v.bytes = u.bytes) (a b : Nat) :
    (v.slice a b).map View.bytes = (u.slice a b).map View.bytes := by
  unfold slice length
  rw [h]
  split <;> rfl

end View

/-! ## Turns

A loop whose turns each leave a state and the view the next turn is to read, or
none where the loop is to end.
-/

section Turns

variable {γ : Type} (turn : View → γ → Reading (γ × Option View))

/-- The state at the end; none where the turns are not enough. -/
def turns : Nat → View → γ → Reading (Option γ)
  | 0, _, _ => pure none
  | n + 1, v, s => do
      let t ← turn v s
      match t.2 with
      | none => pure (some t.1)
      | some next => turns n next t.1

variable {turn}

theorem turns_value (hless : ∀ v s next, (turn v s).value.2 = some next → next.length < v.length)
    (hcongr : ∀ v u s, v.bytes = u.bytes → (turn v s).value.1 = (turn u s).value.1 ∧
      (turn v s).value.2.map View.bytes = (turn u s).value.2.map View.bytes)
    {n m : Nat} {v u : View} (hn : v.length < n) (hm : u.length < m) (hbytes : v.bytes = u.bytes) (s : γ) :
    ∃ s', (turns turn n v s).value = some s' ∧ (turns turn m u s).value = some s' := by
  induction n generalizing m v u s with
  | zero => exact absurd hn (Nat.not_lt_zero _)
  | succ n ih =>
    cases m with
    | zero => exact absurd hm (Nat.not_lt_zero _)
    | succ m =>
      have hsame := hcongr v u s hbytes
      rw [turns, turns, Reading.value_bind, Reading.value_bind]
      cases hv : (turn v s).value.2 with
      | none =>
        cases hu : (turn u s).value.2 with
        | none => exact ⟨_, rfl, congrArg some hsame.1.symm⟩
        | some next => simp [hv, hu] at hsame
      | some next =>
        cases hu : (turn u s).value.2 with
        | none => simp [hv, hu] at hsame
        | some next' =>
          have hnext : next.bytes = next'.bytes := by simpa [hv, hu] using hsame.2
          have hlessv := hless v s next hv
          have hlessu := hless u s next' hu
          have hend := ih (by omega) (by omega : next'.length < m) hnext (turn v s).value.1
          rw [hsame.1] at hend
          dsimp only
          rw [hsame.1]
          exact hend

theorem turns_isSome (hless : ∀ v s next, (turn v s).value.2 = some next → next.length < v.length) {n : Nat} {v : View}
    (hn : v.length < n) (s : γ) : (turns turn n v s).value.isSome := by
  induction n generalizing v s with
  | zero => exact absurd hn (Nat.not_lt_zero _)
  | succ n ih =>
    rw [turns, Reading.value_bind]
    cases hv : (turn v s).value.2 with
    | none => rfl
    | some next =>
      have hshort := hless v s next hv
      exact ih (by omega) _

/-- A loop over records back to back, of which each turn takes one, up to what ends it. -/
theorem turns_records {f : γ → Bytes → γ} {good : Bytes → Prop} {tail : Bytes}
    (htake : ∀ v s r rest, good r → v.bytes = r ++ rest → 0 < r.length ∧
      ∃ next, (turn v s).value = (f s r, some next) ∧ next.bytes = rest)
    (hstop : ∀ v s, v.bytes = tail → (turn v s).value = (s, none)) {rs : List Bytes} (hrs : ∀ r ∈ rs, good r) {n : Nat}
    {v : View} (hv : v.bytes = rs.flatten ++ tail) (hn : v.length < n) (s : γ) :
    (turns turn n v s).value = some (rs.foldl f s) := by
  induction rs generalizing n v s with
  | nil =>
    cases n with
    | zero => exact absurd hn (Nat.not_lt_zero _)
    | succ n =>
      rw [turns, Reading.value_bind, hstop v s hv]
      rfl
  | cons r rs ih =>
    cases n with
    | zero => exact absurd hn (Nat.not_lt_zero _)
    | succ n =>
      rw [flatten_cons, append_assoc] at hv
      obtain ⟨hpos, next, hturn, hnext⟩ := htake v s r _ (hrs r mem_cons_self) hv
      have hshort : next.length < n := by
        rw [View.length, hv, ← hnext, length_append] at hn
        rw [View.length]
        omega
      rw [turns, Reading.value_bind, hturn]
      exact ih (fun r hr => hrs r (mem_cons_of_mem _ hr)) hnext hshort (f s r)

theorem turns_within {buf : Bytes} (hturn : ∀ v s, v.Of buf → (turn v s).Within buf.length ∧
      ∀ next, (turn v s).value.2 = some next → next.Of buf)
    (n : Nat) {v : View} (hv : v.Of buf) (s : γ) : (turns turn n v s).Within buf.length := by
  induction n generalizing v s with
  | zero => exact .pure _ _
  | succ n ih =>
    have hone := hturn v s hv
    apply Reading.Within.bind hone.1
    cases hnext : (turn v s).value.2 with
    | none => exact .pure _ _
    | some next => exact ih (hone.2 next hnext) _

theorem turns_keeps {P : γ → Prop} (hturn : ∀ v s, P s → P (turn v s).value.1) (n : Nat) {v : View} {s s' : γ} (hs : P s)
    (h : (turns turn n v s).value = some s') : P s' := by
  induction n generalizing v s with
  | zero => exact absurd h nofun
  | succ n ih =>
    rw [turns, Reading.value_bind] at h
    cases hnext : (turn v s).value.2 with
    | none =>
      rw [hnext] at h
      rw [← Option.some.inj h]
      exact hturn v s hs
    | some next =>
      rw [hnext] at h
      exact ih (hturn v s hs) h

end Turns

end Lsof.Basis
