import Lsof.Linux.Helper

/-! # Whose reply a call returns

A helper's frames come through its pipe and its reader thread in the order it wrote
them, and a call that does not take the whole of its reply leaves the helper. So what
is left of the pipe begins, at each call, with the reply to it, and no call has the
answer to another.
-/

namespace Lsof.Linux

open Lsof.Basis List

def IsReply (reply : List Frame) : Prop := Closed (fun f => f.1 != R_NAMES) reply

theorem takeError_ne_more (payload : Bytes) (st : Listed) : takeError payload ≠ .more st := by
  unfold takeError
  cases decodeError payload with
  | none => nofun
  | some errno => nofun

theorem takeStat_ne_more (kind : UInt8) (payload : Bytes) (st : Listed) : takeStat kind payload ≠ .more st := by
  unfold takeStat
  split
  · cases decodeStat payload with
    | none => nofun
    | some found => nofun
  · split
    · exact takeError_ne_more payload st
    · nofun

theorem takeLink_ne_more (kind : UInt8) (payload : Bytes) (st : Listed) : takeLink kind payload ≠ .more st := by
  unfold takeLink
  split
  · nofun
  · split
    · exact takeError_ne_more payload st
    · nofun

theorem kind_of_more {request : FsRequest} {st next : Listed} {f : Frame} (h : takeReply request st f = .more next) :
    f.1 = R_NAMES := by
  cases request with
  | stat path => exact absurd h (takeStat_ne_more _ _ _)
  | lstat path => exact absurd h (takeStat_ne_more _ _ _)
  | readlink path => exact absurd h (takeLink_ne_more _ _ _)
  | readDir path =>
    by_contra hkind
    rw [takeReply, takeNames, if_neg hkind] at h
    split at h
    · cases h
    · split at h
      · exact takeError_ne_more _ _ h
      · cases h

theorem kind_of_done {request : FsRequest} {st : Listed} {f : Frame} {answer : Answer}
    (h : takeReply request st f = .done answer) : f.1 ≠ R_NAMES := by
  intro hkind
  cases request with
  | stat path =>
    rw [takeReply, hkind] at h
    cases h
  | lstat path =>
    rw [takeReply, hkind] at h
    cases h
  | readlink path =>
    rw [takeReply, hkind] at h
    cases h
  | readDir path =>
    rw [takeReply, takeNames, if_pos hkind] at h
    cases hnames : decodeNames f.2 st with
    | none =>
      rw [hnames] at h
      cases h
    | some next =>
      rw [hnames] at h
      cases h

namespace HelperProc

/-- It has greeted, and answers what it is asked in order: its frames are a greeting
and a reply for each request. -/
def InOrder (p : HelperProc) (replies : List (List Frame)) : Prop :=
  (∀ reply ∈ replies, IsReply reply) ∧ ∃ greeting, p.sent <+: greeting :: replies.flatten

structure Flow (p : HelperProc) : Prop where
  taken_le : p.taken ≤ p.passed
  passed_le : p.passed ≤ p.sent.length

structure At (p : HelperProc) (done : List (List Frame)) (part : List Frame) : Prop where
  replies : ∀ reply ∈ done, IsReply reply
  frames : ∃ greeting, p.sent.take p.taken = greeting :: (done.flatten ++ part)

def Ready (p : HelperProc) : Prop := ∃ done, p.At done [] ∧ done.length = p.asked.length

def Asked (calls : List FsRequest) (p : HelperProc) (call : Nat) (request : FsRequest) (listed : Listed) : Prop :=
  ∃ done part before, p.At done part ∧ p.asked = before ++ [call] ∧ done.length = before.length ∧
    calls[call]? = some request ∧ (∀ f ∈ part, f.1 = R_NAMES) ∧
      ∀ fs, exchange request {} (part ++ fs) = exchange request listed fs

def Placed (calls : List FsRequest) (p : HelperProc) : Phase → Prop
  | .idle => p.Ready
  | .greeting _ _ => p.taken = 0 ∧ p.asked = []
  | .writing _ _ => p.Ready
  | .waiting call request listed => p.Asked calls call request listed

def Answers (calls : List FsRequest) (p : HelperProc) (k call : Nat) (answer : Answer) : Prop :=
  p.asked[k]? = some call ∧ ∃ request done reply, calls[call]? = some request ∧ done.length = k ∧
    (∀ r ∈ done ++ [reply], IsReply r) ∧ (∃ greeting, greeting :: (done ++ [reply]).flatten <+: p.sent) ∧
      exchange request {} reply = some (answer, [])

end HelperProc

theorem getElem?_grows {α : Type} {l m : List α} (h : l <+: m) {i : Nat} {a : α} (hi : l[i]? = some a) :
    m[i]? = some a := by
  rcases h with ⟨more, rfl⟩
  rw [getElem?_append_left (List.getElem?_eq_some_iff.mp hi).1, hi]

namespace HelperProc

variable {p q : HelperProc} {calls later : List FsRequest}

theorem Answers.grows {k call : Nat} {answer : Answer} (h : p.Answers calls k call answer)
    (hasked : p.asked <+: q.asked) (hsent : p.sent <+: q.sent) (hcalls : calls <+: later) :
    q.Answers later k call answer := by
  rcases h with ⟨hk, request, done, reply, hcall, hlen, hreplies, ⟨greeting, hframes⟩, hanswer⟩
  exact ⟨getElem?_grows hasked hk, request, done, reply, getElem?_grows hcalls hcall, hlen, hreplies,
    ⟨greeting, hframes.trans hsent⟩, hanswer⟩

theorem Answers.reply_of_inOrder {k call : Nat} {answer : Answer} (h : p.Answers calls k call answer)
    {replies : List (List Frame)} (horder : p.InOrder replies) :
    ∃ request reply, calls[call]? = some request ∧ replies[k]? = some reply ∧
      exchange request {} reply = some (answer, []) := by
  rcases h with ⟨_, request, done, reply, hcall, hlen, hreplies, ⟨greeting, hframes⟩, hanswer⟩
  rcases horder with ⟨hall, greeting', hsent⟩
  have hprefix := (cons_prefix_cons.mp (hframes.trans hsent)).2
  have hgroups := prefix_of_flatten_prefix hreplies hall hprefix
  have hreply : (done ++ [reply])[k]? = some reply := by
    rw [← hlen]
    exact getElem?_concat_length
  exact ⟨request, reply, hcall, getElem?_grows hgroups hreply, hanswer⟩

structure Steady (p q : HelperProc) : Prop where
  asked : q.asked = p.asked
  taken : q.taken = p.taken
  sent : p.sent <+: q.sent

theorem At.steady {done : List (List Frame)} {part : List Frame} (h : p.At done part) (hflow : p.Flow)
    (hq : Steady p q) : q.At done part := by
  rcases h with ⟨hreplies, greeting, hframes⟩
  have hle : p.taken ≤ p.sent.length := Nat.le_trans hflow.taken_le hflow.passed_le
  constructor
  · exact hreplies
  · apply Exists.intro greeting
    rcases hq.sent with ⟨new, hnew⟩
    rw [hq.taken, ← hnew, take_append_of_le_length hle, hframes]

theorem Placed.steady {phase : Phase} (h : p.Placed calls phase) (hflow : p.Flow) (hq : Steady p q) :
    q.Placed calls phase := by
  have hready : p.Ready → q.Ready := by
    intro h
    rcases h with ⟨done, hat, hlen⟩
    exact ⟨done, hat.steady hflow hq, by rw [hq.asked, hlen]⟩
  cases phase with
  | idle => exact hready h
  | greeting call request => exact ⟨hq.taken.trans h.1, hq.asked.trans h.2⟩
  | writing call request => exact hready h
  | waiting call request listed =>
    rcases h with ⟨done, part, before, hat, hasked, hrest⟩
    exact ⟨done, part, before, hat.steady hflow hq, hq.asked.trans hasked, hrest⟩

theorem Placed.grows {phase : Phase} (h : p.Placed calls phase) (hcalls : calls <+: later) : p.Placed later phase := by
  cases phase with
  | idle => exact h
  | greeting call request => exact h
  | writing call request => exact h
  | waiting call request listed =>
    rcases h with ⟨done, part, before, hat, hasked, hlen, hcall, hrest⟩
    exact ⟨done, part, before, hat, hasked, hlen, getElem?_grows hcalls hcall, hrest⟩

theorem front_eq {f : Frame} (h : p.front = some f) : p.taken < p.passed ∧ p.sent[p.taken]? = some f := by
  unfold front at h
  split at h
  · rename_i hless
    exact ⟨hless, h⟩
  · cases h

theorem Flow.take (h : p.Flow) {f : Frame} (hf : p.front = some f) : p.take.Flow :=
  ⟨(front_eq hf).1, h.passed_le⟩

theorem frames_take {f : Frame} (hf : p.front = some f) :
    p.take.sent.take p.take.taken = p.sent.take p.taken ++ [f] := by
  change p.sent.take (p.taken + 1) = _
  rw [take_add_one, (front_eq hf).2]
  rfl

theorem At.take {done : List (List Frame)} {part : List Frame} (h : p.At done part) {f : Frame}
    (hf : p.front = some f) : p.take.At done (part ++ [f]) := by
  rcases h with ⟨hreplies, greeting, hframes⟩
  constructor
  · exact hreplies
  · apply Exists.intro greeting
    rw [frames_take hf, hframes, cons_append, append_assoc]

theorem At.close {done : List (List Frame)} {part : List Frame} (h : p.At done part)
    (hpart : ∀ f ∈ part, f.1 = R_NAMES) {f : Frame} (hf : p.front = some f) (hkind : f.1 ≠ R_NAMES) :
    p.take.At (done ++ [part ++ [f]]) [] := by
  have htake := h.take hf
  constructor
  · intro reply hmem
    rcases mem_append.mp hmem with hmem | hmem
    · exact h.replies reply hmem
    · rw [mem_singleton.mp hmem]
      apply Exists.intro part
      apply Exists.intro f
      constructor
      · rfl
      · constructor
        · intro g hg
          simp [hpart g hg]
        · simp [hkind]
  · rcases htake.frames with ⟨greeting, hframes⟩
    apply Exists.intro greeting
    rw [hframes]
    simp

theorem At.ready {f : Frame} (h : p.taken = 0) (hasked : p.asked = []) (hf : p.front = some f) : p.take.Ready := by
  apply Exists.intro []
  constructor
  · constructor
    · nofun
    · apply Exists.intro f
      rw [frames_take hf, h]
      rfl
  · change 0 = p.asked.length
    rw [hasked]
    rfl

theorem Flow.send (h : p.Flow) (f : Frame) : (p.send f).Flow := by
  unfold HelperProc.send
  split
  · exact h
  · constructor
    · exact h.taken_le
    · rw [length_append]
      exact Nat.le_trans h.passed_le (Nat.le_add_right _ _)

theorem steady_send (p : HelperProc) (f : Frame) : Steady p (p.send f) := by
  unfold HelperProc.send
  split
  · exact ⟨rfl, rfl, prefix_rfl⟩
  · exact ⟨rfl, rfl, prefix_append _ _⟩

theorem Flow.pass (h : p.Flow) : p.pass.Flow := by
  unfold HelperProc.pass
  split
  · rename_i hroom
    exact ⟨Nat.le_succ_of_le h.taken_le, hroom.1⟩
  · exact h

theorem steady_pass (p : HelperProc) : Steady p p.pass := by
  unfold HelperProc.pass
  split
  · exact ⟨rfl, rfl, prefix_rfl⟩
  · exact ⟨rfl, rfl, prefix_rfl⟩

end HelperProc

theorem flatMap_modify_perm {α β : Type} {f : α → List β} {g : α → α} {l : List α} {i : Nat} {a : α}
    (hi : l[i]? = some a) {new : List β} (hg : f (g a) = f a ++ new) :
    ((l.modify i g).flatMap f).Perm (new ++ l.flatMap f) := by
  induction l generalizing i with
  | nil => cases hi
  | cons b l ih =>
    cases i with
    | zero =>
      cases hi
      rw [modify_zero_cons, flatMap_cons, flatMap_cons, hg, ← append_assoc]
      exact perm_append_comm.append_right _
    | succ i =>
      rw [modify_succ_cons, flatMap_cons, flatMap_cons]
      have hrest := (ih (by simpa using hi)).append_left (f b)
      apply hrest.trans
      rw [← append_assoc, ← append_assoc]
      exact perm_append_comm.append_right _

namespace HelperRun

variable {s : HelperRun}

def asks (s : HelperRun) : List Nat := s.procs.flatMap HelperProc.asked

theorem asks_update {pid : Nat} {p : HelperProc} (hp : s.procs[pid]? = some p) {g : HelperProc → HelperProc}
    {new : List Nat} (hg : (g p).asked = p.asked ++ new) : (s.update pid g).asks.Perm (new ++ s.asks) :=
  flatMap_modify_perm hp hg

theorem asks_spawned (s : HelperRun) : s.spawned.asks = s.asks := by
  unfold asks spawned
  rw [flatMap_append]
  exact append_nil _

theorem update_of_none {pid : Nat} (hp : s.procs[pid]? = none) (g : HelperProc → HelperProc) : s.update pid g = s := by
  rw [update, modify_eq_self (List.getElem?_eq_none_iff.mp hp)]

theorem asks_keep {pid : Nat} {g : HelperProc → HelperProc} (hg : ∀ p, (g p).asked = p.asked) :
    (s.update pid g).asks.Perm s.asks := by
  cases hp : s.procs[pid]? with
  | none => rw [update_of_none hp]
  | some p => exact asks_update hp (by rw [hg p, append_nil])

theorem getElem?_update (s : HelperRun) (pid : Nat) (g : HelperProc → HelperProc) (i : Nat) :
    (s.update pid g).procs[i]? = (s.procs[i]?).map fun p => if pid = i then g p else p :=
  getElem?_modify g pid s.procs i

def Fresh (s : HelperRun) : Phase → Prop
  | .greeting call request => s.calls[call]? = some request ∧ call ∉ s.asks
  | .writing call request => s.calls[call]? = some request ∧ call ∉ s.asks
  | _ => True

structure Sound (s : HelperRun) : Prop where
  flow : ∀ p ∈ s.procs, p.Flow
  answered : ∀ call answer, (call, .answered answer) ∈ s.returned →
    ∃ (pid : Nat) (p : HelperProc) (k : Nat), s.procs[pid]? = some p ∧ p.Answers s.calls k call answer
  once : s.asks.Nodup
  made : ∀ call ∈ s.asks, call < s.calls.length

structure Ordered (s : HelperRun) : Prop extends Sound s where
  fresh : s.Fresh s.phase
  placed : ∀ p, s.current = some p → p.Placed s.calls s.phase

theorem flow_of_current (h : s.Sound) {p : HelperProc} (hp : s.current = some p) : p.Flow := by
  rcases Option.bind_eq_some_iff.mp hp with ⟨pid, _, hpid⟩
  exact h.flow p (mem_of_getElem? hpid)

theorem current_update {pid : Nat} (hlive : s.live = some pid) (g : HelperProc → HelperProc) :
    (s.update pid g).current = s.current.map g := by
  unfold current
  change (s.live.bind fun i => (s.update pid g).procs[i]?) = _
  rw [hlive, Option.bind_some, Option.bind_some, getElem?_update]
  simp

namespace Sound

theorem update (h : s.Sound) {pid : Nat} {g : HelperProc → HelperProc} {new : List Nat}
    (hg : ∀ p, s.procs[pid]? = some p → (g p).Flow ∧ (g p).asked = p.asked ++ new ∧ p.sent <+: (g p).sent)
    (hnew : (new ++ s.asks).Nodup) (hmade : ∀ call ∈ new, call < s.calls.length) : (s.update pid g).Sound := by
  cases hp : s.procs[pid]? with
  | none =>
    rw [update_of_none hp]
    exact h
  | some p =>
    rcases hg p hp with ⟨hflow, hasked, hsent⟩
    have hperm := asks_update hp hasked
    have hgrown : p.asked <+: (g p).asked := by
      rw [hasked]
      exact prefix_append _ _
    constructor
    · intro q hq
      rcases mem_iff_getElem?.mp hq with ⟨i, hi⟩
      rw [getElem?_update] at hi
      rcases Option.map_eq_some_iff.mp hi with ⟨old, hold, heq⟩
      by_cases hpid : pid = i
      · rw [← hpid, hp] at hold
        cases hold
        rw [← heq, if_pos hpid]
        exact hflow
      · rw [← heq, if_neg hpid]
        exact h.flow old (mem_of_getElem? hold)
    · intro call answer hmem
      rcases h.answered call answer hmem with ⟨i, old, k, hold, hanswers⟩
      have hi := getElem?_update s pid g i
      rw [hold, Option.map_some] at hi
      by_cases hpid : pid = i
      · rw [← hpid, hp] at hold
        cases hold
        rw [if_pos hpid] at hi
        exact ⟨i, g p, k, hi, hanswers.grows hgrown hsent prefix_rfl⟩
      · rw [if_neg hpid] at hi
        exact ⟨i, old, k, hi, hanswers⟩
    · exact hperm.nodup_iff.mpr hnew
    · intro call hcall
      rcases mem_append.mp (hperm.mem_iff.mp hcall) with hcall | hcall
      · exact hmade call hcall
      · exact h.made call hcall

theorem keep (h : s.Sound) {pid : Nat} {g : HelperProc → HelperProc} (hasked : ∀ p, (g p).asked = p.asked)
    (hsent : ∀ p, p.sent <+: (g p).sent) (hflow : ∀ p, s.procs[pid]? = some p → (g p).Flow) :
    (s.update pid g).Sound := by
  have hkept : ∀ p, s.procs[pid]? = some p → (g p).Flow ∧ (g p).asked = p.asked ++ [] ∧ p.sent <+: (g p).sent := by
    intro p hp
    rw [append_nil]
    exact ⟨hflow p hp, hasked p, hsent p⟩
  exact h.update hkept h.once nofun

theorem ask (h : s.Sound) (pid : Nat) {call : Nat} (hnew : call ∉ s.asks) (hmade : call < s.calls.length) :
    (s.update pid (·.ask call)).Sound := by
  have hasked : ∀ p, s.procs[pid]? = some p →
      (p.ask call).Flow ∧ (p.ask call).asked = p.asked ++ [call] ∧ p.sent <+: (p.ask call).sent := by
    intro p hp
    have hflow := h.flow p (mem_of_getElem? hp)
    exact ⟨⟨hflow.taken_le, hflow.passed_le⟩, rfl, prefix_rfl⟩
  apply h.update hasked
  · exact nodup_cons.mpr ⟨hnew, h.once⟩
  · intro other hother
    rw [mem_singleton.mp hother]
    exact hmade

theorem spawned (h : s.Sound) : s.spawned.Sound := by
  constructor
  · intro p hp
    rcases mem_append.mp hp with hp | hp
    · exact h.flow p hp
    · rw [mem_singleton.mp hp]
      exact ⟨Nat.le_refl _, Nat.le_refl _⟩
  · intro call answer hmem
    rcases h.answered call answer hmem with ⟨pid, p, k, hp, hanswers⟩
    exact ⟨pid, p, k, getElem?_grows (prefix_append _ _) hp, hanswers⟩
  · rw [asks_spawned]
    exact h.once
  · rw [asks_spawned]
    exact h.made

theorem enter (h : s.Sound) (request : FsRequest) : (s.enter request).Sound := by
  have hcalls : s.calls <+: s.calls ++ [request] := prefix_append _ _
  constructor
  · exact h.flow
  · intro call answer hmem
    rcases h.answered call answer hmem with ⟨pid, p, k, hp, hanswers⟩
    exact ⟨pid, p, k, hp, hanswers.grows prefix_rfl prefix_rfl hcalls⟩
  · exact h.once
  · intro call hcall
    exact Nat.lt_of_lt_of_le (h.made call hcall) hcalls.length_le

theorem settle (h : s.Sound) {call : Nat} {result : CallResult} (hresult : ∀ answer, result = .answered answer →
      ∃ (pid : Nat) (p : HelperProc) (k : Nat), s.procs[pid]? = some p ∧ p.Answers s.calls k call answer) :
    (s.settle call result).Sound := by
  constructor
  · exact h.flow
  · intro other answer hmem
    rcases mem_append.mp hmem with hmem | hmem
    · exact h.answered other answer hmem
    · cases mem_singleton.mp hmem
      exact hresult answer rfl
  · exact h.once
  · exact h.made

end Sound

namespace Ordered

theorem settle (h : s.Sound) (hlive : s.live = none) {call : Nat} {result : CallResult}
    (hresult : ∀ answer, result ≠ .answered answer) : (s.settle call result).Ordered where
  toSound := h.settle fun answer heq => absurd heq (hresult answer)
  fresh := trivial
  placed := by
    intro p hp
    change s.current = some p at hp
    rw [current, hlive] at hp
    cases hp

theorem fail (h : s.Sound) {call : Nat} {result : CallResult} (hresult : ∀ answer, result ≠ .answered answer) :
    (s.fail call result).Ordered := by
  unfold HelperRun.fail HelperRun.abandon
  cases hlive : s.live with
  | none => exact settle h hlive hresult
  | some pid =>
    have hleft : { s with live := none, killed := s.killed ++ [pid] }.Sound := ⟨h.flow, h.answered, h.once, h.made⟩
    exact settle hleft rfl hresult

theorem launch (h : s.Sound) {call : Nat} {request : FsRequest} (hcall : s.calls[call]? = some request)
    (hnew : call ∉ s.asks) : (s.launch.goTo (.greeting call request)).Ordered where
  toSound := ⟨h.spawned.flow, h.spawned.answered, h.spawned.once, h.spawned.made⟩
  fresh := by
    change s.calls[call]? = some request ∧ call ∉ s.spawned.asks
    rw [asks_spawned]
    exact ⟨hcall, hnew⟩
  placed := by
    intro p hp
    change (s.procs ++ [({} : HelperProc)])[s.procs.length]? = some p at hp
    rw [getElem?_concat_length] at hp
    cases hp
    exact ⟨rfl, rfl⟩

theorem start (h : s.Sound) (hlive : s.live = none) {call : Nat} {request : FsRequest}
    (hcall : s.calls[call]? = some request) (hnew : call ∉ s.asks) (spawn : Spawn) :
    (s.start call request spawn).Ordered := by
  have hstillborn : s.stillborn.Sound := ⟨h.spawned.flow, h.spawned.answered, h.spawned.once, h.spawned.made⟩
  cases spawn with
  | fails errno => exact settle h hlive nofun
  | noPipes => exact settle hstillborn hlive nofun
  | noReader errno => exact settle hstillborn hlive nofun
  | starts => exact launch h hcall hnew

theorem reap (h : s.Ordered) : s.reap.Ordered := ⟨⟨h.flow, h.answered, h.once, h.made⟩, h.fresh, h.placed⟩

theorem locked (h : s.Ordered) (hidle : s.phase = .idle) {call : Nat} {request : FsRequest}
    (hcall : s.calls[call]? = some request) (hnew : call ∉ s.asks) (cap : Nat) (spawn : Spawn) :
    (s.locked cap call request spawn).Ordered := by
  unfold HelperRun.locked
  split
  · rename_i hfull
    have hlive : s.live = none := by
      simp only [Bool.and_eq_true, Option.isNone_iff_eq_none] at hfull
      exact hfull.1
    have hmarked : { s with full := true, untold := s.untold || !s.full }.Sound := ⟨h.flow, h.answered, h.once, h.made⟩
    exact settle hmarked hlive nofun
  · split
    · rename_i hnone
      exact start h.toSound (Option.isNone_iff_eq_none.mp hnone) hcall hnew spawn
    · constructor
      · exact ⟨h.flow, h.answered, h.once, h.made⟩
      · exact ⟨hcall, hnew⟩
      · intro p hp
        have hplaced := h.placed p hp
        rw [hidle] at hplaced
        exact hplaced

theorem enter (h : s.Ordered) (request : FsRequest) : (s.enter request).Ordered where
  toSound := h.toSound.enter request
  fresh := by
    have hfresh := h.fresh
    have hcalls : s.calls <+: s.calls ++ [request] := prefix_append _ _
    change (s.enter request).Fresh s.phase
    cases hphase : s.phase with
    | idle => trivial
    | greeting call asked =>
      rw [hphase] at hfresh
      exact ⟨getElem?_grows hcalls hfresh.1, hfresh.2⟩
    | writing call asked =>
      rw [hphase] at hfresh
      exact ⟨getElem?_grows hcalls hfresh.1, hfresh.2⟩
    | waiting call asked listed => trivial
  placed := fun p hp => (h.placed p hp).grows (prefix_append _ _)

theorem call (h : s.Ordered) (cap : Nat) (request : FsRequest) (spawn : Spawn) :
    (s.call cap request spawn).Ordered := by
  have henter := h.enter request
  unfold HelperRun.call
  split
  · have hsettle : ((s.enter request).settle s.calls.length .nameTooLong).Sound := henter.toSound.settle nofun
    exact ⟨⟨hsettle.flow, hsettle.answered, hsettle.once, hsettle.made⟩, henter.fresh, henter.placed⟩
  · split
    · rename_i hidle
      apply henter.reap.locked hidle
      · exact getElem?_concat_length
      · intro hmem
        exact Nat.lt_irrefl _ (h.made _ hmem)
    · exact h

theorem steady (h : s.Ordered) (pid : Nat) {g : HelperProc → HelperProc} (hflow : ∀ p, p.Flow → (g p).Flow)
    (hsteady : ∀ p, HelperProc.Steady p (g p)) : (s.update pid g).Ordered := by
  have hperm : (s.update pid g).asks.Perm s.asks := asks_keep fun p => (hsteady p).asked
  constructor
  · apply h.toSound.keep (fun p => (hsteady p).asked) fun p => (hsteady p).sent
    intro p hp
    exact hflow p (h.flow p (mem_of_getElem? hp))
  · have hfresh := h.fresh
    change (s.update pid g).Fresh s.phase
    cases hphase : s.phase with
    | idle => trivial
    | greeting call request =>
      rw [hphase] at hfresh
      exact ⟨hfresh.1, fun hmem => hfresh.2 (hperm.mem_iff.mp hmem)⟩
    | writing call request =>
      rw [hphase] at hfresh
      exact ⟨hfresh.1, fun hmem => hfresh.2 (hperm.mem_iff.mp hmem)⟩
    | waiting call request listed => trivial
  · intro q hq
    rcases Option.bind_eq_some_iff.mp hq with ⟨i, hlive, hi⟩
    rw [getElem?_update] at hi
    rcases Option.map_eq_some_iff.mp hi with ⟨old, hold, heq⟩
    have hcurrent : s.current = some old := Option.bind_eq_some_iff.mpr ⟨i, hlive, hold⟩
    have hplaced := h.placed old hcurrent
    by_cases hpid : pid = i
    · rw [← heq, if_pos hpid]
      exact hplaced.steady (flow_of_current h.toSound hcurrent) (hsteady old)
    · rw [← heq, if_neg hpid]
      exact hplaced

theorem write (h : s.Ordered) (ok : Bool) : (s.write ok).Ordered := by
  unfold HelperRun.write
  split
  · rename_i call request pid hphase hlive
    have hfresh := h.fresh
    rw [hphase] at hfresh
    have hsound := h.toSound.ask pid hfresh.2 (List.getElem?_eq_some_iff.mp hfresh.1).1
    split
    · constructor
      · exact ⟨hsound.flow, hsound.answered, hsound.once, hsound.made⟩
      · trivial
      · intro q hq
        change (s.update pid (·.ask call)).current = some q at hq
        rw [current_update hlive] at hq
        rcases Option.map_eq_some_iff.mp hq with ⟨p, hcurrent, heq⟩
        have hready := h.placed p hcurrent
        rw [hphase] at hready
        rcases hready with ⟨done, hat, hlen⟩
        rw [← heq]
        exact ⟨done, [], p.asked, ⟨hat.replies, hat.frames⟩, rfl, hlen, hfresh.1, nofun, fun fs => rfl⟩
    · exact fail hsound nofun
  · exact h

theorem take (h : s.Ordered) {pid : Nat} {p : HelperProc} {f : Frame} (hlive : s.live = some pid)
    (hcurrent : s.current = some p) (hf : p.front = some f) : (s.update pid HelperProc.take).Sound := by
  apply h.toSound.keep (g := HelperProc.take) (fun _ => rfl) fun _ => prefix_rfl
  intro q hq
  rw [current, hlive, Option.bind_some, hq] at hcurrent
  cases hcurrent
  exact (h.flow p (mem_of_getElem? hq)).take hf

theorem answers (h : s.Ordered) {pid call : Nat} {p : HelperProc} {f : Frame} {request : FsRequest} {listed : Listed}
    {answer : Answer} (hlive : s.live = some pid) (hcurrent : s.current = some p) (hf : p.front = some f)
    (hasked : p.Asked s.calls call request listed) (htake : takeReply request listed f = .done answer) :
    ((s.update pid HelperProc.take).settle call (.answered answer)).Ordered := by
  rcases hasked with ⟨done, part, before, hat, hasked, hlen, hcall, hpart, hlisted⟩
  have hdone := hat.close hpart hf (kind_of_done htake)
  have hnow : (s.update pid HelperProc.take).current = some p.take := by
    rw [current_update hlive, hcurrent]
    rfl
  have hreply : exchange request {} (part ++ [f]) = some (answer, []) := by
    rw [hlisted, exchange, htake]
  have hanswers : p.take.Answers s.calls before.length call answer := by
    constructor
    · change p.asked[before.length]? = some call
      rw [hasked]
      exact getElem?_concat_length
    · rcases hdone.frames with ⟨greeting, hframes⟩
      have hsent : greeting :: (done ++ [part ++ [f]]).flatten <+: p.take.sent := by
        rw [← append_nil (done ++ [part ++ [f]]).flatten, ← hframes]
        exact take_prefix _ _
      exact ⟨request, done, part ++ [f], hcall, hlen, hdone.replies, ⟨greeting, hsent⟩, hreply⟩
  constructor
  · apply (h.take hlive hcurrent hf).settle
    intro other heq
    cases heq
    rcases Option.bind_eq_some_iff.mp hnow with ⟨i, _, hi⟩
    exact ⟨i, p.take, before.length, hi, hanswers⟩
  · trivial
  · intro q hq
    cases hnow.symm.trans hq
    apply Exists.intro (done ++ [part ++ [f]])
    constructor
    · exact hdone
    · change _ = p.asked.length
      rw [hasked, length_append, length_append, hlen]
      rfl

theorem taken (h : s.Ordered) {pid call : Nat} {p : HelperProc} {f : Frame} (hpending : s.pending = some call)
    (hlive : s.live = some pid) (hcurrent : s.current = some p) (hf : p.front = some f) :
    ((s.update pid HelperProc.take).receive f).Ordered := by
  have hsound := h.take hlive hcurrent hf
  have hplaced := h.placed p hcurrent
  have hnow : (s.update pid HelperProc.take).current = some p.take := by
    rw [current_update hlive, hcurrent]
    rfl
  have hlater : ∀ phase, (s.update pid HelperProc.take).Fresh phase → p.take.Placed s.calls phase →
      ((s.update pid HelperProc.take).goTo phase).Ordered := by
    intro phase hfresh hplace
    constructor
    · exact ⟨hsound.flow, hsound.answered, hsound.once, hsound.made⟩
    · exact hfresh
    · intro q hq
      cases hnow.symm.trans hq
      exact hplace
  unfold HelperRun.receive
  split
  · rename_i call request hphase
    change s.phase = _ at hphase
    have hfresh := h.fresh
    rw [hphase] at hfresh hplaced
    split
    · have hkept : (s.update pid HelperProc.take).asks.Perm s.asks := asks_keep fun _ => rfl
      apply hlater
      · exact ⟨hfresh.1, fun hmem => hfresh.2 (hkept.mem_iff.mp hmem)⟩
      · exact HelperProc.At.ready hplaced.1 hplaced.2 hf
    · exact fail hsound nofun
  · rename_i call request listed hphase
    change s.phase = _ at hphase
    rw [hphase] at hplaced
    split
    · rename_i answer htake
      exact h.answers hlive hcurrent hf hplaced htake
    · rename_i more htake
      rcases hplaced with ⟨done, part, before, hat, hasked, hlen, hcall, hpart, hlisted⟩
      apply hlater
      · trivial
      · apply Exists.intro done
        apply Exists.intro (part ++ [f])
        apply Exists.intro before
        have hkind := kind_of_more htake
        have hparts : ∀ g ∈ part ++ [f], g.1 = R_NAMES := by
          intro g hg
          rcases mem_append.mp hg with hg | hg
          · exact hpart g hg
          · rw [mem_singleton.mp hg]
            exact hkind
        have hgoes : ∀ fs, exchange request {} (part ++ [f] ++ fs) = exchange request more fs := by
          intro fs
          rw [append_assoc, hlisted, singleton_append, exchange, htake]
        exact ⟨hat.take hf, hasked, hlen, hcall, hparts, hgoes⟩
    · exact fail hsound nofun
  · rename_i hgreeting hwaiting
    change ∀ call request, s.phase ≠ _ at hgreeting
    change ∀ call request listed, s.phase ≠ _ at hwaiting
    unfold HelperRun.pending at hpending
    split at hpending
    · rename_i hphase
      exact absurd hphase (hgreeting _ _)
    · rename_i hphase
      exact absurd hphase (hwaiting _ _ _)
    · cases hpending

theorem next (h : s.Ordered) : s.next.Ordered := by
  unfold HelperRun.next
  split
  · rename_i pid call f hlive hpending hfront
    rcases Option.bind_eq_some_iff.mp hfront with ⟨p, hcurrent, hf⟩
    exact h.taken hpending hlive hcurrent hf
  · exact h

theorem waitFails (h : s.Ordered) {result : CallResult} (hresult : ∀ answer, result ≠ .answered answer) :
    (s.waitFails result).Ordered := by
  unfold HelperRun.waitFails
  split
  · exact fail h.toSound hresult
  · exact h

theorem finish (h : s.Ordered) : s.finish.Ordered := by
  have hleft : ∀ killed reaped, { s with live := none, killed := killed, reaped := reaped }.Ordered := by
    intro killed reaped
    constructor
    · exact ⟨h.flow, h.answered, h.once, h.made⟩
    · exact h.fresh
    · nofun
  unfold HelperRun.finish
  split
  · exact h.reap
  · split
    · exact (hleft s.killed _).reap
    · exact (hleft _ s.reaped).reap

theorem step (h : s.Ordered) (cap : Nat) (event : HelperEvent) : (s.step cap event).Ordered := by
  have hmaybe : ∀ (c : Prop) [Decidable c] (t : HelperRun), t.Ordered → (if c then t else s).Ordered := by
    intro c _ t ht
    split
    · exact ht
    · exact h
  cases event with
  | call request spawn => exact h.call cap request spawn
  | write ok => exact h.write ok
  | next => exact h.next
  | timeOut => exact h.waitFails nofun
  | disconnect => exact hmaybe _ _ (h.waitFails nofun)
  | sends pid f => exact h.steady pid (fun p hp => hp.send f) fun p => p.steady_send f
  | passes pid => exact h.steady pid (fun p hp => hp.pass) HelperProc.steady_pass
  | closes pid =>
    exact h.steady pid (fun p hp => ⟨hp.taken_le, hp.passed_le⟩) fun p => ⟨rfl, rfl, prefix_rfl⟩
  | dies pid =>
    exact h.steady pid (fun p hp => ⟨hp.taken_le, hp.passed_le⟩) fun p => ⟨rfl, rfl, prefix_rfl⟩
  | note =>
    apply hmaybe
    unfold HelperRun.note
    split
    · exact ⟨⟨h.flow, h.answered, h.once, h.made⟩, h.fresh, h.placed⟩
    · exact h
  | pids => exact hmaybe _ _ h.reap
  | finish => exact hmaybe _ _ h.finish

end Ordered

end HelperRun

theorem within_helperRun (cap : Nat) (events : List HelperEvent) : (helperRun cap events).Within cap := by
  apply List.foldlRecOn
  · exact ⟨Nat.zero_le _, List.Perm.refl _, Nat.le_refl _⟩
  · intro s h event _
    exact h.step event

theorem ordered_helperRun (cap : Nat) (events : List HelperEvent) : (helperRun cap events).Ordered := by
  apply List.foldlRecOn
  · exact ⟨⟨nofun, nofun, nodup_nil, nofun⟩, trivial, nofun⟩
  · intro s h event _
    exact h.step cap event

/-- Whatever comes when: the helpers that are not reaped are the live one and the killed,
never more than the cap, and the warning is given once at most; and each call is
asked of one helper once, and an answer it returns is in the reply to it, where the
helper replies in order. -/
theorem helper_bounded_unmixed (cap : Nat) (events : List HelperEvent) :
    ((helperRun cap events).killed.length + (helperRun cap events).live.toList.length ≤ cap ∧
      ((helperRun cap events).live.toList ++ (helperRun cap events).killed ++ (helperRun cap events).reaped).Perm
        (List.range (helperRun cap events).procs.length)) ∧
    (helperRun cap events).notes.length ≤ 1 ∧
    (helperRun cap events).asks.Nodup ∧
    ∀ call answer, (call, .answered answer) ∈ (helperRun cap events).returned →
      ∃ (pid : Nat) (p : HelperProc) (k : Nat), (helperRun cap events).procs[pid]? = some p ∧ p.asked[k]? = some call ∧
        ∀ replies, p.InOrder replies → ∃ request reply, (helperRun cap events).calls[call]? = some request ∧
          replies[k]? = some reply ∧ exchange request {} reply = some (answer, []) := by
  have hwithin := within_helperRun cap events
  have hordered := ordered_helperRun cap events
  constructor
  · have hbound := hwithin.bound
    rw [length_append] at hbound
    exact ⟨by omega, hwithin.accounted⟩
  · constructor
    · have htold := hwithin.told
      have hfull := Bool.toNat_le (helperRun cap events).full
      omega
    · constructor
      · exact hordered.once
      · intro call answer hmem
        rcases hordered.answered call answer hmem with ⟨pid, p, k, hp, hanswers⟩
        exact ⟨pid, p, k, hp, hanswers.1, fun replies horder => hanswers.reply_of_inOrder horder⟩

def answeredRun : List HelperEvent :=
  [.call (.stat [47]) .starts, .sends 0 (R_HELLO, hello), .passes 0, .next, .write true,
    .sends 0 (R_ERROR, encodeError 2), .passes 0, .next]

theorem helper_bounded_unmixed_answered :
    (0, .answered (.errno 2)) ∈ (helperRun 1 answeredRun).returned ∧
      ∃ (pid : Nat) (p : HelperProc) (k : Nat), (helperRun 1 answeredRun).procs[pid]? = some p ∧ p.asked[k]? = some 0 ∧
        p.InOrder [[(R_ERROR, encodeError 2)]] ∧ ∃ request reply, (helperRun 1 answeredRun).calls[0]? = some request ∧
          [[(R_ERROR, encodeError 2)]][k]? = some reply ∧ exchange request {} reply = some (.errno 2, []) := by
  have hmem : (0, .answered (.errno 2)) ∈ (helperRun 1 answeredRun).returned := by decide
  rcases (helper_bounded_unmixed 1 answeredRun).2.2.2 0 (.errno 2) hmem with ⟨pid, p, k, hp, hk, hreply⟩
  have hsent : p.sent = [(R_HELLO, hello), (R_ERROR, encodeError 2)] := by
    cases pid with
    | zero =>
      cases hp
      decide
    | succ pid => cases hp
  have horder : p.InOrder [[(R_ERROR, encodeError 2)]] := by
    constructor
    · intro reply hmem
      rw [mem_singleton.mp hmem]
      exact ⟨[], (R_ERROR, encodeError 2), rfl, nofun, by decide⟩
    · apply Exists.intro (R_HELLO, hello)
      rw [hsent]
      exact prefix_rfl
  exact ⟨hmem, pid, p, k, hp, hk, horder, hreply _ horder⟩

end Lsof.Linux
