import Lsof.Linux.Wire

/-! # The helper and its callers

The calls a limit bounds are made by a helper process, one at a time. A helper that
does not answer in time is killed and left, and the next call starts another, until
too many of those left are still there. Beside what lsof keeps, a run has each helper
that was started, with what went over its pipes, and what each call returned. What
the helpers, their reader threads and the clock do may come at any time.
-/

namespace Lsof.Linux

open Lsof.Basis List

def MAGIC : Bytes := "lsofrsFS".toList.map fun c => UInt8.ofNat c.toNat

def PROTOCOL : Nat := 1

def hello : Bytes := MAGIC ++ ByteOrder.little.bytes 4 PROTOCOL

/-- The frames that may wait between a reader thread and its caller. -/
def CHANNEL : Nat := 4

def FsRequest.path : FsRequest → Bytes
  | .stat path | .lstat path | .readlink path | .readDir path => path

inductive CallResult where
  | answered (answer : Answer)
  | timedOut
  | lost
  | wouldBlock
  | nameTooLong
  | notStarted (errno : UInt32)
  deriving DecidableEq, Repr

inductive Spawn where
  | fails (errno : UInt32)
  | noPipes
  | noReader (errno : UInt32)
  | starts
  deriving DecidableEq, Repr

structure HelperProc where
  /-- The calls whose requests were written to it. -/
  asked : List Nat := []
  /-- The frames it has written. -/
  sent : List Frame := []
  /-- How many of them its reader thread has passed on, and how many were taken. -/
  passed : Nat := 0
  taken : Nat := 0
  /-- There are no more: its output has ended, or is no frame. -/
  closed : Bool := false
  ended : Bool := false
  deriving DecidableEq, Repr

/-- Where the call that holds the lock is. -/
inductive Phase where
  | idle
  | greeting (call : Nat) (request : FsRequest)
  | writing (call : Nat) (request : FsRequest)
  | waiting (call : Nat) (request : FsRequest) (listed : Listed)
  deriving DecidableEq, Repr

structure HelperRun where
  live : Option Nat := none
  /-- Killed, and not yet reaped. -/
  killed : List Nat := []
  full : Bool := false
  untold : Bool := false
  phase : Phase := .idle
  procs : List HelperProc := []
  reaped : List Nat := []
  /-- The calls made; each is known by its place. -/
  calls : List FsRequest := []
  returned : List (Nat × CallResult) := []
  notes : List Text := []
  deriving DecidableEq, Repr

inductive HelperEvent where
  | call (request : FsRequest) (spawn : Spawn)
  | write (ok : Bool)
  /-- The caller is given a frame. -/
  | next
  | timeOut
  /-- The caller finds that there are no more frames. -/
  | disconnect
  | sends (pid : Nat) (f : Frame)
  /-- A reader thread passes a frame on. -/
  | passes (pid : Nat)
  | closes (pid : Nat)
  | dies (pid : Nat)
  | note
  | pids
  | finish
  deriving DecidableEq, Repr

def cappedText (cap : Nat) : Text :=
  "lsof: WARNING: ".toList ++ Text.ofNat cap ++
    " killed helpers still wait on file systems that do not answer; no call is made while they do.\n".toList ++
      "      Output information may be incomplete.".toList

namespace HelperProc

variable (p : HelperProc)

def ask (call : Nat) : HelperProc := { p with asked := p.asked ++ [call] }

def send (f : Frame) : HelperProc := if p.closed then p else { p with sent := p.sent ++ [f] }

def pass : HelperProc := if p.passed < p.sent.length ∧ p.passed < p.taken + CHANNEL then { p with passed := p.passed + 1 } else p

def take : HelperProc := { p with taken := p.taken + 1 }

def close : HelperProc := { p with closed := true }

def die : HelperProc := { p with closed := true, ended := true }

def front : Option Frame := if p.taken < p.passed then p.sent[p.taken]? else none

def drained : Bool := p.closed && p.taken == p.sent.length

end HelperProc

namespace HelperRun

variable (s : HelperRun)

def update (pid : Nat) (g : HelperProc → HelperProc) : HelperRun := { s with procs := s.procs.modify pid g }

def ended (pid : Nat) : Bool := s.procs[pid]?.any HelperProc.ended

def abandon : HelperRun :=
  match s.live with
  | none => s
  | some pid => { s with live := none, killed := s.killed ++ [pid] }

def reap : HelperRun :=
  { s with killed := s.killed.filter fun pid => !s.ended pid, reaped := s.reaped ++ s.killed.filter s.ended }

def goTo (phase : Phase) : HelperRun := { s with phase := phase }

def settle (call : Nat) (result : CallResult) : HelperRun :=
  { s with phase := .idle, returned := s.returned ++ [(call, result)] }

def fail (call : Nat) (result : CallResult) : HelperRun := s.abandon.settle call result

def spawned : HelperRun := { s with procs := s.procs ++ [{}] }

def launch : HelperRun := { s.spawned with live := some s.procs.length }

def stillborn : HelperRun := { s.spawned with killed := s.killed ++ [s.procs.length] }

/-- `start`, up to the wait for the greeting. -/
def start (call : Nat) (request : FsRequest) : Spawn → HelperRun
  | .fails errno => s.settle call (.notStarted errno)
  | .noPipes => s.stillborn.settle call .lost
  | .noReader errno => s.stillborn.settle call (.notStarted errno)
  | .starts => s.launch.goTo (.greeting call request)

def refuse (call : Nat) : HelperRun :=
  { s with full := true, untold := s.untold || !s.full }.settle call .wouldBlock

def locked (cap call : Nat) (request : FsRequest) (spawn : Spawn) : HelperRun :=
  if s.live.isNone && cap ≤ s.killed.length then s.refuse call
  else if s.live.isNone then s.start call request spawn
  else s.goTo (.writing call request)

def enter (request : FsRequest) : HelperRun := { s with calls := s.calls ++ [request] }

/-- `call`, up to its first wait. While another has the lock it waits. -/
def call (cap : Nat) (request : FsRequest) (spawn : Spawn) : HelperRun :=
  if MAX_FRAME < request.path.length then
    { s.enter request with returned := s.returned ++ [(s.calls.length, .nameTooLong)] }
  else if s.phase = .idle then (s.enter request).reap.locked cap s.calls.length request spawn
  else s

def write (ok : Bool) : HelperRun :=
  match s.phase, s.live with
  | .writing call request, some pid =>
    if ok then (s.update pid (·.ask call)).goTo (.waiting call request {})
    else (s.update pid (·.ask call)).fail call .lost
  | _, _ => s

def receive (f : Frame) : HelperRun :=
  match s.phase with
  | .greeting call request =>
    if f = (R_HELLO, hello) then s.goTo (.writing call request) else s.fail call .lost
  | .waiting call request listed =>
    match takeReply request listed f with
    | .done answer => s.settle call (.answered answer)
    | .more listed => s.goTo (.waiting call request listed)
    | .bad => s.fail call .lost
  | _ => s

def pending : Option Nat :=
  match s.phase with
  | .greeting call _ | .waiting call _ _ => some call
  | _ => none

def current : Option HelperProc := s.live.bind fun pid => s.procs[pid]?

def next : HelperRun :=
  match s.live, s.pending, s.current.bind HelperProc.front with
  | some pid, some _, some f => (s.update pid HelperProc.take).receive f
  | _, _, _ => s

def waitFails (result : CallResult) : HelperRun :=
  match s.pending with
  | some call => s.fail call result
  | none => s

def note (cap : Nat) : HelperRun :=
  if s.untold then { s with untold := false, notes := s.notes ++ [cappedText cap] } else s

def finish : HelperRun :=
  match s.live with
  | none => s.reap
  | some pid =>
    if s.ended pid then { s with live := none, reaped := s.reaped ++ [pid] }.reap
    else { s with live := none, killed := s.killed ++ [pid] }.reap

/-- What the run is after an event. One that cannot come now changes nothing. -/
def step (cap : Nat) : HelperEvent → HelperRun
  | .call request spawn => s.call cap request spawn
  | .write ok => s.write ok
  | .next => s.next
  | .timeOut => s.waitFails .timedOut
  | .disconnect => if s.current.any HelperProc.drained then s.waitFails .lost else s
  | .sends pid f => s.update pid (·.send f)
  | .passes pid => s.update pid HelperProc.pass
  | .closes pid => s.update pid HelperProc.close
  | .dies pid => s.update pid HelperProc.die
  | .note => if s.phase = .idle then s.note cap else s
  | .pids => if s.phase = .idle then s.reap else s
  | .finish => if s.phase = .idle then s.finish else s

end HelperRun

def helperRun (cap : Nat) (events : List HelperEvent) : HelperRun :=
  events.foldl (fun s event => s.step cap event) {}

namespace HelperRun

variable {cap : Nat} {s : HelperRun}

/-- Each helper started is the live one, one that was killed, or one that was reaped; and
the warning was given, or is to be given, once the cap has refused a call. -/
structure Within (cap : Nat) (s : HelperRun) : Prop where
  bound : (s.live.toList ++ s.killed).length ≤ cap
  accounted : (s.live.toList ++ s.killed ++ s.reaped).Perm (List.range s.procs.length)
  told : s.notes.length + s.untold.toNat ≤ s.full.toNat

namespace Within

theorem update (h : Within cap s) (pid : Nat) (g : HelperProc → HelperProc) : Within cap (s.update pid g) where
  bound := h.bound
  accounted := by
    rw [HelperRun.update, length_modify]
    exact h.accounted
  told := h.told

theorem goTo (h : Within cap s) (phase : Phase) : Within cap (s.goTo phase) := ⟨h.bound, h.accounted, h.told⟩

theorem settle (h : Within cap s) (call : Nat) (result : CallResult) : Within cap (s.settle call result) :=
  ⟨h.bound, h.accounted, h.told⟩

theorem abandon (h : Within cap s) : Within cap s.abandon := by
  unfold HelperRun.abandon
  cases hlive : s.live with
  | none => exact h
  | some pid =>
    have hbound := h.bound
    have haccounted := h.accounted
    rw [hlive] at hbound haccounted
    have hmoved : (s.killed ++ [pid]).Perm (pid :: s.killed) := perm_append_singleton pid s.killed
    constructor
    · exact Nat.le_trans (Nat.le_of_eq hmoved.length_eq) hbound
    · exact (hmoved.append_right s.reaped).trans haccounted
    · exact h.told

theorem fail (h : Within cap s) (call : Nat) (result : CallResult) : Within cap (s.fail call result) :=
  h.abandon.settle call result

theorem reap (h : Within cap s) : Within cap s.reap := by
  constructor
  · have hless := length_filter_le (fun pid => !s.ended pid) s.killed
    have hbound := h.bound
    rw [length_append] at hbound
    change (s.live.toList ++ s.killed.filter fun pid => !s.ended pid).length ≤ cap
    rw [length_append]
    omega
  · have hparted : ((s.killed.filter fun pid => !s.ended pid) ++ s.killed.filter s.ended).Perm s.killed :=
      perm_append_comm.trans (filter_append_perm s.ended s.killed)
    have hall := (hparted.append_left s.live.toList).append_right s.reaped
    change (s.live.toList ++ (s.killed.filter fun pid => !s.ended pid) ++ (s.reaped ++ s.killed.filter s.ended)).Perm
      (List.range s.procs.length)
    apply List.Perm.trans _ (hall.trans h.accounted)
    rw [append_assoc, append_assoc, append_assoc]
    exact ((perm_append_comm).append_left _).append_left _
  · exact h.told

theorem spawn (h : Within cap s) (hlive : s.live = none) (hroom : s.killed.length < cap) :
    (s.procs.length :: s.killed).length ≤ cap ∧
      (s.procs.length :: s.killed ++ s.reaped).Perm (List.range (s.procs.length + 1)) := by
  have haccounted := h.accounted
  rw [hlive] at haccounted
  constructor
  · exact hroom
  · rw [range_succ]
    exact (haccounted.cons s.procs.length).trans (perm_append_singleton _ _).symm

theorem stillborn (h : Within cap s) (hlive : s.live = none) (hroom : s.killed.length < cap) :
    Within cap s.stillborn := by
  have hspawn := h.spawn hlive hroom
  have hmoved : (s.killed ++ [s.procs.length]).Perm (s.procs.length :: s.killed) := perm_append_singleton _ _
  unfold HelperRun.stillborn HelperRun.spawned
  constructor
  · rw [hlive]
    exact Nat.le_trans (Nat.le_of_eq hmoved.length_eq) hspawn.1
  · rw [hlive, length_append]
    exact (hmoved.append_right s.reaped).trans hspawn.2
  · exact h.told

theorem launch (h : Within cap s) (hlive : s.live = none) (hroom : s.killed.length < cap) : Within cap s.launch := by
  have hspawn := h.spawn hlive hroom
  unfold HelperRun.launch HelperRun.spawned
  constructor
  · exact hspawn.1
  · rw [length_append]
    exact hspawn.2
  · exact h.told

theorem start (h : Within cap s) (hlive : s.live = none) (hroom : s.killed.length < cap) (call : Nat)
    (request : FsRequest) (spawn : Spawn) : Within cap (s.start call request spawn) := by
  cases spawn with
  | fails errno => exact h.settle call _
  | noPipes => exact (h.stillborn hlive hroom).settle call _
  | noReader errno => exact (h.stillborn hlive hroom).settle call _
  | starts => exact (h.launch hlive hroom).goTo _

theorem refuse (h : Within cap s) (call : Nat) : Within cap (s.refuse call) := by
  constructor
  · exact h.bound
  · exact h.accounted
  · have htold := h.told
    change s.notes.length + (s.untold || !s.full).toNat ≤ 1
    cases hfull : s.full with
    | true =>
      rw [hfull] at htold
      simpa using htold
    | false =>
      rw [hfull, Bool.toNat_false] at htold
      simp only [Bool.not_false, Bool.or_true, Bool.toNat_true]
      omega

theorem note (h : Within cap s) : Within cap (s.note cap) := by
  unfold HelperRun.note
  split
  · rename_i huntold
    have htold := h.told
    rw [huntold, Bool.toNat_true] at htold
    constructor
    · exact h.bound
    · exact h.accounted
    · simpa using htold
  · exact h

theorem locked (h : Within cap s) (call : Nat) (request : FsRequest) (spawn : Spawn) :
    Within cap (s.locked cap call request spawn) := by
  unfold HelperRun.locked
  split
  · exact h.refuse call
  · rename_i hroom
    split
    · rename_i hnone
      have hlive := Option.isNone_iff_eq_none.mp hnone
      apply h.start hlive
      simpa [hlive] using hroom
    · exact h.goTo _

theorem receive (h : Within cap s) (f : Frame) : Within cap (s.receive f) := by
  unfold HelperRun.receive
  split
  · split
    · exact h.goTo _
    · exact h.fail _ _
  · split
    · exact h.settle _ _
    · exact h.goTo _
    · exact h.fail _ _
  · exact h

theorem waitFails (h : Within cap s) (result : CallResult) : Within cap (s.waitFails result) := by
  unfold HelperRun.waitFails
  split
  · exact h.fail _ result
  · exact h

theorem finish (h : Within cap s) : Within cap s.finish := by
  unfold HelperRun.finish
  cases hlive : s.live with
  | none => exact h.reap
  | some pid =>
    have hbound := h.bound
    have haccounted := h.accounted
    rw [hlive] at hbound haccounted
    dsimp only
    by_cases hended : s.ended pid = true
    · rw [if_pos hended]
      apply reap
      constructor
      · exact Nat.le_of_succ_le hbound
      · apply List.Perm.trans _ haccounted
        change (s.killed ++ (s.reaped ++ [pid])).Perm ([pid] ++ s.killed ++ s.reaped)
        rw [← append_assoc, append_assoc [pid]]
        exact perm_append_comm
      · exact h.told
    · rw [if_neg hended]
      have habandon := h.abandon
      rw [HelperRun.abandon, hlive] at habandon
      exact habandon.reap

theorem step (h : Within cap s) (event : HelperEvent) : Within cap (s.step cap event) := by
  cases event with
  | call request spawn =>
    change Within cap (s.call cap request spawn)
    unfold HelperRun.call
    split
    · exact ⟨h.bound, h.accounted, h.told⟩
    · split
      · have henter : Within cap (s.enter request) := ⟨h.bound, h.accounted, h.told⟩
        exact henter.reap.locked _ _ _
      · exact h
  | write ok =>
    change Within cap (s.write ok)
    unfold HelperRun.write
    split
    · split
      · exact (h.update _ _).goTo _
      · exact (h.update _ _).fail _ _
    · exact h
  | next =>
    change Within cap s.next
    unfold HelperRun.next
    split
    · exact (h.update _ _).receive _
    · exact h
  | timeOut => exact h.waitFails _
  | disconnect =>
    change Within cap (if _ then _ else _)
    split
    · exact h.waitFails _
    · exact h
  | sends pid f => exact h.update pid _
  | passes pid => exact h.update pid _
  | closes pid => exact h.update pid _
  | dies pid => exact h.update pid _
  | note =>
    change Within cap (if _ then _ else _)
    split
    · exact h.note
    · exact h
  | pids =>
    change Within cap (if _ then _ else _)
    split
    · exact h.reap
    · exact h
  | finish =>
    change Within cap (if _ then _ else _)
    split
    · exact h.finish
    · exact h

end Within

end HelperRun

end Lsof.Linux
