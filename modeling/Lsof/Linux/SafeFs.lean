import Lsof.Core.Escape
import Lsof.Linux.Lookup

/-! # Calls on paths

The layer every call on a path goes through. Under `-b` none is made, and that is
said; a path with a NUL in it reaches none; the others are made in the process, or
by a helper within a limit. What a call answers is the world's, which may answer
another way each time. Beside the world a run keeps what was asked and what was
said.
-/

namespace Lsof.Linux

open Lsof.Basis Lsof.Core

def S_IFBLK : UInt32 := 0o060000

def FileStat.isBlockDevice (md : FileStat) : Bool := md.mode &&& S_IFMT == S_IFBLK

inductive FsError where
  | notFound
  | timedOut
  | wouldBlock
  | invalidPath
  | other (text : Text)
  deriving DecidableEq, Repr

def FsError.errnoText : FsError → Text
  | notFound => "No such file or directory".toList
  | timedOut => "Connection timed out".toList
  | wouldBlock => "Resource temporarily unavailable".toList
  | invalidPath => "Invalid argument".toList
  | other text => text

def TMLIMIT : Nat := 15

/-- What `-b`, `-O` and `-S` say. -/
structure Blocking where
  avoid : Bool := false
  inProcess : Bool := false
  limit : Nat := TMLIMIT
  deriving DecidableEq, Repr

inductive CallMode where
  | avoid
  | inProcess
  | bounded (limit : Nat)
  deriving DecidableEq, Repr

def Blocking.mode (b : Blocking) : CallMode :=
  if b.avoid then .avoid else if b.inProcess then .inProcess else .bounded b.limit

/-- Where the calls are made: each takes a path and a limit, and leaves the world as
it is then. -/
structure FsCalls (σ : Type) where
  stat : Bytes → Nat → σ → Except FsError FileStat × σ
  lstat : Bytes → Nat → σ → Except FsError FileStat × σ
  readlink : Bytes → Nat → σ → Except FsError Bytes × σ
  readDir : Bytes → Nat → σ → Except FsError (List Bytes) × σ
  note : σ → Option Text × σ

inductive FsRequest where
  | stat (path : Bytes)
  | lstat (path : Bytes)
  | readlink (path : Bytes)
  | readDir (path : Bytes)
  deriving DecidableEq, Repr

structure FsRun (σ : Type) where
  world : σ
  asked : List FsRequest := []
  said : List Text := []

structure SafeFs (σ : Type) where
  calls : FsCalls σ
  direct : FsCalls σ
  blocking : Blocking := {}
  warn : Bool := true
  host : Host := .linux

namespace SafeFs

variable {σ : Type} (fs : SafeFs σ)

def tell (line : Text) (run : FsRun σ) : FsRun σ := { run with said := run.said ++ [line] }

def shown (path : Bytes) : Text := (Escaper.forHost fs.host).bytes path

def avoiding (call : Text) (path : Bytes) (run : FsRun σ) : FsRun σ :=
  if fs.warn then
    tell ("lsof: avoiding ".toList ++ call ++ '(' :: fs.shown path ++ "): -b was specified.".toList) run
  else run

/-- A result, after what the calls have to say once one has failed. -/
def told {α : Type} (result : Except FsError α) (run : FsRun σ) : FsRun σ :=
  match result with
  | .ok _ => run
  | .error _ =>
    let note := fs.calls.note run.world
    let run := { run with world := note.2 }
    match note.1 with
    | some line => if fs.warn then tell line run else run
    | none => run

def call {α : Type} (request : Bytes → FsRequest) (avoided : FsRun σ → FsRun σ)
    (make : FsCalls σ → Bytes → Nat → σ → Except FsError α × σ) (path : Bytes) (run : FsRun σ) :
    Except FsError α × FsRun σ :=
  let run := { run with asked := run.asked ++ [request path] }
  match fs.blocking.mode with
  | .avoid => (.error .wouldBlock, avoided run)
  | .inProcess =>
    if path.contains 0 then (.error .invalidPath, run)
    else
      let result := make fs.direct path 0 run.world
      (result.1, { run with world := result.2 })
  | .bounded limit =>
    if path.contains 0 then (.error .invalidPath, run)
    else
      let result := make fs.calls path limit run.world
      (result.1, fs.told result.1 { run with world := result.2 })

def stat (path : Bytes) : FsRun σ → Except FsError FileStat × FsRun σ :=
  fs.call .stat (fs.avoiding "stat".toList path) FsCalls.stat path

/-- Under `-b` this says `stat` too. -/
def lstat (path : Bytes) : FsRun σ → Except FsError FileStat × FsRun σ :=
  fs.call .lstat (fs.avoiding "stat".toList path) FsCalls.lstat path

def readlink (path : Bytes) : FsRun σ → Except FsError Bytes × FsRun σ :=
  fs.call .readlink (fs.avoiding "readlink".toList path) FsCalls.readlink path

/-- Under `-b` this is avoided in silence. -/
def readDir (path : Bytes) : FsRun σ → Except FsError (List Bytes) × FsRun σ :=
  fs.call .readDir id FsCalls.readDir path

/-- One link of a path that is spelt. After a call that ran out of time or was
refused at once none is made. -/
def readLinkOnce (path : Bytes) (run : FsRun σ × Bool) : Option Bytes × FsRun σ × Bool :=
  if run.2 then (none, run)
  else
    let answer := fs.readlink path run.1
    match answer.1 with
    | .ok target => (some target, answer.2, false)
    | .error e => (none, answer.2, e == .timedOut || e == .wouldBlock)

/-- A path as it is spelt; as it is, and so said, under `-b`. -/
def resolve (arg : Bytes) (run : FsRun σ) : Except Readlink.ReadlinkError Bytes × FsRun σ :=
  if fs.blocking.avoid then (.ok arg, fs.avoiding "readlink".toList arg run)
  else
    let result := Readlink.resolveIn fs.readLinkOnce arg (run, false)
    (result.1, result.2.1)

@[simp] theorem asked_avoiding (call : Text) (path : Bytes) (run : FsRun σ) :
    (fs.avoiding call path run).asked = run.asked := by
  unfold avoiding
  split <;> rfl

theorem asked_told {α : Type} (result : Except FsError α) (run : FsRun σ) : (fs.told result run).asked = run.asked := by
  unfold told
  cases result with
  | ok a => rfl
  | error e =>
    dsimp only
    cases (fs.calls.note run.world).1 with
    | none => rfl
    | some line =>
      dsimp only
      split <;> rfl

theorem asked_call {α : Type} (request : Bytes → FsRequest) {avoided : FsRun σ → FsRun σ}
    (havoided : ∀ run, (avoided run).asked = run.asked) (make : FsCalls σ → Bytes → Nat → σ → Except FsError α × σ)
    (path : Bytes) (run : FsRun σ) : (fs.call request avoided make path run).2.asked = run.asked ++ [request path] := by
  unfold call
  cases fs.blocking.mode with
  | avoid => exact havoided _
  | inProcess =>
    dsimp only
    split <;> rfl
  | bounded limit =>
    dsimp only
    split
    · rfl
    · exact fs.asked_told _ _

@[simp] theorem asked_stat (path : Bytes) (run : FsRun σ) : (fs.stat path run).2.asked = run.asked ++ [.stat path] :=
  fs.asked_call _ (fs.asked_avoiding _ _) _ path run

@[simp] theorem asked_lstat (path : Bytes) (run : FsRun σ) : (fs.lstat path run).2.asked = run.asked ++ [.lstat path] :=
  fs.asked_call _ (fs.asked_avoiding _ _) _ path run

@[simp] theorem asked_readDir (path : Bytes) (run : FsRun σ) :
    (fs.readDir path run).2.asked = run.asked ++ [.readDir path] :=
  fs.asked_call _ (fun _ => rfl) _ path run

end SafeFs

end Lsof.Linux
