import Lsof.Basis.Text

/-! # The tables of TCP and UDP states

`enter_IPstate()` keeps a table of names by state number, with an offset for
numbers below zero; `build_IPstates()` fills the two tables of Linux. A slot of
a table holds a name, or NULL, or what the allocator left in it.
-/

namespace Lsof.Original

open Lsof.Basis

inductive Slot where
  | unset
  | null
  | name (nm : Text)
  deriving DecidableEq, Repr

/-- `TcpSt`, `TcpStAlloc`, `TcpNstates` and `TcpStOff`, or the same for UDP. -/
structure StateTable where
  st : Option (List Slot) := none
  alloc : Nat := 0
  nstates : Nat := 0
  off : Nat := 0
  deriving DecidableEq, Repr

/-- Why the program ends while it enters a state, or that it reads an unset slot. -/
inductive StateError where
  | badName
  | duplicate (already : Text)
  | unsetRead
  deriving DecidableEq, Repr

def TCPUDPALLOC : Nat := 32

/-- `while ((nn + 5) > al) al += TCPUDPALLOC`. -/
def growAlloc (nn : Nat) : Nat → Nat → Nat
  | 0, al => al
  | fuel + 1, al => if nn + 5 > al then growAlloc nn fuel (al + TCPUDPALLOC) else al

def allocFor (nn al : Nat) : Nat := growAlloc nn (nn + 5) al

/-- `realloc()` of an array. -/
def resize (a : List Slot) (al : Nat) : List Slot := a.take al ++ List.replicate (al - a.length) .unset

theorem growAlloc_enough {nn fuel al : Nat} (h : nn + 5 ≤ fuel + al) : nn + 5 ≤ growAlloc nn fuel al := by
  induction fuel generalizing al with
  | zero =>
    rw [growAlloc]
    omega
  | succ fuel ih =>
    rw [growAlloc]
    by_cases hmore : nn + 5 > al
    · rw [if_pos hmore]
      exact ih (by unfold TCPUDPALLOC; omega)
    · rw [if_neg hmore]
      omega

theorem allocFor_enough (nn al : Nat) : nn + 5 ≤ allocFor nn al := growAlloc_enough (by omega)

/-- The loop that moves the entries up by `oc`: it turns `oc` times. -/
def moveUp (nstates oc : Nat) (a : List Slot) : List Slot :=
  (List.range oc).foldl (fun a i =>
    (if i < nstates then a.set (i + oc) (a.getD i .unset) else a).set i .null) a

def newOffset (t : StateTable) (off : Nat) : StateTable :=
  if t.off < off then
    let moved := match t.st with
      | none => t
      | some a =>
        let oc := off - t.off
        if t.nstates + oc ≥ t.alloc then
          let al := allocFor (t.nstates + oc) t.alloc
          { t with st := some (moveUp t.nstates oc (resize a al)), alloc := al, nstates := t.nstates + oc }
        else t
    { moved with off }
  else t

/-- Room for entry `nn - 1`. The slots from `nstates` on of a table that grows are
cleared. -/
def makeRoom (t : StateTable) (nn : Nat) : StateTable :=
  if nn > t.alloc then
    let al := allocFor nn t.alloc
    { t with
      st := some ((resize (t.st.getD []) al).take t.nstates ++ List.replicate (al - t.nstates) .null)
      alloc := al, nstates := nn }
  else { t with nstates := max t.nstates nn }

def shrink (t : StateTable) : StateTable :=
  match t.st with
  | none => t
  | some a =>
    { t with
      st := if t.nstates < t.alloc then some (a.take t.nstates) else if t.nstates = 0 then none else some a
      alloc := t.nstates }

/-- `enter_IPstate()`, of the table of one protocol. -/
def enterIPstate (t : StateTable) (nm : Option Text) (nr : Int) : Except StateError StateTable :=
  match nm with
  | none => .ok (shrink t)
  | some nm =>
    if nm.length < 1 then .error .badName
    else
      let t := if nr < 0 then newOffset t (-nr).toNat else t
      let i := (nr + t.off).toNat
      let t := makeRoom t (i + 1)
      match (t.st.getD []).getD i .unset with
      | .unset => .error .unsetRead
      | .name already => .error (.duplicate already)
      | .null => .ok { t with st := t.st.map fun a => a.set i (.name nm) }

structure IPstates where
  tcp : StateTable := {}
  udp : StateTable := {}
  deriving DecidableEq, Repr

/-- The TCP states, by the numbers of the kernel, and the NULL that ends them. -/
def linuxTcp : List (Option Text × Int) :=
  [(some "ESTABLISHED".toList, 1), (some "SYN_SENT".toList, 2), (some "SYN_RECV".toList, 3),
    (some "FIN_WAIT1".toList, 4), (some "FIN_WAIT2".toList, 5), (some "TIME_WAIT".toList, 6),
    (some "CLOSE".toList, 7), (some "CLOSE_WAIT".toList, 8), (some "LAST_ACK".toList, 9),
    (some "LISTEN".toList, 10), (some "CLOSING".toList, 11), (some "CLOSED".toList, 0), (none, 0)]

/-- Of UDP only connected sockets have a state to show. -/
def linuxUdp : List (Option Text × Int) := [(some "ESTABLISHED".toList, 1), (none, 0)]

def enterIPstates (t : StateTable) (states : List (Option Text × Int)) : Except StateError StateTable :=
  states.foldlM (fun t state => enterIPstate t state.1 state.2) t

def buildIPstates (s : IPstates) : Except StateError IPstates := do
  let tcp ← if s.tcp.st.isNone then enterIPstates s.tcp linuxTcp else .ok s.tcp
  let udp ← if s.udp.st.isNone then enterIPstates s.udp linuxUdp else .ok s.udp
  return { tcp, udp }

def tcpNames : List Text :=
  ["CLOSED".toList, "ESTABLISHED".toList, "SYN_SENT".toList, "SYN_RECV".toList, "FIN_WAIT1".toList,
    "FIN_WAIT2".toList, "TIME_WAIT".toList, "CLOSE".toList, "CLOSE_WAIT".toList, "LAST_ACK".toList,
    "LISTEN".toList, "CLOSING".toList]

def linuxTables : IPstates where
  tcp := { st := some (tcpNames.map Slot.name), alloc := 12, nstates := 12 }
  udp := { st := some [.null, .name "ESTABLISHED".toList], alloc := 2, nstates := 2 }

theorem buildIPstates_first : buildIPstates {} = .ok linuxTables := by
  rfl

theorem buildIPstates_again : buildIPstates linuxTables = .ok linuxTables := rfl

end Lsof.Original
