import Lsof.Original.StateNames

/-! # `-s` and the names of states

`enter_state_spec()` looks the names of a `-s` value up in the table of its
protocol and marks the states to include and to exclude.
-/

namespace Lsof.Original

open Lsof.Basis

inductive StateProto where
  | tcp
  | udp
  deriving DecidableEq, Repr

def StateProto.name : StateProto → Text
  | .tcp => "TCP".toList
  | .udp => "UDP".toList

structure StateMarks where
  incl : Option (List Bool) := none
  inN : Nat := 0
  excl : Option (List Bool) := none
  xn : Nat := 0
  deriving DecidableEq, Repr

structure StateContext where
  tables : IPstates := {}
  tcp : StateMarks := {}
  udp : StateMarks := {}
  deriving DecidableEq, Repr

def StateContext.table (ctx : StateContext) : StateProto → StateTable
  | .tcp => ctx.tables.tcp
  | .udp => ctx.tables.udp

def StateContext.marks (ctx : StateContext) : StateProto → StateMarks
  | .tcp => ctx.tcp
  | .udp => ctx.udp

def StateContext.setMarks (ctx : StateContext) (m : StateMarks) : StateProto → StateContext
  | .tcp => { ctx with tcp := m }
  | .udp => { ctx with udp := m }

inductive StateReport where
  | unknownProtocol (ss : Text)
  | noNames (pr ss : Text)
  | noneAvailable (pr ss : Text)
  | nullName (pr ss : Text)
  | unknownName (pr ns : Text)
  | duplicate (pr : Text) (x : Bool) (ns : Text)
  deriving DecidableEq, Repr

def StateReport.text (pn : Text) : StateReport → Text
  | .unknownProtocol ss => pn ++ ": unknown -s protocol: \"".toList ++ ss ++ "\"\n".toList
  | .noNames pr ss => pn ++ ": no ".toList ++ pr ++ " state names in: ".toList ++ ss ++ ['\n']
  | .noneAvailable pr ss => pn ++ ": no ".toList ++ pr ++ " state names available: ".toList ++ ss ++ ['\n']
  | .nullName pr ss => pn ++ ": NULL ".toList ++ pr ++ " state name in: ".toList ++ ss ++ ['\n']
  | .unknownName pr ns => pn ++ ": unknown ".toList ++ pr ++ " state name: ".toList ++ ns ++ ['\n']
  | .duplicate pr x ns =>
    pn ++ ": duplicate ".toList ++ pr ++ ' ' :: (if x then "ex".toList else "in".toList) ++
      "clusion: ".toList ++ ns ++ ['\n']

/-- What no program survives: a comparison with a slot that holds no name, or a mark
outside its table. -/
inductive StateFault where
  | build (e : StateError)
  | noName
  | outside
  deriving DecidableEq, Repr

/-- `strcasecmp()` and `strncasecmp()`, for equality. -/
def sameLetters (a b : Text) : Bool := a.toAsciiLowercase == b.toAsciiLowercase

def protocolOf (ss : Text) : Option StateProto :=
  if sameLetters (ss.take 4) "tcp:".toList then some .tcp
  else if sameLetters (ss.take 4) "UDP:".toList then some .udp
  else none

/-- The loop over the names: `cur` is what was read of one. A comma at the end has
no name after it. -/
def stateItemsLoop (cur : Text) : Text → List Text
  | [] => if cur.isEmpty then [] else [cur]
  | c :: cp => if c = ',' then cur :: stateItemsLoop [] cp else stateItemsLoop (cur ++ [c]) cp

/-- A name, and whether it is an exclusion. -/
structure StateItem where
  x : Bool
  ns : Text
  deriving DecidableEq, Repr

def stateItem : Text → StateItem
  | '^' :: ns => { x := true, ns }
  | ns => { x := false, ns }

def stateItems (cp : Text) : List StateItem := (stateItemsLoop [] cp).map stateItem

/-- The index of a name, from `i` on; every slot before it is read. -/
def searchState (ns : Text) : Nat → List Slot → Except StateFault (Option Nat)
  | _, [] => .ok none
  | i, slot :: slots =>
    match slot with
    | .name nm => if sameLetters ns nm then .ok (some i) else searchState ns (i + 1) slots
    | _ => .error .noName

/-- Mark a state. The second component says that it was marked already. -/
def markState (m : StateMarks) (x : Bool) (i : Nat) : Except StateFault (StateMarks × Bool) :=
  match (if x then m.excl else m.incl).bind fun table => table[i]? with
  | none => .error .outside
  | some true => .ok (m, true)
  | some false =>
    .ok (if x then { m with excl := m.excl.map fun table => table.set i true, xn := m.xn + 1 }
      else { m with incl := m.incl.map fun table => table.set i true, inN := m.inN + 1 }, false)

def enterStateName (t : StateTable) (pr ss : Text) (m : StateMarks) (item : StateItem) :
    Except StateFault (StateMarks × List StateReport) :=
  if item.ns.length = 0 then .ok (m, [.nullName pr ss])
  else
    match searchState item.ns 0 ((t.st.getD []).take t.nstates) with
    | .error f => .error f
    | .ok none => .ok (m, [.unknownName pr item.ns])
    | .ok (some i) =>
      match markState m item.x i with
      | .error f => .error f
      | .ok (m, d) => .ok (m, if d then [.duplicate pr item.x item.ns] else [])

def enterStateNames (t : StateTable) (pr ss : Text) :
    List StateItem → StateMarks → Except StateFault (StateMarks × List StateReport)
  | [], m => .ok (m, [])
  | item :: items, m =>
    match enterStateName t pr ss m item with
    | .error f => .error f
    | .ok (m, reports) =>
      match enterStateNames t pr ss items m with
      | .error f => .error f
      | .ok (m, more) => .ok (m, reports ++ more)

def callocMarks (t : StateTable) (m : StateMarks) : StateMarks :=
  if t.nstates ≠ 0 then
    { m with incl := some (m.incl.getD (List.replicate t.nstates false))
             excl := some (m.excl.getD (List.replicate t.nstates false)) }
  else m

/-- One `-s` value. It fails, and returns 1, where it reports something. -/
def enterStateSpec (ctx : StateContext) (ss : Text) : Except StateFault (StateContext × List StateReport) :=
  match protocolOf ss with
  | none => .ok (ctx, [.unknownProtocol ss])
  | some tx =>
    if ss.drop 4 = [] then .ok (ctx, [.noNames tx.name ss])
    else
      match buildIPstates ctx.tables with
      | .error e => .error (.build e)
      | .ok tables =>
        let ctx := { ctx with tables }
        if (ctx.table tx).st.isNone then .ok (ctx, [.noneAvailable tx.name ss])
        else
          match enterStateNames (ctx.table tx) tx.name ss (stateItems (ss.drop 4))
              (callocMarks (ctx.table tx) (ctx.marks tx)) with
          | .error f => .error f
          | .ok (m, reports) => .ok (ctx.setMarks m tx, reports)

def enterStateSpecs : List Text → StateContext → Except StateFault (StateContext × List (List StateReport))
  | [], ctx => .ok (ctx, [])
  | ss :: specs, ctx =>
    match enterStateSpec ctx ss with
    | .error f => .error f
    | .ok (ctx, reports) =>
      match enterStateSpecs specs ctx with
      | .error f => .error f
      | .ok (ctx, more) => .ok (ctx, reports :: more)

end Lsof.Original
