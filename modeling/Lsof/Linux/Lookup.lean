import Lsof.Basis.Framing
import Lsof.Core.Readlink

/-! # How the kernel looks a path up

One component at a time, as path_resolution(7) has it: from the root, or from
the working directory; what a component is looked up in must be a directory, and
one that may be searched, for `.` and `..` too; a symbolic link is followed by
its text, at most `MAXSYMLINKS` of them, unless it is one of procfs's, which lead
straight to a place whatever their text says; and a text of `PATH_MAX` bytes is
refused. With the outcome goes where the lookup went.
-/

namespace Lsof.Linux

open Lsof.Basis List
open Lsof.Core.Readlink (slash)

def S_IFMT : UInt32 := 0o170000

def S_IFDIR : UInt32 := 0o040000

def S_IFLNK : UInt32 := 0o120000

structure FileStat where
  dev : UInt64
  ino : UInt64
  rdev : UInt64 := 0
  mode : UInt32
  nlink : UInt64 := 1
  size : UInt64 := 0
  uid : UInt32 := 0
  gid : UInt32 := 0
  deriving DecidableEq, Repr

def FileStat.isDir (md : FileStat) : Bool := md.mode &&& S_IFMT == S_IFDIR

def FileStat.isSymlink (md : FileStat) : Bool := md.mode &&& S_IFMT == S_IFLNK

/-- A place in the tree: the names that lead to it from the root, the last one
first. -/
abbrev Place := List Bytes

structure Node where
  md : FileStat
  /-- Of a directory: whether the process may search it. -/
  searchable : Bool := true
  /-- Of a link: its text. -/
  target : Bytes := []
  /-- Of a link of procfs: the place it leads to. -/
  jump : Option Place := none
  deriving DecidableEq, Repr

structure Tree where
  entry : Place → Option Node
  root_dir : ∃ node, entry [] = some node ∧ node.md.isDir = true

def Tree.Textual (t : Tree) : Prop := ∀ p node, t.entry p = some node → node.jump = none

inductive Errno where
  | noent
  | notdir
  | acces
  | loop
  | nametoolong
  | inval
  deriving DecidableEq, Repr

def dot : Bytes := [0x2E]

def dotdot : Bytes := [0x2E, 0x2E]

/-- A component that is looked up, and not a `.`, a `..` or nothing between two
slashes. -/
def IsName (c : Bytes) : Prop := c ≠ [] ∧ c ≠ dot ∧ c ≠ dotdot

instance : DecidablePred IsName := fun c => inferInstanceAs (Decidable (c ≠ [] ∧ c ≠ dot ∧ c ≠ dotdot))

inductive Move where
  | go (p : Place)
  | link (node : Node)
  deriving DecidableEq, Repr

def Tree.step (t : Tree) (here : Place) (c : Bytes) : Except Errno Move :=
  match t.entry here with
  | none => .error .noent
  | some node =>
    if node.md.isDir = false then .error .notdir
    -- a slash more than is needed asks for a directory and nothing else
    else if c = [] then .ok (.go here)
    else if node.searchable = false then .error .acces
    else if c = dot then .ok (.go here)
    else if c = dotdot then .ok (.go here.tail)
    else match t.entry (c :: here) with
      | none => .error .noent
      | some next => if next.md.isSymlink then .ok (.link next) else .ok (.go (c :: here))

abbrev Looked := Except Errno Place × List Place

/-- The components up to the first link that is followed, which is left to
`onLink`: where the rest is looked up from, and the rest. The last component is
not followed unless `follow` says so. -/
def Tree.walkWith (t : Tree) (follow : Bool) (onLink : Place → List Bytes → Looked) :
    Place → List Bytes → Looked
  | here, [] => (.ok here, [])
  | here, c :: todo =>
    match t.step here c with
    | .error e => (.error e, [])
    | .ok (.go next) =>
      let rest := walkWith t follow onLink next todo
      (rest.1, (if IsName c then [next] else []) ++ rest.2)
    | .ok (.link node) =>
      if todo = [] ∧ follow = false then (.ok (c :: here), [c :: here])
      else
        let rest := match node.jump with
          | some p => onLink p todo
          | none =>
            if node.target = [] then (.error .noent, [])
            else onLink (if node.target.head? = some slash then [] else here)
              (node.target.splitOn slash ++ todo)
        (rest.1, (c :: here) :: rest.2)

/-- While `left` links may be followed. -/
def Tree.walk (t : Tree) (follow : Bool) : Nat → Place → List Bytes → Looked
  | 0 => t.walkWith follow fun _ _ => (.error .loop, [])
  | left + 1 => t.walkWith follow (t.walk follow left)

/-- The kernel's limit on the links of one lookup. -/
def MAXSYMLINKS : Nat := 40

def PATH_MAX : Nat := 4096

def Tree.lookup (t : Tree) (cwd : Place) (follow : Bool) (path : Bytes) : Looked :=
  if path = [] then (.error .noent, [])
  else if path.length ≥ PATH_MAX then (.error .nametoolong, [])
  else t.walk follow MAXSYMLINKS (if path.head? = some slash then [] else cwd) (path.splitOn slash)

def Tree.steps (t : Tree) (cwd : Place) (path : Bytes) : List Place :=
  let looked := t.lookup cwd true path
  looked.2 ++ looked.1.toOption.toList

def Tree.nodeOf (t : Tree) (looked : Looked) : Except Errno Node :=
  looked.1.bind fun p => match t.entry p with
    | some node => .ok node
    | none => .error .noent

def Tree.stat (t : Tree) (cwd : Place) (path : Bytes) : Except Errno FileStat :=
  (t.nodeOf (t.lookup cwd true path)).map Node.md

def Tree.lstat (t : Tree) (cwd : Place) (path : Bytes) : Except Errno FileStat :=
  (t.nodeOf (t.lookup cwd false path)).map Node.md

def Tree.readlink (t : Tree) (cwd : Place) (path : Bytes) : Except Errno Bytes :=
  (t.nodeOf (t.lookup cwd false path)).bind fun node =>
    if node.md.isSymlink then .ok node.target else .error .inval

def Place.text : Place → Bytes
  | [] => []
  | n :: p => Place.text p ++ slash :: n

def Place.path (p : Place) : Bytes := if p = [] then [slash] else Place.text p

@[simp]
theorem Place.path_cons (n : Bytes) (p : Place) : Place.path (n :: p) = Place.text (n :: p) := rfl

variable {p : Place}

theorem Place.head?_text (h : p ≠ []) : (Place.text p).head? = some slash := by
  induction p with
  | nil => exact absurd rfl h
  | cons n p ih =>
    cases p with
    | nil => rfl
    | cons m p =>
      rw [Place.text, head?_append, ih (cons_ne_nil _ _)]
      rfl

theorem Place.splitOn_text (h : ∀ n ∈ p, slash ∉ n) : (Place.text p).splitOn slash = [] :: p.reverse := by
  induction p with
  | nil => rfl
  | cons n p ih =>
    obtain ⟨hn, hp⟩ := forall_mem_cons.mp h
    have hsingle : n.splitOnP (· == slash) = [n] :=
      splitOnP_eq_singleton fun x hx => beq_eq_false_iff_ne.mpr fun hslash => hn (hslash ▸ hx)
    have hcut := splitOnP_append_cons (p := (· == slash)) (Place.text p) n (beq_self_eq_true slash)
    rw [Place.text, splitOn_eq_splitOnP, hcut, hsingle, ← splitOn_eq_splitOnP, ih hp, reverse_cons]
    rfl

/-- A place that its names lead to with no link among them. -/
inductive Tree.Reached (t : Tree) : Place → Prop where
  | root : t.Reached []
  | down {p : Place} {n : Bytes} {dir node : Node} (above : t.Reached p) (hdir : t.entry p = some dir)
      (isDir : dir.md.isDir = true) (searchable : dir.searchable = true) (hname : IsName n) (hslash : slash ∉ n)
      (hnode : t.entry (n :: p) = some node) (notLink : node.md.isSymlink = false) : t.Reached (n :: p)

variable {t : Tree}

theorem Tree.Reached.names (h : t.Reached p) : ∀ n ∈ p, slash ∉ n := by
  induction h with
  | root => exact fun n hn => absurd hn not_mem_nil
  | down _ _ _ _ _ hslash _ _ ih => exact forall_mem_cons.mpr ⟨hslash, ih⟩

theorem Tree.Reached.tail (h : t.Reached p) : t.Reached p.tail := by
  cases h with
  | root => exact .root
  | down above => exact above

section Directory

variable {t : Tree} {p : Place} {dir : Node} (hdir : t.entry p = some dir) (isDir : dir.md.isDir = true)

include hdir isDir

theorem Tree.step_nil : t.step p [] = .ok (.go p) := by
  simp [Tree.step, hdir, isDir]

theorem Tree.step_dot : t.step p dot = if dir.searchable = false then .error .acces else .ok (.go p) := by
  simp [Tree.step, hdir, isDir, dot]

theorem Tree.step_dotdot : t.step p dotdot = if dir.searchable = false then .error .acces else .ok (.go p.tail) := by
  simp [Tree.step, hdir, isDir, dot, dotdot]

theorem Tree.step_name {n : Bytes} (hname : IsName n) :
    t.step p n = if dir.searchable = false then .error .acces
      else match t.entry (n :: p) with
        | none => .error .noent
        | some next => if next.md.isSymlink then .ok (.link next) else .ok (.go (n :: p)) := by
  unfold Tree.step
  simp only [hdir, isDir, Bool.true_eq_false, if_false, if_neg hname.1, if_neg hname.2.1, if_neg hname.2.2]

end Directory

theorem Tree.step_ok {c : Bytes} {move : Move} (h : t.step p c = .ok move) :
    (IsName c ∧ (move = .go (c :: p) ∨ ∃ node, move = .link node ∧ t.entry (c :: p) = some node)) ∨
      (¬ IsName c ∧ ∃ q, move = .go q) := by
  unfold Tree.step at h
  split at h
  · exact absurd h nofun
  split at h
  · exact absurd h nofun
  split at h
  next hnil => exact .inr ⟨fun hname => hname.1 hnil, p, (Except.ok.inj h).symm⟩
  next hnil =>
    split at h
    · exact absurd h nofun
    split at h
    next hdot => exact .inr ⟨fun hname => hname.2.1 hdot, p, (Except.ok.inj h).symm⟩
    next hdot =>
      split at h
      next hdotdot => exact .inr ⟨fun hname => hname.2.2 hdotdot, p.tail, (Except.ok.inj h).symm⟩
      next hdotdot =>
        refine .inl ⟨⟨hnil, hdot, hdotdot⟩, ?_⟩
        split at h
        · exact absurd h nofun
        next node hnode =>
          split at h
          · exact .inr ⟨node, (Except.ok.inj h).symm, hnode⟩
          · exact .inl (Except.ok.inj h).symm

theorem Tree.eq_of_step_name {p q : Place} {n : Bytes} (hname : IsName n)
    (h : t.step p n = .ok (.go q)) : q = n :: p := by
  rcases t.step_ok h with ⟨_, hgo | ⟨node, hlink, _⟩⟩ | ⟨hnot, _⟩
  · exact Move.go.inj hgo
  · exact absurd hlink nofun
  · exact absurd hname hnot

theorem Tree.entry_of_step_link {n : Bytes} {node : Node}
    (h : t.step p n = .ok (.link node)) : t.entry (n :: p) = some node := by
  rcases t.step_ok h with ⟨_, hgo | ⟨found, hlink, hentry⟩⟩ | ⟨_, q, hgo⟩
  · exact absurd hgo nofun
  · exact Move.link.inj hlink ▸ hentry
  · exact absurd hgo nofun

theorem Tree.step_reached {n : Bytes} (h : t.Reached (n :: p)) : t.step p n = .ok (.go (n :: p)) := by
  cases h with
  | down above hdir isDir searchable hname hslash hnode notLink =>
    rw [t.step_name hdir isDir hname, if_neg (by rw [searchable]; decide), hnode]
    exact if_neg (by rw [notLink]; decide)

section Texts

variable {t : Tree}

variable {p : Place}

theorem Tree.Reached.walkWith_names (follow : Bool) (onLink : Place → List Bytes → Looked)
    (h : t.Reached p) (rest : List Bytes) :
    (t.walkWith follow onLink [] (p.reverse ++ rest)).1 = (t.walkWith follow onLink p rest).1 := by
  induction p generalizing rest with
  | nil => rfl
  | cons n p ih =>
    rw [reverse_cons, append_assoc, ih h.tail, singleton_append, Tree.walkWith, t.step_reached h]

theorem Tree.walk_eq_walkWith (t : Tree) (follow : Bool) (left : Nat) :
    ∃ onLink, t.walk follow left = t.walkWith follow onLink := by
  cases left with
  | zero => exact ⟨_, rfl⟩
  | succ left => exact ⟨_, rfl⟩

theorem Tree.step_root_nil (t : Tree) : t.step [] [] = .ok (.go []) := by
  obtain ⟨node, hnode, hdir⟩ := t.root_dir
  exact t.step_nil hnode hdir

theorem Tree.Reached.lookup_name (h : t.Reached p) (cwd : Place) {n : Bytes} (hslash : slash ∉ n)
    (hfits : (Place.text (n :: p)).length < PATH_MAX) :
    (t.lookup cwd false (Place.text (n :: p))).1 =
      (t.step p n).map fun move => match move with
        | .go q => q
        | .link _ => n :: p := by
  have hne : Place.text (n :: p) ≠ [] := append_ne_nil_of_right_ne_nil _ (cons_ne_nil _ _)
  obtain ⟨onLink, hwalk⟩ := t.walk_eq_walkWith false MAXSYMLINKS
  rw [Tree.lookup, if_neg hne, if_neg (Nat.not_le_of_lt hfits), if_pos (Place.head?_text (cons_ne_nil _ _)),
    Place.splitOn_text (forall_mem_cons.mpr ⟨hslash, h.names⟩), hwalk, Tree.walkWith, t.step_root_nil]
  dsimp only
  rw [reverse_cons, h.walkWith_names, Tree.walkWith]
  cases t.step p n with
  | error e => rfl
  | ok move =>
    cases move with
    | go q => rfl
    | link node => rfl

theorem Tree.Reached.nodeOf_name (h : t.Reached p) (cwd : Place) {n : Bytes} {dir : Node}
    (hdir : t.entry p = some dir) (isDir : dir.md.isDir = true) (hname : IsName n) (hslash : slash ∉ n)
    (hfits : (Place.text (n :: p)).length < PATH_MAX) :
    t.nodeOf (t.lookup cwd false (Place.text (n :: p))) = if dir.searchable = false then .error .acces
      else match t.entry (n :: p) with
        | none => .error .noent
        | some node => .ok node := by
  rw [Tree.nodeOf, h.lookup_name cwd hslash hfits, t.step_name hdir isDir hname]
  split
  · rfl
  · cases hnode : t.entry (n :: p) with
    | none => rfl
    | some node =>
      dsimp only
      split
      · simp [Except.map, Except.bind, hnode]
      · simp [Except.map, Except.bind, hnode]

theorem Tree.nodeOf_long {path : Bytes} (cwd : Place) (follow : Bool) (hlong : PATH_MAX ≤ path.length) :
    t.nodeOf (t.lookup cwd follow path) = .error .nametoolong := by
  have hne : path ≠ [] := fun h => absurd hlong (by rw [h]; decide)
  rw [Tree.lookup, if_neg hne, if_pos hlong]
  rfl

theorem Tree.Reached.lookup_path (h : t.Reached p) (cwd : Place) (hfits : (Place.path p).length < PATH_MAX) :
    (t.lookup cwd true (Place.path p)).1 = .ok p := by
  obtain ⟨onLink, hwalk⟩ := t.walk_eq_walkWith true MAXSYMLINKS
  cases p with
  | nil =>
    rw [Place.path, if_pos rfl, Tree.lookup, if_neg (cons_ne_nil _ _), if_neg (by decide),
      if_pos (show [slash].head? = some slash from rfl), hwalk]
    have hsplit : [slash].splitOn slash = [[], []] := by decide
    rw [hsplit, Tree.walkWith, t.step_root_nil]
    dsimp only
    rw [Tree.walkWith, t.step_root_nil]
    rfl
  | cons n p =>
    have hne : Place.text (n :: p) ≠ [] := append_ne_nil_of_right_ne_nil _ (cons_ne_nil _ _)
    rw [Place.path_cons] at hfits ⊢
    rw [Tree.lookup, if_neg hne, if_neg (Nat.not_le_of_lt hfits), if_pos (Place.head?_text (cons_ne_nil _ _)),
      Place.splitOn_text h.names, hwalk, Tree.walkWith, t.step_root_nil]
    dsimp only
    have hnames := h.walkWith_names true onLink []
    rw [append_nil] at hnames
    rw [hnames]
    rfl

end Texts

end Lsof.Linux
