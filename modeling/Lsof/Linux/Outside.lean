import Lsof.Linux.Lookup

/-! # Looking a path up outside the exempt file systems

The walk that stands for the kernel's where some file systems are not to be
touched: it keeps where it is as a path with no link in it, and asks whether the
next path is exempt before it makes a call on it. What it answers is what the
kernel would.
-/

namespace Lsof.Linux

open Lsof.Basis List
open Lsof.Core.Readlink (slash)

/-- A path `-e` or `+e` names, as the parser keeps it. -/
structure ExemptFs where
  path : Bytes
  trimmed : path = [slash] ∨ path.getLast? ≠ some slash

/-- The loop of `without_trailing_slashes`, on the path from its end. -/
def dropSlashes : Bytes → Bytes
  | [] => []
  | [c] => [c]
  | c :: d :: rest => if c = slash then dropSlashes (d :: rest) else c :: d :: rest

def withoutTrailingSlashes (path : Bytes) : Bytes := (dropSlashes path.reverse).reverse

theorem trimmed_withoutTrailingSlashes (path : Bytes) :
    withoutTrailingSlashes path = [slash] ∨ (withoutTrailingSlashes path).getLast? ≠ some slash := by
  rw [withoutTrailingSlashes]
  induction path.reverse with
  | nil => exact .inr nofun
  | cons c rest ih =>
    cases rest with
    | nil =>
      by_cases hc : c = slash
      · exact .inl (by rw [hc]; rfl)
      · exact .inr fun h => hc (Option.some.inj h)
    | cons d rest =>
      rw [dropSlashes]
      split
      · exact ih
      next hc =>
        refine .inr fun h => hc ?_
        rw [getLast?_reverse] at h
        exact Option.some.inj h

def ExemptFs.enter (path : Bytes) : ExemptFs := ⟨withoutTrailingSlashes path, trimmed_withoutTrailingSlashes path⟩

def underMount (path : Bytes) (e : ExemptFs) : Bool :=
  e.path == [slash] || path == e.path ||
    (decide (path.length > e.path.length) && e.path.isPrefixOf path && path[e.path.length]? == some slash)

/-- At the exempt path or under it: the path begins with it, and it ends there
where a component does. -/
def ExemptFs.Covers (e : ExemptFs) (path : Bytes) : Prop :=
  ∃ rest, path = e.path ++ rest ∧ (rest = [] ∨ rest.head? = some slash ∨ e.path.getLast? = some slash)

theorem underMount_iff {e : ExemptFs} {path : Bytes} (habs : path.head? = some slash) :
    underMount path e = true ↔ e.Covers path := by
  rw [underMount, ExemptFs.Covers]
  by_cases hroot : e.path = [slash]
  · rw [hroot]
    obtain ⟨c, rest, rfl⟩ := exists_cons_of_ne_nil (fun h : path = [] => by rw [h] at habs; exact absurd habs nofun)
    obtain rfl := Option.some.inj habs
    exact ⟨fun _ => ⟨rest, rfl, .inr (.inr rfl)⟩, fun _ => rfl⟩
  · have hlast := e.trimmed.resolve_left hroot
    simp only [Bool.or_eq_true, Bool.and_eq_true, beq_iff_eq, decide_eq_true_eq, isPrefixOf_iff_prefix]
    constructor
    · rintro ((hslash | hsame) | ⟨⟨hlonger, rest, rfl⟩, hnext⟩)
      · exact absurd hslash hroot
      · exact ⟨[], by rw [hsame, append_nil], .inl rfl⟩
      · rw [getElem?_append_right (Nat.le_refl _), Nat.sub_self] at hnext
        exact ⟨rest, rfl, .inr (.inl (head?_eq_getElem? ▸ hnext))⟩
    · rintro ⟨rest, rfl, rfl | hnext | hend⟩
      · exact .inl (.inr (append_nil _))
      · refine .inr ⟨⟨?_, prefix_append _ _⟩, ?_⟩
        · have hne : rest ≠ [] := fun h => by rw [h] at hnext; exact absurd hnext nofun
          have hpos := length_pos_iff.mpr hne
          rw [length_append]
          omega
        · rw [getElem?_append_right (Nat.le_refl _), Nat.sub_self, ← head?_eq_getElem?]
          exact hnext
      · exact absurd hend hlast

inductive Call where
  | lstat (path : Bytes)
  | readlink (path : Bytes)
  | stat (path : Bytes)
  deriving DecidableEq, Repr

def Call.path : Call → Bytes
  | .lstat path => path
  | .readlink path => path
  | .stat path => path

structure Walk where
  /-- Where the walk is, as a path with no symlink in it; empty is `/`. -/
  here : Bytes := []
  md : Option FileStat := none
  isDir : Bool := true
  deriving DecidableEq, Repr

/-- What a component does to the walk: it ends it, moves it, or puts a link's
target before what is left. -/
inductive Turn where
  | stop
  | go (st : Walk)
  | link (st : Walk) (target : Bytes)
  deriving DecidableEq, Repr

def cutLast (here : Bytes) : Bytes := ((here.reverse.dropWhile (· != slash)).drop 1).reverse

/-- The kernel's own limit on symlinks in one lookup. -/
def MAX_LINKS : Nat := 40

section Walking

variable (t : Tree) (cwd : Place) (exempt : List ExemptFs)

def turn (st : Walk) (c : Bytes) : Turn × List Call :=
  if st.isDir = false then (.stop, [])
  else if c = [] ∨ c = dot then (.go st, [])
  else if c = dotdot then (.go { st with here := cutLast st.here, md := none }, [])
  else
    let next := st.here ++ [slash] ++ c
    if exempt.any (underMount next) then (.stop, [])
    else match t.lstat cwd next with
      | .error _ => (.stop, [.lstat next])
      | .ok md =>
        if md.isSymlink then
          match t.readlink cwd next with
          | .error _ => (.stop, [.lstat next, .readlink next])
          | .ok target =>
            if target = [] then (.stop, [.lstat next, .readlink next])
            else if target.head? = some slash then
              (.link { st with here := [], md := none } target, [.lstat next, .readlink next])
            else (.link st target, [.lstat next, .readlink next])
        else (.go { here := next, md := some md, isDir := md.isDir }, [.lstat next])

/-- The components up to the first link; the rest is left to `onLink`. -/
def walkWith (onLink : Walk → List Bytes → Option Walk × List Call) :
    Walk → List Bytes → Option Walk × List Call
  | st, [] => (some st, [])
  | st, c :: todo =>
    let taken := turn t cwd exempt st c
    let rest := match taken.1 with
      | .stop => (none, [])
      | .go st' => walkWith onLink st' todo
      | .link st' target => onLink st' (target.splitOn slash ++ todo)
    (rest.1, taken.2 ++ rest.2)

/-- The loop, while `left` links may be followed: each turn takes a component
off or follows one of them. -/
def walk : Nat → Walk → List Bytes → Option Walk × List Call
  | 0 => walkWith t cwd exempt fun _ _ => (none, [])
  | left + 1 => walkWith t cwd exempt (walk left)

/-- What the walk ended on: where it ended on `/` or after a `..`, that is asked
for. -/
def finish (st : Walk) : Option FileStat × List Call :=
  match st.md with
  | some md => (some md, [])
  | none =>
    let dir := if st.here = [] then [slash] else st.here
    if exempt.any (underMount dir) then (none, []) else ((t.stat cwd dir).toOption, [.stat dir])

def metadataOutside (path : Bytes) : Option FileStat × List Call :=
  let walked := walk t cwd exempt MAX_LINKS {} (path.splitOn slash)
  match walked.1 with
  | none => (none, walked.2)
  | some st =>
    let last := finish t cwd exempt st
    (last.1, walked.2 ++ last.2)

def Exempted (path : Bytes) : Prop := ∃ e ∈ exempt, e.Covers path

theorem any_underMount_iff {path : Bytes} (habs : path.head? = some slash) :
    exempt.any (underMount path) = true ↔ Exempted exempt path := by
  simp only [any_eq_true, underMount_iff habs, Exempted]

/-- No call may be made on the place's path, or none can. -/
def Barred (p : Place) : Prop := Exempted exempt (Place.path p) ∨ PATH_MAX ≤ (Place.path p).length

structure Agrees (st : Walk) (p : Place) : Prop where
  reached : t.Reached p
  text : st.here = Place.text p
  node : ∃ node, t.entry p = some node ∧ st.isDir = node.md.isDir ∧ ∀ md, st.md = some md → md = node.md
  clear : st.md ≠ none → ¬ Barred exempt p

theorem agrees_start : Agrees t exempt {} [] where
  reached := .root
  text := rfl
  node := by
    obtain ⟨node, hnode, hdir⟩ := t.root_dir
    exact ⟨node, hnode, hdir.symm, fun md h => absurd h nofun⟩
  clear h := absurd rfl h

variable {t exempt}

variable {p : Place}

theorem cutLast_text (h : ∀ n ∈ p, slash ∉ n) : cutLast (Place.text p) = Place.text p.tail := by
  cases p with
  | nil => rfl
  | cons n p =>
    have hname : ∀ x ∈ n.reverse, (x != slash) = true := fun x hx =>
      bne_iff_ne.mpr fun hslash => (forall_mem_cons.mp h).1 (hslash ▸ mem_reverse.mp hx)
    rw [cutLast, Place.text, reverse_append, reverse_cons, append_assoc, dropWhile_append_of_pos hname]
    simp

variable {st : Walk}

theorem Agrees.parent (h : Agrees t exempt st p) (hdir : st.isDir = true) :
    Agrees t exempt { st with here := cutLast st.here, md := none } p.tail := by
  refine ⟨h.reached.tail, by rw [h.text]; exact cutLast_text h.reached.names, ?_, fun hne => absurd rfl hne⟩
  cases h.reached with
  | root =>
    obtain ⟨node, hnode, hnodeDir⟩ := t.root_dir
    exact ⟨node, hnode, hdir.trans hnodeDir.symm, fun md h => absurd h nofun⟩
  | down _ hnode hnodeDir => exact ⟨_, hnode, hdir.trans hnodeDir.symm, fun md h => absurd h nofun⟩

variable (t exempt)

def TurnAgrees (p : Place) (c : Bytes) : Turn → Prop
  | .stop =>
    (∃ e, t.step p c = .error e) ∨ (IsName c ∧ Barred exempt (c :: p)) ∨
      ∃ node, t.step p c = .ok (.link node) ∧ node.target = []
  | .go st =>
    ∃ q, Agrees t exempt st q ∧ (t.step p c = .ok (.go q) ∨ t.step p c = .error .acces) ∧
      (IsName c → ¬ Barred exempt (c :: p))
  | .link st target =>
    ∃ node, t.step p c = .ok (.link node) ∧ node.target = target ∧ target ≠ [] ∧ ¬ Barred exempt (c :: p) ∧
      Agrees t exempt st (if target.head? = some slash then [] else p)

variable {t exempt}

variable {c : Bytes}

theorem turnAgrees_name (h : Agrees t exempt st p) (hdir : st.isDir = true)
    (hname : IsName c) (hslash : slash ∉ c) : TurnAgrees t exempt p c (turn t cwd exempt st c).1 := by
  obtain ⟨node, hnode, hnodeDir, -⟩ := h.node
  have isDir : node.md.isDir = true := hnodeDir.symm.trans hdir
  have hnext : st.here ++ [slash] ++ c = Place.text (c :: p) := by
    rw [h.text, append_assoc]
    rfl
  have habs := Place.head?_text (cons_ne_nil c p)
  rw [turn, if_neg (by rw [hdir]; decide), if_neg (not_or.mpr ⟨hname.1, hname.2.1⟩), if_neg hname.2.2]
  dsimp only
  rw [hnext]
  by_cases hexempt : Exempted exempt (Place.text (c :: p))
  · rw [if_pos ((any_underMount_iff exempt habs).mpr hexempt)]
    exact .inr (.inl ⟨hname, .inl hexempt⟩)
  rw [if_neg fun h => hexempt ((any_underMount_iff exempt habs).mp h), Tree.lstat, Tree.readlink]
  by_cases hlong : PATH_MAX ≤ (Place.text (c :: p)).length
  · rw [t.nodeOf_long cwd false hlong]
    exact .inr (.inl ⟨hname, .inr hlong⟩)
  have hclear : ¬ Barred exempt (c :: p) := not_or.mpr ⟨hexempt, hlong⟩
  have hstep := t.step_name hnode isDir hname
  rw [h.reached.nodeOf_name cwd hnode isDir hname hslash (Nat.lt_of_not_le hlong)]
  by_cases hsearch : node.searchable = false
  · rw [if_pos hsearch] at hstep ⊢
    exact .inl ⟨_, hstep⟩
  rw [if_neg hsearch] at hstep ⊢
  cases hentry : t.entry (c :: p) with
  | none =>
    rw [hentry] at hstep
    exact .inl ⟨_, hstep⟩
  | some next =>
    rw [hentry] at hstep
    dsimp only [Except.map, Except.bind]
    by_cases hlink : next.md.isSymlink = true
    · rw [if_pos hlink, if_pos hlink]
      dsimp only at hstep ⊢
      rw [if_pos hlink] at hstep
      by_cases hempty : next.target = []
      · rw [if_pos hempty]
        exact .inr (.inr ⟨next, hstep, hempty⟩)
      · rw [if_neg hempty]
        by_cases habsolute : next.target.head? = some slash
        · rw [if_pos habsolute]
          refine ⟨next, hstep, rfl, hempty, hclear, ?_⟩
          rw [if_pos habsolute]
          obtain ⟨root, hroot, hrootDir⟩ := t.root_dir
          exact ⟨.root, rfl, ⟨root, hroot, hdir.trans hrootDir.symm, fun md h => absurd h nofun⟩,
            fun h => absurd rfl h⟩
        · rw [if_neg habsolute]
          refine ⟨next, hstep, rfl, hempty, hclear, ?_⟩
          rw [if_neg habsolute]
          exact h
    · rw [if_neg hlink]
      dsimp only at hstep
      rw [if_neg hlink] at hstep
      refine ⟨c :: p, ⟨?_, rfl, ⟨next, hentry, rfl, fun md h => (Option.some.inj h).symm⟩, fun _ => hclear⟩,
        .inl hstep, fun _ => hclear⟩
      exact .down h.reached hnode isDir (eq_true_of_ne_false hsearch) hname hslash hentry
        (eq_false_of_ne_true hlink)

theorem turnAgrees_turn (h : Agrees t exempt st p) (hslash : slash ∉ c) :
    TurnAgrees t exempt p c (turn t cwd exempt st c).1 := by
  obtain ⟨node, hnode, hnodeDir, hmd⟩ := h.node
  by_cases hdir : st.isDir = false
  · rw [turn, if_pos hdir]
    refine .inl ⟨.notdir, ?_⟩
    simp only [Tree.step, hnode]
    exact if_pos (hnodeDir.symm.trans hdir)
  have hisDir := eq_true_of_ne_false hdir
  have isDir : node.md.isDir = true := hnodeDir.symm.trans hisDir
  by_cases hname : IsName c
  · exact turnAgrees_name cwd h hisDir hname hslash
  rw [turn, if_neg hdir]
  by_cases hnil : c = []
  · rw [if_pos (.inl hnil), hnil]
    exact ⟨p, h, .inl (t.step_nil hnode isDir), fun hyes => absurd rfl hyes.1⟩
  by_cases hdot : c = dot
  · rw [if_pos (.inr hdot), hdot]
    refine ⟨p, h, ?_, fun hyes => absurd rfl hyes.2.1⟩
    rw [t.step_dot hnode isDir]
    split
    · exact .inr rfl
    · exact .inl rfl
  · have hdotdot : c = dotdot := not_not.mp fun hne => hname ⟨hnil, hdot, hne⟩
    rw [if_neg (not_or.mpr ⟨hnil, hdot⟩), if_pos hdotdot, hdotdot]
    refine ⟨p.tail, h.parent hisDir, ?_, fun hyes => absurd rfl hyes.2.2⟩
    rw [t.step_dotdot hnode isDir]
    split
    · exact .inr rfl
    · exact .inl rfl

variable (t exempt)

/-- A call outside what is exempt, on a path with no link before its last name. -/
def Safe (call : Call) : Prop :=
  ¬ Exempted exempt call.path ∧ ∃ p, call.path = Place.path p ∧ t.Reached p.tail

theorem path_of_mem_turn :
    ∀ call ∈ (turn t cwd exempt st c).2, call.path = st.here ++ [slash] ++ c ∧
      exempt.any (underMount (st.here ++ [slash] ++ c)) ≠ true := by
  unfold turn
  split
  · exact forall_mem_nil _
  split
  · exact forall_mem_nil _
  split
  · exact forall_mem_nil _
  dsimp only
  split
  · exact forall_mem_nil _
  next hclear =>
    have hone : ∀ call ∈ [Call.lstat (st.here ++ [slash] ++ c)], call.path = st.here ++ [slash] ++ c ∧
        exempt.any (underMount (st.here ++ [slash] ++ c)) ≠ true :=
      forall_mem_singleton.mpr ⟨rfl, hclear⟩
    have htwo : ∀ call ∈ [Call.lstat (st.here ++ [slash] ++ c), .readlink (st.here ++ [slash] ++ c)],
        call.path = st.here ++ [slash] ++ c ∧ exempt.any (underMount (st.here ++ [slash] ++ c)) ≠ true :=
      forall_mem_cons.mpr ⟨⟨rfl, hclear⟩, forall_mem_singleton.mpr ⟨rfl, hclear⟩⟩
    split
    · exact hone
    · split
      · split
        · exact htwo
        · split
          · exact htwo
          · split
            · exact htwo
            · exact htwo
      · exact hone

variable {t exempt}

theorem safe_of_mem_turn (h : Agrees t exempt st p) : ∀ call ∈ (turn t cwd exempt st c).2, Safe t exempt call := by
  intro call hcall
  obtain ⟨hpath, hclear⟩ := path_of_mem_turn t cwd exempt call hcall
  have hnext : st.here ++ [slash] ++ c = Place.text (c :: p) := by
    rw [h.text, append_assoc]
    rfl
  rw [hnext] at hpath hclear
  have habs := Place.head?_text (cons_ne_nil c p)
  refine ⟨?_, c :: p, hpath, h.reached⟩
  rw [hpath]
  exact fun hexempt => hclear ((any_underMount_iff exempt habs).mpr hexempt)

variable {todo : List Bytes}

theorem no_slash_in_todo {target : Bytes} (htodo : ∀ c ∈ todo, slash ∉ c) :
    ∀ c ∈ target.splitOn slash ++ todo, slash ∉ c :=
  forall_mem_append.mpr ⟨fun _ => not_mem_of_mem_splitOn, htodo⟩

variable (t exempt)

/-- What every part of the walk keeps: its calls are safe, and it ends where a
lookup can be. -/
structure Kept (r : Option Walk × List Call) : Prop where
  calls : ∀ call ∈ r.2, Safe t exempt call
  ends : ∀ st, r.1 = some st → ∃ p, Agrees t exempt st p

variable {t exempt}

theorem kept_none : Kept t exempt (none, []) := ⟨forall_mem_nil _, fun _ h => absurd h nofun⟩

theorem kept_walkWith {onLink : Walk → List Bytes → Option Walk × List Call}
    (honLink : ∀ st p todo, Agrees t exempt st p → (∀ c ∈ todo, slash ∉ c) → Kept t exempt (onLink st todo))
    (h : Agrees t exempt st p) (htodo : ∀ c ∈ todo, slash ∉ c) :
    Kept t exempt (walkWith t cwd exempt onLink st todo) := by
  induction todo generalizing st p with
  | nil => exact ⟨forall_mem_nil _, fun st' hst' => ⟨p, Option.some.inj hst' ▸ h⟩⟩
  | cons c todo ih =>
    obtain ⟨hslash, hrest⟩ := forall_mem_cons.mp htodo
    have hturn := turnAgrees_turn cwd h hslash
    have hkept : ∀ r, Kept t exempt r → Kept t exempt (r.1, (turn t cwd exempt st c).2 ++ r.2) :=
      fun r hr => ⟨forall_mem_append.mpr ⟨safe_of_mem_turn cwd h, hr.calls⟩, hr.ends⟩
    rw [walkWith]
    cases hmove : (turn t cwd exempt st c).1 with
    | stop => exact hkept _ kept_none
    | go st' =>
      rw [hmove] at hturn
      obtain ⟨q, hq, -, -⟩ := hturn
      exact hkept _ (ih hq hrest)
    | link st' target =>
      rw [hmove] at hturn
      obtain ⟨node, -, -, -, -, hq⟩ := hturn
      exact hkept _ (honLink _ _ _ hq (no_slash_in_todo hrest))

theorem kept_walk (left : Nat) (h : Agrees t exempt st p)
    (htodo : ∀ c ∈ todo, slash ∉ c) : Kept t exempt (walk t cwd exempt left st todo) := by
  induction left generalizing st p todo with
  | zero => exact kept_walkWith cwd (fun _ _ _ _ _ => kept_none) h htodo
  | succ left ih => exact kept_walkWith cwd (fun _ _ _ => ih) h htodo

theorem head?_path (p : Place) : (Place.path p).head? = some slash := by
  rw [Place.path]
  split
  · rfl
  next hne => exact Place.head?_text hne

theorem Agrees.dir_eq (h : Agrees t exempt st p) : (if st.here = [] then [slash] else st.here) = Place.path p := by
  rw [h.text, Place.path]
  cases p with
  | nil => rfl
  | cons n p =>
    have hne : Place.text (n :: p) ≠ [] := append_ne_nil_of_right_ne_nil _ (cons_ne_nil _ _)
    rw [if_neg hne, if_neg (cons_ne_nil _ _)]

theorem safe_finish (h : Agrees t exempt st p) : ∀ call ∈ (finish t cwd exempt st).2, Safe t exempt call := by
  unfold finish
  split
  · exact forall_mem_nil _
  · dsimp only
    rw [h.dir_eq]
    split
    · exact forall_mem_nil _
    next hclear =>
      refine forall_mem_singleton.mpr ⟨fun hexempt => hclear ?_, p, rfl, h.reached.tail⟩
      exact (any_underMount_iff exempt (head?_path p)).mpr hexempt

variable (t exempt)

/-- A lookup and the walk that stands for it. Where the lookup is refused for want
of permission to search a directory, the walk may not have noticed: it passes
a `.` or a `..` there. -/
def Follows (looked : Looked) (walked : Option Walk) : Prop :=
  looked.1 = .error .acces ∨
    match walked with
    | some st => (∃ p, looked.1 = .ok p ∧ Agrees t exempt st p) ∧ ∀ q ∈ looked.2, ¬ Barred exempt q
    | none => (∃ e, looked.1 = .error e) ∨ ∃ q ∈ looked.2, Barred exempt q

variable {t exempt}

theorem Follows.cons {looked : Looked} {walked : Option Walk} (h : Follows t exempt looked walked)
    {places : List Place} (hplaces : ∀ q ∈ places, ¬ Barred exempt q) :
    Follows t exempt (looked.1, places ++ looked.2) walked := by
  refine h.imp id fun h => ?_
  cases walked with
  | some st => exact ⟨h.1, forall_mem_append.mpr ⟨hplaces, h.2⟩⟩
  | none =>
    exact h.imp id fun ⟨q, hq, hbarred⟩ => ⟨q, mem_append_right _ hq, hbarred⟩

theorem follows_walkWith (htext : t.Textual) {kernel : Place → List Bytes → Looked}
    {onLink : Walk → List Bytes → Option Walk × List Call}
    (honLink : ∀ st p todo, Agrees t exempt st p → (∀ c ∈ todo, slash ∉ c) →
      Follows t exempt (kernel p todo) (onLink st todo).1)
    (h : Agrees t exempt st p) (htodo : ∀ c ∈ todo, slash ∉ c) :
    Follows t exempt (t.walkWith true kernel p todo) (walkWith t cwd exempt onLink st todo).1 := by
  induction todo generalizing st p with
  | nil => exact .inr ⟨⟨p, rfl, h⟩, forall_mem_nil _⟩
  | cons c todo ih =>
    obtain ⟨hslash, hrest⟩ := forall_mem_cons.mp htodo
    have hturn := turnAgrees_turn cwd h hslash
    rw [walkWith, Tree.walkWith]
    dsimp only
    cases hmove : (turn t cwd exempt st c).1 with
    | stop =>
      rw [hmove] at hturn
      rcases hturn with ⟨e, hstep⟩ | ⟨hname, hbarred⟩ | ⟨node, hstep, hempty⟩
      · rw [hstep]
        exact .inr (.inl ⟨e, rfl⟩)
      · cases hstep : t.step p c with
        | error e => exact .inr (.inl ⟨e, rfl⟩)
        | ok move =>
          cases move with
          | go q =>
            obtain rfl := t.eq_of_step_name hname hstep
            refine .inr (.inr ⟨c :: p, ?_, hbarred⟩)
            exact mem_append_left _ (by rw [if_pos hname]; exact mem_singleton_self _)
          | link node => exact .inr (.inr ⟨c :: p, by simp, hbarred⟩)
      · have hjump := htext _ node (t.entry_of_step_link hstep)
        rw [hstep]
        dsimp only
        rw [if_neg fun h => Bool.noConfusion h.2, hjump]
        dsimp only
        rw [if_pos hempty]
        exact .inr (.inl ⟨.noent, rfl⟩)
    | go st' =>
      rw [hmove] at hturn
      obtain ⟨q, hq, hstep | hstep, hclear⟩ := hturn
      · rw [hstep]
        refine (ih hq hrest).cons fun place hplace => ?_
        split at hplace
        next hname =>
          rw [mem_singleton.mp hplace, t.eq_of_step_name hname hstep]
          exact hclear hname
        next => exact absurd hplace not_mem_nil
      · rw [hstep]
        exact .inl rfl
    | link st' target =>
      rw [hmove] at hturn
      obtain ⟨node, hstep, rfl, hne, hclear, hq⟩ := hturn
      have hjump := htext _ node (t.entry_of_step_link hstep)
      rw [hstep]
      dsimp only
      rw [if_neg fun h => Bool.noConfusion h.2, hjump]
      dsimp only
      rw [if_neg hne]
      exact (honLink _ _ _ hq (no_slash_in_todo hrest)).cons (forall_mem_singleton.mpr hclear)

theorem follows_loop : Follows t exempt (.error .loop, []) none := .inr (.inl ⟨.loop, rfl⟩)

theorem follows_walk (htext : t.Textual) (left : Nat) (h : Agrees t exempt st p) (htodo : ∀ c ∈ todo, slash ∉ c) :
    Follows t exempt (t.walk true left p todo) (walk t cwd exempt left st todo).1 := by
  induction left generalizing st p todo with
  | zero => exact follows_walkWith cwd htext (fun _ _ _ _ _ => follows_loop) h htodo
  | succ left ih => exact follows_walkWith cwd htext (fun _ _ _ => ih) h htodo

theorem Agrees.stat_path (h : Agrees t exempt st p) (hfits : (Place.path p).length < PATH_MAX) :
    ∃ node, t.entry p = some node ∧ t.stat cwd (Place.path p) = .ok node.md := by
  obtain ⟨node, hnode, -, -⟩ := h.node
  refine ⟨node, hnode, ?_⟩
  rw [Tree.stat, Tree.nodeOf, h.reached.lookup_path cwd hfits]
  simp [Except.bind, Except.map, hnode]

theorem finish_eq_some {md : FileStat} (h : Agrees t exempt st p) (hmd : (finish t cwd exempt st).1 = some md) :
    (∃ node, t.entry p = some node ∧ md = node.md) ∧ ¬ Barred exempt p := by
  unfold finish at hmd
  split at hmd
  next found hfound =>
    obtain ⟨node, hnode, -, hsame⟩ := h.node
    obtain rfl := Option.some.inj hmd
    exact ⟨⟨node, hnode, hsame _ hfound⟩, h.clear (by rw [hfound]; exact nofun)⟩
  next =>
    dsimp only at hmd
    rw [h.dir_eq] at hmd
    split at hmd
    · exact absurd hmd nofun
    next hclear =>
      by_cases hlong : PATH_MAX ≤ (Place.path p).length
      · rw [Tree.stat, t.nodeOf_long cwd true hlong] at hmd
        exact absurd hmd nofun
      · obtain ⟨node, hnode, hstat⟩ := h.stat_path cwd (Nat.lt_of_not_le hlong)
        rw [hstat] at hmd
        refine ⟨⟨node, hnode, (Option.some.inj hmd).symm⟩, not_or.mpr ⟨fun hexempt => hclear ?_, hlong⟩⟩
        exact (any_underMount_iff exempt (head?_path p)).mpr hexempt

theorem finish_eq_none (h : Agrees t exempt st p) (hnone : (finish t cwd exempt st).1 = none) : Barred exempt p := by
  unfold finish at hnone
  split at hnone
  · exact absurd hnone nofun
  · dsimp only at hnone
    rw [h.dir_eq] at hnone
    split at hnone
    next hexempt => exact .inl ((any_underMount_iff exempt (head?_path p)).mp hexempt)
    next =>
      by_contra hfits
      obtain ⟨node, hnode, hstat⟩ := h.stat_path cwd (Nat.lt_of_not_le fun hlong => hfits (.inr hlong))
      rw [hstat] at hnone
      exact absurd hnone nofun

end Walking

section Absolute

variable (t : Tree) (cwd : Place) (exempt : List ExemptFs) {path : Bytes}

theorem safe_metadataOutside : ∀ call ∈ (metadataOutside t cwd exempt path).2, Safe t exempt call := by
  have hkept := kept_walk cwd MAX_LINKS (agrees_start t exempt)
    (fun c (hc : c ∈ path.splitOn slash) => not_mem_of_mem_splitOn hc)
  unfold metadataOutside
  dsimp only
  split
  · exact hkept.calls
  next st hst =>
    obtain ⟨p, hp⟩ := hkept.ends st hst
    exact forall_mem_append.mpr ⟨hkept.calls, safe_finish cwd hp⟩

theorem lookup_absolute (habs : path.head? = some slash) (hfits : path.length < PATH_MAX) :
    t.lookup cwd true path = t.walk true MAXSYMLINKS [] (path.splitOn slash) := by
  have hne : path ≠ [] := fun h => by rw [h] at habs; exact absurd habs nofun
  rw [Tree.lookup, if_neg hne, if_neg (Nat.not_le_of_lt hfits), if_pos habs]

theorem stat_of_lookup_error {e : Errno} (h : (t.lookup cwd true path).1 = .error e) :
    t.stat cwd path = .error e := by
  rw [Tree.stat, Tree.nodeOf, h]
  rfl

theorem stat_of_lookup_ok {p : Place} {node : Node} (h : (t.lookup cwd true path).1 = .ok p)
    (hnode : t.entry p = some node) : t.stat cwd path = .ok node.md := by
  rw [Tree.stat, Tree.nodeOf, h]
  simp [Except.bind, Except.map, hnode]

theorem metadataOutside_follows (htext : t.Textual) (habs : path.head? = some slash) (hfits : path.length < PATH_MAX) :
    t.stat cwd path = .error .acces ∨
      match (metadataOutside t cwd exempt path).1 with
      | some md => t.stat cwd path = .ok md ∧ ∀ p ∈ t.steps cwd path, ¬ Barred exempt p
      | none => (∃ e, t.stat cwd path = .error e) ∨ ∃ p ∈ t.steps cwd path, Barred exempt p := by
  have hlookup := lookup_absolute t cwd habs hfits
  have hfollows := follows_walk cwd htext MAXSYMLINKS (agrees_start t exempt)
    (fun c (hc : c ∈ path.splitOn slash) => not_mem_of_mem_splitOn hc)
  rw [← hlookup] at hfollows
  rcases hfollows with hacces | hfollows
  · exact .inl (stat_of_lookup_error t cwd hacces)
  refine .inr ?_
  unfold metadataOutside Tree.steps
  dsimp only
  cases hwalked : (walk t cwd exempt MAX_LINKS {} (path.splitOn slash)).1 with
  | none =>
    rw [show MAXSYMLINKS = MAX_LINKS from rfl, hwalked] at hfollows
    refine hfollows.imp (fun ⟨e, he⟩ => ⟨e, stat_of_lookup_error t cwd he⟩) fun ⟨p, hp, hbarred⟩ => ?_
    exact ⟨p, mem_append_left _ hp, hbarred⟩
  | some st =>
    rw [show MAXSYMLINKS = MAX_LINKS from rfl, hwalked] at hfollows
    obtain ⟨⟨p, hp, hagrees⟩, hclear⟩ := hfollows
    have hlast : (t.lookup cwd true path).1.toOption.toList = [p] := by rw [hp]; rfl
    rw [hlast]
    cases hfinish : (finish t cwd exempt st).1 with
    | some md =>
      obtain ⟨⟨node, hnode, rfl⟩, hend⟩ := finish_eq_some cwd hagrees hfinish
      exact ⟨stat_of_lookup_ok t cwd hp hnode, forall_mem_append.mpr ⟨hclear, forall_mem_singleton.mpr hend⟩⟩
    | none =>
      exact .inr ⟨p, mem_append_right _ (mem_singleton_self p), finish_eq_none cwd hagrees hfinish⟩

end Absolute

def directory (ino : UInt64) : FileStat := { dev := 1, ino := ino, mode := 0o040755 }

def treeOf (entries : List (Place × Node)) : Tree where
  entry p := if p = [] then some { md := directory 2 } else entries.lookup p
  root_dir := ⟨_, rfl, by decide⟩

theorem textual_treeOf {entries : List (Place × Node)} (h : ∀ entry ∈ entries, entry.2.jump = none) :
    (treeOf entries).Textual := by
  intro p node hnode
  rw [treeOf] at hnode
  dsimp only at hnode
  split at hnode
  · exact Option.some.inj hnode ▸ rfl
  · obtain ⟨before, after, rfl, -⟩ := lookup_eq_some_iff.mp hnode
    exact h (p, node) (mem_append_right _ mem_cons_self)

/-- `/l` is a link to `d/../d/s`, beside a directory `/d` and a socket `/d/s`. -/
def linkedSocket : Tree :=
  treeOf [([[0x6C]], { md := { dev := 1, ino := 3, mode := 0o120777 }, target := [0x64, 0x2F, 0x2E, 0x2E, 0x2F, 0x64, 0x2F, 0x73] }),
    ([[0x64]], { md := directory 4 }), ([[0x73], [0x64]], { md := { dev := 1, ino := 5, mode := 0o140755 } })]

end Lsof.Linux
