import Stencil.FileTree

/-!
# Paths in a changing tree

A path leads through the directories and links on its way.  A tree that has the same nodes on the
way of a path looks the path up alike, and a tree that has the same directories and links writes to
the same places.
-/

namespace Stencil.FileTree

/-! ## The steps of a walk -/

section Steps

variable {tree : FileTree} {final behind : Place → Except FileFault Place} {links : Nat}
  {here : Place} {name : String} {rest : List String}

/-- Whether a name is one that a directory has an entry under. -/
def isEntry (name : String) : Bool := !(name = "" || name = ".") && name ≠ ".."

theorem walk_done : tree.walk final behind links here [] = .ok here := by
  rw [walk]

/-- A walk goes nowhere behind a node that is no directory. -/
theorem walk_stuck {found : Place} (stuck : tree.node? here ≠ some .directory) :
    tree.walk final behind links here (name :: rest) ≠ .ok found := by
  rw [walk]
  cases node : tree.node? here with
  | none => simp
  | some n => cases n <;> simp_all

theorem eq_of_walk_solid {names : List String} {found : Place}
    (solid : tree.node? here ≠ some .directory)
    (h : tree.walk final behind links here names = .ok found) : names = [] ∧ found = here := by
  cases names with
  | nil =>
    rw [walk_done] at h
    exact ⟨rfl, (Except.ok.inj h).symm⟩
  | cons name rest => exact absurd h (walk_stuck solid)

theorem walk_blank (directory : tree.node? here = some .directory)
    (blank : (name = "" || name = ".") = true) :
    tree.walk final behind links here (name :: rest) = tree.walk final behind links here rest := by
  rw [walk, directory]
  exact if_pos blank

theorem walk_up (directory : tree.node? here = some .directory) :
    tree.walk final behind links here (".." :: rest) =
      tree.walk final behind links here.dropLast rest := by
  rw [walk, directory]
  rfl

theorem walk_missing (directory : tree.node? here = some .directory) (entry : isEntry name = true)
    (missing : tree.node? (here ++ [name]) = none) :
    tree.walk final behind links here (name :: rest) =
      if rest = [] then final (here ++ [name])
      else if rest.all (· = "") then behind (here ++ [name])
      else .error .notFound := by
  simp only [isEntry, Bool.and_eq_true, Bool.not_eq_true', decide_eq_true_eq] at entry
  rw [walk, directory]
  simp only [entry, missing, Bool.false_eq_true, if_false]

theorem walk_tooManyLinks {target : String} (directory : tree.node? here = some .directory)
    (entry : isEntry name = true) (link : tree.node? (here ++ [name]) = some (.link target)) :
    tree.walk final behind 0 here (name :: rest) = .error .tooManyLinks := by
  simp only [isEntry, Bool.and_eq_true, Bool.not_eq_true', decide_eq_true_eq] at entry
  rw [walk, directory]
  simp only [entry, link, Bool.false_eq_true, if_false]

/-- Where the target of a link in a directory is looked up from. -/
def startOf (target : String) (here : Place) : Place :=
  if (Path.mk target).isAbsolute then [] else here

theorem walk_link {target : String} (directory : tree.node? here = some .directory)
    (entry : isEntry name = true) (link : tree.node? (here ++ [name]) = some (.link target)) :
    tree.walk final behind (links + 1) here (name :: rest) =
      tree.walk final behind links (startOf target here) ((Path.mk target).pieces ++ rest) := by
  simp only [isEntry, Bool.and_eq_true, Bool.not_eq_true', decide_eq_true_eq] at entry
  rw [walk, directory]
  simp only [entry, link, Bool.false_eq_true, if_false, startOf]

theorem walk_entry {node : Node} (directory : tree.node? here = some .directory)
    (entry : isEntry name = true) (found : tree.node? (here ++ [name]) = some node)
    (no_link : ∀ target, node ≠ .link target) :
    tree.walk final behind links here (name :: rest) =
      tree.walk final behind links (here ++ [name]) rest := by
  simp only [isEntry, Bool.and_eq_true, Bool.not_eq_true', decide_eq_true_eq] at entry
  rw [walk, directory]
  simp only [entry, found, Bool.false_eq_true, if_false]

theorem walk_blanks (directory : tree.node? here = some .directory)
    (blanks : rest.all (· = "") = true) :
    tree.walk final behind links here rest = .ok here := by
  induction rest with
  | nil => exact walk_done
  | cons name rest ih =>
    simp only [List.all_cons, Bool.and_eq_true] at blanks
    rw [walk_blank directory (by simp [blanks.1])]
    exact ih blanks.2

end Steps

/-- A walk goes step by step: along a blank name, up, over a link, or to an entry. -/
@[elab_as_elim]
theorem walk_induction (tree : FileTree) {motive : Nat → Place → List String → Prop}
    (done : ∀ links here, motive links here [])
    (stuck : ∀ links here name rest, tree.node? here ≠ some .directory →
      motive links here (name :: rest))
    (blank : ∀ links here name rest, tree.node? here = some .directory →
      (name = "" || name = ".") = true → motive links here rest → motive links here (name :: rest))
    (up : ∀ links here rest, tree.node? here = some .directory →
      motive links here.dropLast rest → motive links here (".." :: rest))
    (missing : ∀ links here name rest, tree.node? here = some .directory → isEntry name = true →
      tree.node? (here ++ [name]) = none → motive links here (name :: rest))
    (tooMany : ∀ here name rest target, tree.node? here = some .directory → isEntry name = true →
      tree.node? (here ++ [name]) = some (.link target) → motive 0 here (name :: rest))
    (link : ∀ links here name rest target, tree.node? here = some .directory →
      isEntry name = true → tree.node? (here ++ [name]) = some (.link target) →
      motive links (startOf target here) ((Path.mk target).pieces ++ rest) →
      motive (links + 1) here (name :: rest))
    (entry : ∀ links here name rest node, tree.node? here = some .directory →
      isEntry name = true → tree.node? (here ++ [name]) = some node →
      (∀ target, node ≠ .link target) → motive links (here ++ [name]) rest →
      motive links here (name :: rest))
    (links : Nat) (here : Place) (names : List String) : motive links here names := by
  have named {name : String} (plain : ¬(decide (name = "") || decide (name = ".")) = true)
      (down : ¬name = "..") : isEntry name = true := by
    simp_all [isEntry]
  induction links, here, names using walk.induct tree with
  | case1 links here => exact done links here
  | case2 links here name rest directory is_blank ih =>
    exact blank links here name rest directory is_blank ih
  | case3 links here rest directory _ ih => exact up links here rest directory ih
  | case4 links here name directory plain down next none_next =>
    exact missing links here name [] directory (named plain down) none_next
  | case5 links here name rest directory plain down next none_next some_name =>
    exact missing links here name rest directory (named plain down) none_next
  | case6 links here name rest directory plain down next none_next =>
    exact missing links here name rest directory (named plain down) none_next
  | case7 here name rest directory plain down next target is_link =>
    exact tooMany here name rest target directory (named plain down) is_link
  | case8 here name rest directory plain down next target is_link links start ih =>
    exact link links here name rest target directory (named plain down) is_link ih
  | case9 links here name rest directory plain down next node no_link found ih =>
    exact entry links here name rest node directory (named plain down) found no_link ih
  | case10 links here name rest node no_directory found =>
    exact stuck links here name rest (by simpa [found] using no_directory)
  | case11 links here name rest absent =>
    exact stuck links here name rest (by simp [absent])

/-! ## The way of a path -/

/-- The places that a walk looks at, and the one that it ends at. -/
def wayFrom (tree : FileTree) : Nat → Place → List String → List Place
  | _, here, [] => [here]
  | links, here, name :: rest =>
    match tree.node? here with
    | some .directory =>
      if name = "" || name = "." then here :: wayFrom tree links here rest
      else if name = ".." then here :: wayFrom tree links here.dropLast rest
      else
        let next := here ++ [name]
        match tree.node? next with
        | none => [here, next]
        | some (.link target) =>
          match links with
          | 0 => [here, next]
          | links + 1 => here :: next :: wayFrom tree links (startOf target here)
              ((Path.mk target).pieces ++ rest)
        | some _ => here :: next :: wayFrom tree links next rest
    | _ => [here]
  termination_by links _ names => (links, names.length)

def way (tree : FileTree) (path : Path) : List Place :=
  if path.text = "" then []
  else tree.wayFrom linkLimit (if path.isAbsolute then [] else tree.working) path.pieces

theorem here_mem_wayFrom (tree : FileTree) (links : Nat) (here : Place) (names : List String) :
    here ∈ tree.wayFrom links here names := by
  unfold wayFrom
  repeat' first | simp | split

theorem wayFrom_blank {tree : FileTree} {links : Nat} {here : Place} {name : String}
    {rest : List String} (directory : tree.node? here = some .directory)
    (blank : (name = "" || name = ".") = true) :
    tree.wayFrom links here (name :: rest) = here :: tree.wayFrom links here rest := by
  rw [wayFrom, directory]
  exact if_pos blank

theorem wayFrom_up {tree : FileTree} {links : Nat} {here : Place} {rest : List String}
    (directory : tree.node? here = some .directory) :
    tree.wayFrom links here (".." :: rest) = here :: tree.wayFrom links here.dropLast rest := by
  rw [wayFrom, directory]
  rfl

theorem next_mem_wayFrom {tree : FileTree} {links : Nat} {here : Place} {name : String}
    {rest : List String} (directory : tree.node? here = some .directory)
    (entry : isEntry name = true) : here ++ [name] ∈ tree.wayFrom links here (name :: rest) := by
  simp only [isEntry, Bool.and_eq_true, Bool.not_eq_true', decide_eq_true_eq] at entry
  rw [wayFrom, directory]
  simp only [entry, Bool.false_eq_true, if_false]
  repeat' first | simp | split

theorem mem_wayFrom_link {tree : FileTree} {links : Nat} {here place : Place} {name target : String}
    {rest : List String} (directory : tree.node? here = some .directory)
    (entry : isEntry name = true) (link : tree.node? (here ++ [name]) = some (.link target))
    (onward : place ∈ tree.wayFrom links (startOf target here) ((Path.mk target).pieces ++ rest)) :
    place ∈ tree.wayFrom (links + 1) here (name :: rest) := by
  simp only [isEntry, Bool.and_eq_true, Bool.not_eq_true', decide_eq_true_eq] at entry
  rw [wayFrom, directory]
  simp only [entry, link, Bool.false_eq_true, if_false]
  simp [onward]

theorem mem_wayFrom_entry {tree : FileTree} {links : Nat} {here place : Place} {name : String}
    {rest : List String} {node : Node} (directory : tree.node? here = some .directory)
    (entry : isEntry name = true) (found : tree.node? (here ++ [name]) = some node)
    (no_link : ∀ target, node ≠ .link target)
    (onward : place ∈ tree.wayFrom links (here ++ [name]) rest) :
    place ∈ tree.wayFrom links here (name :: rest) := by
  simp only [isEntry, Bool.and_eq_true, Bool.not_eq_true', decide_eq_true_eq] at entry
  rw [wayFrom, directory]
  simp only [entry, found, Bool.false_eq_true, if_false]
  simp [onward]

/-- A walk goes the same way through another tree that has the same nodes on it. -/
theorem walk_congr {tree other : FileTree} {final behind : Place → Except FileFault Place}
    {links : Nat} {here : Place} {names : List String}
    (agree : ∀ place ∈ tree.wayFrom links here names, other.node? place = tree.node? place) :
    other.walk final behind links here names = tree.walk final behind links here names := by
  have same := agree here (here_mem_wayFrom tree links here names)
  induction links, here, names using walk_induction tree with
  | done links here => rw [walk_done, walk_done]
  | stuck links here name rest stuck =>
    rw [walk, walk, same]
    cases node : tree.node? here with
    | none => rfl
    | some n => cases n <;> simp_all
  | blank links here name rest directory blank ih =>
    rw [walk_blank directory blank, walk_blank (same.trans directory) blank]
    refine ih (fun place onward => agree place ?_) same
    exact wayFrom_blank directory blank ▸ List.mem_cons_of_mem _ onward
  | up links here rest directory ih =>
    have onward : ∀ place ∈ tree.wayFrom links here.dropLast rest,
        other.node? place = tree.node? place := fun place onward =>
      agree place (wayFrom_up directory ▸ List.mem_cons_of_mem _ onward)
    rw [walk_up directory, walk_up (same.trans directory)]
    exact ih onward (onward _ (here_mem_wayFrom _ _ _ _))
  | missing links here name rest directory entry missing =>
    have next := agree _ (next_mem_wayFrom directory entry)
    rw [walk_missing directory entry missing,
      walk_missing (same.trans directory) entry (next.trans missing)]
  | tooMany here name rest target directory entry link =>
    have next := agree _ (next_mem_wayFrom directory entry)
    rw [walk_tooManyLinks directory entry link,
      walk_tooManyLinks (same.trans directory) entry (next.trans link)]
  | link links here name rest target directory entry link ih =>
    have next := agree _ (next_mem_wayFrom directory entry)
    have onward : ∀ place ∈ tree.wayFrom links (startOf target here)
        ((Path.mk target).pieces ++ rest), other.node? place = tree.node? place :=
      fun place onward => agree place (mem_wayFrom_link directory entry link onward)
    rw [walk_link directory entry link, walk_link (same.trans directory) entry (next.trans link)]
    exact ih onward (onward _ (here_mem_wayFrom _ _ _ _))
  | entry links here name rest node directory entry found no_link ih =>
    have next := agree _ (next_mem_wayFrom directory entry)
    have onward : ∀ place ∈ tree.wayFrom links (here ++ [name]) rest,
        other.node? place = tree.node? place :=
      fun place onward => agree place (mem_wayFrom_entry directory entry found no_link onward)
    rw [walk_entry directory entry found no_link,
      walk_entry (same.trans directory) entry (next.trans found) no_link]
    exact ih onward next

/-! ## The end of a walk -/

/-- Whether a walk that meets a missing last name ends there if it ends at all. -/
def EndsThere (final : Place → Except FileFault Place) : Prop :=
  ∀ place found, final place = .ok found → found = place

theorem endsThere_ok : EndsThere .ok := by
  intro place found h
  exact (Except.ok.inj h).symm

theorem endsThere_error (fault : FileFault) : EndsThere fun _ => .error fault := by
  intro place found h
  cases h

theorem eq_of_walk_missing {tree : FileTree} {final behind : Place → Except FileFault Place}
    {links : Nat} {here found : Place} {name : String} {rest : List String}
    (hf : EndsThere final) (hb : EndsThere behind) (directory : tree.node? here = some .directory)
    (entry : isEntry name = true) (missing : tree.node? (here ++ [name]) = none)
    (h : tree.walk final behind links here (name :: rest) = .ok found) :
    found = here ++ [name] ∧ rest.all (· = "") = true := by
  rw [walk_missing directory entry missing] at h
  split at h
  · rename_i last
    exact ⟨hf _ _ h, by simp [last]⟩
  · split at h
    · rename_i blanks
      exact ⟨hb _ _ h, blanks⟩
    · cases h

theorem mem_wayFrom_of_walk {tree : FileTree} {final behind : Place → Except FileFault Place}
    {links : Nat} {here found : Place} {names : List String} (hf : EndsThere final)
    (hb : EndsThere behind) (h : tree.walk final behind links here names = .ok found) :
    found ∈ tree.wayFrom links here names := by
  induction links, here, names using walk_induction tree with
  | done links here =>
    rw [walk_done] at h
    exact Except.ok.inj h ▸ here_mem_wayFrom tree links here []
  | stuck links here name rest stuck => exact absurd h (walk_stuck stuck)
  | blank links here name rest directory blank ih =>
    rw [walk_blank directory blank] at h
    rw [wayFrom_blank directory blank]
    exact List.mem_cons_of_mem _ (ih h)
  | up links here rest directory ih =>
    rw [walk_up directory] at h
    rw [wayFrom_up directory]
    exact List.mem_cons_of_mem _ (ih h)
  | missing links here name rest directory entry missing =>
    obtain ⟨rfl, -⟩ := eq_of_walk_missing hf hb directory entry missing h
    exact next_mem_wayFrom directory entry
  | tooMany here name rest target directory entry link =>
    rw [walk_tooManyLinks directory entry link] at h
    cases h
  | link links here name rest target directory entry link ih =>
    rw [walk_link directory entry link] at h
    exact mem_wayFrom_link directory entry link (ih h)
  | entry links here name rest node directory entry found no_link ih =>
    rw [walk_entry directory entry found no_link] at h
    exact mem_wayFrom_entry directory entry found no_link (ih h)

/-- A walk that ends at an existing node does not depend on what is done with missing ones. -/
theorem walk_of_exists {tree : FileTree} {final behind : Place → Except FileFault Place}
    {links : Nat} {here found : Place} {names : List String} (hf : EndsThere final)
    (hb : EndsThere behind) (h : tree.walk final behind links here names = .ok found)
    (is_some : tree.node? found ≠ none) (final' behind' : Place → Except FileFault Place) :
    tree.walk final' behind' links here names = .ok found := by
  induction links, here, names using walk_induction tree with
  | done links here => rwa [walk_done] at h ⊢
  | stuck links here name rest stuck => exact absurd h (walk_stuck stuck)
  | blank links here name rest directory blank ih =>
    rw [walk_blank directory blank] at h ⊢
    exact ih h
  | up links here rest directory ih =>
    rw [walk_up directory] at h ⊢
    exact ih h
  | missing links here name rest directory entry missing =>
    obtain ⟨rfl, -⟩ := eq_of_walk_missing hf hb directory entry missing h
    exact absurd missing is_some
  | tooMany here name rest target directory entry link =>
    rw [walk_tooManyLinks directory entry link] at h
    cases h
  | link links here name rest target directory entry link ih =>
    rw [walk_link directory entry link] at h ⊢
    exact ih h
  | entry links here name rest node directory entry found no_link ih =>
    rw [walk_entry directory entry found no_link] at h ⊢
    exact ih h

/-! ## Trees with the same directories and links -/

structure SameWays (tree other : FileTree) : Prop where
  working : other.working = tree.working
  passage : ∀ place, other.passage? place = tree.passage? place

namespace SameWays

variable {tree other third : FileTree}

theorem refl (tree : FileTree) : SameWays tree tree := ⟨rfl, fun _ => rfl⟩

theorem symm (same : SameWays tree other) : SameWays other tree :=
  ⟨same.working.symm, fun place => (same.passage place).symm⟩

theorem trans (first : SameWays tree other) (second : SameWays other third) :
    SameWays tree third :=
  ⟨second.working.trans first.working,
    fun place => (second.passage place).trans (first.passage place)⟩

end SameWays

theorem passage?_eq_directory {tree : FileTree} {place : Place} :
    tree.passage? place = some .directory ↔ tree.node? place = some .directory := by
  unfold passage?
  cases tree.node? place with
  | none => simp
  | some node => cases node <;> simp

theorem passage?_eq_link {tree : FileTree} {place : Place} {target : String} :
    tree.passage? place = some (.link target) ↔ tree.node? place = some (.link target) := by
  unfold passage?
  cases tree.node? place with
  | none => simp
  | some node => cases node <;> simp

theorem SameWays.directory {tree other : FileTree} {place : Place} (same : SameWays tree other)
    (directory : tree.node? place = some .directory) : other.node? place = some .directory := by
  rwa [← passage?_eq_directory, same.passage, passage?_eq_directory]

theorem SameWays.link {tree other : FileTree} {place : Place} {target : String}
    (same : SameWays tree other) (link : tree.node? place = some (.link target)) :
    other.node? place = some (.link target) := by
  rwa [← passage?_eq_link, same.passage, passage?_eq_link]

/-- A file that does not exist is made only where no slash follows its name. -/
def refuse : Place → Except FileFault Place := fun _ => .error .isDirectory

theorem walk_last {tree : FileTree} {links : Nat} {here : Place} {name : String}
    (directory : tree.node? here = some .directory) (entry : isEntry name = true)
    (no_link : ∀ target, tree.node? (here ++ [name]) ≠ some (.link target)) :
    tree.walk .ok refuse links here [name] = .ok (here ++ [name]) := by
  cases node : tree.node? (here ++ [name]) with
  | none =>
    rw [walk_missing directory entry node]
    rfl
  | some n =>
    rw [walk_entry directory entry node fun target is_link => no_link target (is_link ▸ node)]
    exact walk_done

theorem SameWays.walk {tree other : FileTree} {links : Nat} {here found : Place}
    {names : List String} (same : SameWays tree other)
    (h : tree.walk .ok refuse links here names = .ok found) :
    other.walk .ok refuse links here names = .ok found := by
  have no_link_of {place : Place} (no_link : ∀ target, tree.node? place ≠ some (.link target)) :
      ∀ target, other.node? place ≠ some (.link target) :=
    fun target link => no_link target (same.symm.link link)
  induction links, here, names using walk_induction tree with
  | done links here => rwa [walk_done] at h ⊢
  | stuck links here name rest stuck => exact absurd h (walk_stuck stuck)
  | blank links here name rest directory blank ih =>
    rw [walk_blank directory blank] at h
    rw [walk_blank (same.directory directory) blank]
    exact ih h
  | up links here rest directory ih =>
    rw [walk_up directory] at h
    rw [walk_up (same.directory directory)]
    exact ih h
  | missing links here name rest directory entry missing =>
    rw [walk_missing directory entry missing] at h
    split at h
    · rename_i last
      subst last
      rw [← Except.ok.inj h]
      exact walk_last (same.directory directory) entry (no_link_of (by simp [missing]))
    · split at h <;> cases h
  | tooMany here name rest target directory entry link =>
    rw [walk_tooManyLinks directory entry link] at h
    cases h
  | link links here name rest target directory entry link ih =>
    rw [walk_link directory entry link] at h
    rw [walk_link (same.directory directory) entry (same.link link)]
    exact ih h
  | entry links here name rest node directory entry found no_link ih =>
    rw [walk_entry directory entry found no_link] at h
    by_cases is_directory : node = .directory
    · subst is_directory
      rw [walk_entry (same.directory directory) entry (same.directory found) (by simp)]
      exact ih h
    · -- A walk that comes to a file ends there.
      obtain ⟨rfl, rfl⟩ := eq_of_walk_solid (by simpa [found] using is_directory) h
      refine walk_last (same.directory directory) entry (no_link_of fun target link => ?_)
      exact no_link target (Option.some.inj (found.symm.trans link))

/-! ## Paths -/

/-- Two trees with the same nodes on the way of a path through the first of them. -/
structure AgreeOn (tree other : FileTree) (path : Path) : Prop where
  working : other.working = tree.working
  nodes : ∀ place ∈ tree.way path, other.node? place = tree.node? place

namespace AgreeOn

variable {tree other : FileTree} {path : Path}

theorem locate (agree : AgreeOn tree other path) (final : Place → Except FileFault Place)
    (behind : Place → Except FileFault Place) :
    other.locate final path behind = tree.locate final path behind := by
  unfold FileTree.locate
  by_cases empty : path.text = ""
  · rw [if_pos empty, if_pos empty]
  · rw [if_neg empty, if_neg empty, agree.working]
    refine walk_congr fun place onward => agree.nodes place ?_
    rwa [way, if_neg empty]

theorem realPlace (agree : AgreeOn tree other path) : other.realPlace path = tree.realPlace path :=
  agree.locate _ _

end AgreeOn

theorem mem_way_of_locate {tree : FileTree} {final behind : Place → Except FileFault Place}
    {path : Path} {found : Place} (hf : EndsThere final) (hb : EndsThere behind)
    (h : tree.locate final path behind = .ok found) : found ∈ tree.way path := by
  unfold locate at h
  unfold way
  split at h
  · cases h
  · rename_i named
    rw [if_neg named]
    exact mem_wayFrom_of_walk hf hb h

namespace AgreeOn

variable {tree other : FileTree} {path : Path}

theorem node? (agree : AgreeOn tree other path) {place : Place}
    (h : tree.realPlace path = .ok place) : other.node? place = tree.node? place :=
  agree.nodes place (mem_way_of_locate (endsThere_error _) (endsThere_error _) h)

theorem at? (agree : AgreeOn tree other path) : other.at? path = tree.at? path := by
  unfold FileTree.at?
  rw [agree.realPlace]
  cases h : tree.realPlace path with
  | error fault => rfl
  | ok place => exact agree.node? h

theorem isFile (agree : AgreeOn tree other path) : other.isFile path = tree.isFile path := by
  rw [FileTree.isFile, FileTree.isFile, agree.at?]

end AgreeOn

theorem locate_of_exists {tree : FileTree} {final behind : Place → Except FileFault Place}
    {path : Path} {found : Place} (hf : EndsThere final) (hb : EndsThere behind)
    (h : tree.locate final path behind = .ok found) (is_some : tree.node? found ≠ none)
    (final' behind' : Place → Except FileFault Place) :
    tree.locate final' path behind' = .ok found := by
  unfold locate at h ⊢
  split at h
  · cases h
  · rename_i named
    rw [if_neg named]
    exact walk_of_exists hf hb h is_some final' behind'

theorem SameWays.locate {tree other : FileTree} {path : Path} {found : Place}
    (same : SameWays tree other) (h : tree.locate .ok path refuse = .ok found) :
    other.locate .ok path refuse = .ok found := by
  unfold FileTree.locate at h ⊢
  split at h
  · cases h
  · rename_i named
    rw [if_neg named, same.working]
    exact same.walk h

theorem isDirectory_iff {tree : FileTree} {path : Path} :
    tree.isDirectory path = true ↔
      ∃ place, tree.realPlace path = .ok place ∧ tree.node? place = some .directory := by
  unfold isDirectory at?
  cases h : tree.realPlace path with
  | error fault => simp
  | ok place => simp

theorem SameWays.isDirectory {tree other : FileTree} {path : Path} (same : SameWays tree other)
    (h : tree.isDirectory path = true) : other.isDirectory path = true := by
  obtain ⟨place, found, directory⟩ := isDirectory_iff.1 h
  have first : tree.locate .ok path refuse = .ok place :=
    locate_of_exists (endsThere_error _) (endsThere_error _) found (by simp [directory]) _ _
  have directory' := same.directory directory
  refine isDirectory_iff.2 ⟨place, ?_, directory'⟩
  exact locate_of_exists endsThere_ok (endsThere_error _) (same.locate first)
    (by simp [directory']) _ _

/-! ## Changing a place -/

theorem lookup_replaced_self {entries : List (Place × Node)} {place : Place} (node : Node)
    (known : (entries.lookup place).isSome = true) :
    (entries.map fun e => if e.1 = place then (place, node) else e).lookup place = some node := by
  induction entries with
  | nil => simp at known
  | cons e rest ih =>
    by_cases here : e.1 = place
    · simp [here]
    · have ne : (place == e.1) = false := by simpa using Ne.symm here
      rw [List.lookup_cons, ne] at known
      rw [List.map_cons, if_neg here, List.lookup_cons, ne]
      exact ih known

theorem lookup_replaced_of_ne (entries : List (Place × Node)) {place other : Place} (node : Node)
    (ne : other ≠ place) :
    (entries.map fun e => if e.1 = place then (place, node) else e).lookup other =
      entries.lookup other := by
  have unequal : (other == place) = false := by simpa using ne
  induction entries with
  | nil => rfl
  | cons e rest ih =>
    by_cases here : e.1 = place
    · rw [List.map_cons, if_pos here, List.lookup_cons, List.lookup_cons, ih, here, unequal]
    · rw [List.map_cons, if_neg here, List.lookup_cons, List.lookup_cons, ih]

theorem node?_put_self {tree : FileTree} {place : Place} (node : Node) (inner : place ≠ []) :
    (tree.put place node).node? place = some node := by
  unfold node? put
  rw [if_neg inner]
  split
  · rename_i known
    exact lookup_replaced_self node known
  · rename_i unknown
    rw [Bool.not_eq_true, Option.isSome_eq_false_iff, Option.isNone_iff_eq_none] at unknown
    rw [List.lookup_append, unknown, Option.none_or, List.lookup_cons_self]

theorem node?_put_of_ne (tree : FileTree) {place other : Place} (node : Node)
    (ne : other ≠ place) : (tree.put place node).node? other = tree.node? other := by
  have unequal : (other == place) = false := by simpa using ne
  unfold node? put
  split
  · rfl
  · split
    · exact lookup_replaced_of_ne tree.entries node ne
    · rw [List.lookup_append, List.lookup_cons, unequal, List.lookup_nil, Option.or_none]

theorem working_put (tree : FileTree) (place : Place) (node : Node) :
    (tree.put place node).working = tree.working := by
  unfold put
  split <;> rfl

/-! ## Writing -/

theorem receiver_eq_ok {tree : FileTree} {path : Path} {place : Place} :
    tree.receiver path = .ok place ↔
      tree.locate .ok path refuse = .ok place ∧ tree.passage? place = none := by
  change (tree.locate .ok path refuse >>= _) = _ ↔ _
  cases located : tree.locate .ok path refuse with
  | error fault => simp [bind, Except.bind]
  | ok found =>
    simp only [bind, Except.bind, Except.ok.injEq]
    cases free : tree.passage? found with
    | none =>
      simp only [Option.isSome_none, Bool.false_eq_true, if_false, Except.ok.injEq]
      exact ⟨fun same => ⟨same, same ▸ free⟩, And.left⟩
    | some node =>
      simp only [Option.isSome_some, if_true, reduceCtorEq, false_iff, not_and]
      rintro rfl
      simp [free]

theorem AgreeOn.receiver {tree other : FileTree} {path : Path} (agree : AgreeOn tree other path) :
    other.receiver path = tree.receiver path := by
  unfold FileTree.receiver
  rw [agree.locate]
  cases h : tree.locate .ok path fun _ => .error .isDirectory with
  | error fault => rfl
  | ok place =>
    simp only [bind, Except.bind]
    rw [passage?, passage?, agree.nodes place (mem_way_of_locate endsThere_ok (endsThere_error _) h)]

theorem SameWays.receiver {tree other : FileTree} {path : Path} {place : Place}
    (same : SameWays tree other) (h : tree.receiver path = .ok place) :
    other.receiver path = .ok place := by
  rw [receiver_eq_ok] at h ⊢
  exact ⟨same.locate h.1, (same.passage place).trans h.2⟩

theorem ne_nil_of_passage {tree : FileTree} {place : Place} (h : tree.passage? place = none) :
    place ≠ [] := by
  rintro rfl
  simp [passage?, node?] at h

theorem write_of_receiver {tree : FileTree} {path : Path} {place : Place}
    (h : tree.receiver path = .ok place) (text : String) :
    tree.write path text = .ok (tree.put place (.file text)) := by
  rw [write, h]
  rfl

theorem write_of_error {tree : FileTree} {path : Path} {fault : FileFault}
    (h : tree.receiver path = .error fault) (text : String) :
    tree.write path text = .error fault := by
  rw [write, h]
  rfl

/-- A file can be read by the path that it was written by. -/
theorem read_of_receiver {tree : FileTree} {path : Path} {place : Place} {text : String}
    (h : tree.receiver path = .ok place) (file : tree.node? place = some (.file text)) :
    tree.read path = .ok text := by
  have found : tree.realPlace path = .ok place :=
    locate_of_exists endsThere_ok (endsThere_error _) (receiver_eq_ok.1 h).1 (by simp [file]) _ _
  simp only [read, found, bind, Except.bind, file]

theorem sameWays_put {tree : FileTree} {place : Place} (free : tree.passage? place = none)
    (text : String) : SameWays tree (tree.put place (.file text)) := by
  refine ⟨working_put tree place _, fun other => ?_⟩
  by_cases same : other = place
  · rw [same, free, passage?, node?_put_self _ (ne_nil_of_passage free)]
  · rw [passage?, passage?, node?_put_of_ne tree _ same]

/-- `other` is `tree` after files were written at some of the places, and nothing else was done. -/
structure Filled (places : Place → Prop) (tree other : FileTree) : Prop
    extends SameWays tree other where
  kept : ∀ place, ¬places place → other.node? place = tree.node? place

namespace Filled

variable {places more : Place → Prop} {tree other third : FileTree}

theorem refl (places : Place → Prop) (tree : FileTree) : Filled places tree tree :=
  ⟨SameWays.refl tree, fun _ _ => rfl⟩

theorem trans (first : Filled places tree other) (second : Filled places other third) :
    Filled places tree third :=
  ⟨first.toSameWays.trans second.toSameWays,
    fun place h => (second.kept place h).trans (first.kept place h)⟩

theorem mono (h : Filled places tree other) (wider : ∀ place, places place → more place) :
    Filled more tree other :=
  ⟨h.toSameWays, fun place not_more => h.kept place fun in_places =>
    not_more (wider place in_places)⟩

theorem put {place : Place} (free : tree.passage? place = none) (allowed : places place)
    (text : String) : Filled places tree (tree.put place (.file text)) := by
  refine ⟨sameWays_put free text, fun other h => node?_put_of_ne tree _ fun same => h ?_⟩
  rwa [same]

theorem agreeOn {path : Path} (h : Filled places tree other)
    (apart : ∀ place ∈ tree.way path, ¬places place) : AgreeOn tree other path :=
  ⟨h.working, fun place onward => h.kept place (apart place onward)⟩

end Filled

/-! ## Making directories -/

theorem walk_put_directory {tree : FileTree} {final behind : Place → Except FileFault Place}
    {links : Nat} {here found : Place} {names : List String}
    (h : tree.walk .ok .ok links here names = .ok found) (free : tree.node? found = none) :
    (tree.put found .directory).walk final behind links here names = .ok found := by
  have inner : found ≠ [] := by
    rintro rfl
    simp [node?] at free
  have made : (tree.put found .directory).node? found = some .directory := node?_put_self _ inner
  have kept {place : Place} {node : Node} (is_node : tree.node? place = some node) :
      (tree.put found .directory).node? place = some node := by
    rw [← is_node]
    refine node?_put_of_ne tree _ fun same => ?_
    rw [same, free] at is_node
    cases is_node
  induction links, here, names using walk_induction tree with
  | done links here => rwa [walk_done] at h ⊢
  | stuck links here name rest stuck => exact absurd h (walk_stuck stuck)
  | blank links here name rest directory blank ih =>
    rw [walk_blank directory blank] at h
    rw [walk_blank (kept directory) blank]
    exact ih h
  | up links here rest directory ih =>
    rw [walk_up directory] at h
    rw [walk_up (kept directory)]
    exact ih h
  | missing links here name rest directory entry missing =>
    obtain ⟨rfl, blanks⟩ :=
      eq_of_walk_missing endsThere_ok endsThere_ok directory entry missing h
    rw [walk_entry (kept directory) entry made (by simp)]
    exact walk_blanks made blanks
  | tooMany here name rest target directory entry link =>
    rw [walk_tooManyLinks directory entry link] at h
    cases h
  | link links here name rest target directory entry link ih =>
    rw [walk_link directory entry link] at h
    rw [walk_link (kept directory) entry (kept link)]
    exact ih h
  | entry links here name rest node directory entry found no_link ih =>
    rw [walk_entry directory entry found no_link] at h
    rw [walk_entry (kept directory) entry (kept found) no_link]
    exact ih h

theorem isDirectory_of_createDirectory {tree other : FileTree} {path : Path}
    (h : tree.createDirectory path = .ok other) : other.isDirectory path = true := by
  unfold createDirectory at h
  split at h
  · cases h
  · cases located : tree.locate .ok path with
    | error fault => simp [located, bind, Except.bind] at h
    | ok place =>
      simp only [located, bind, Except.bind] at h
      split at h
      · cases h
      · rename_i free
        rw [Option.not_isSome_iff_eq_none] at free
        rw [← Except.ok.inj h]
        have inner : place ≠ [] := by
          rintro rfl
          simp [node?] at free
        refine isDirectory_iff.2 ⟨place, ?_, node?_put_self _ inner⟩
        unfold locate at located
        unfold realPlace locate
        split at located
        · cases located
        · rename_i named
          rw [if_neg named, working_put]
          exact walk_put_directory located free

/-- A directory that has been made, with those above it, is there; the empty path names none. -/
theorem isDirectory_of_makeAll {tree other : FileTree} {path : Path}
    (h : tree.makeAll path = (other, none)) :
    path.text = "" ∧ other = tree ∨ other.isDirectory path = true := by
  unfold makeAll createDirectories at h
  split at h
  · rename_i unnamed
    exact .inl ⟨unnamed, (congrArg Prod.fst h).symm⟩
  · right
    have checked {made : FileTree} {fault : FileFault}
        (h : (if made.isDirectory path then (made, none) else (made, some fault)) =
          (other, none)) : other.isDirectory path = true := by
      split at h
      · rename_i directory
        obtain rfl : made = other := congrArg Prod.fst h
        exact directory
      · cases h
    split at h
    · rename_i made created
      obtain rfl : made = other := congrArg Prod.fst h
      exact isDirectory_of_createDirectory created
    · split at h
      · cases h
      · split at h
        · cases h
        · split at h
          · rename_i made created
            obtain rfl : made = other := congrArg Prod.fst h
            exact isDirectory_of_createDirectory created
          · exact checked h
    · exact checked h

theorem working_createDirectory {tree other : FileTree} {path : Path}
    (h : tree.createDirectory path = .ok other) : other.working = tree.working := by
  unfold createDirectory at h
  split at h
  · cases h
  · cases located : tree.locate .ok path with
    | error fault => simp [located, bind, Except.bind] at h
    | ok place =>
      simp only [located, bind, Except.bind] at h
      split at h
      · cases h
      · rw [← Except.ok.inj h, working_put]

theorem working_createDirectories (tree : FileTree) (path : Path) (steps : Nat) :
    (tree.createDirectories path steps).1.working = tree.working := by
  induction steps generalizing tree path with
  | zero => rfl
  | succ steps ih =>
    have checked (made : FileTree) (fault : FileFault) :
        (if made.isDirectory path then (made, none) else (made, some fault)).1.working =
          made.working := by
      split <;> rfl
    unfold createDirectories
    split
    · rfl
    · split
      · rename_i made created
        exact working_createDirectory created
      · split
        · rfl
        · rename_i parent _
          have above := ih tree parent
          split
          · rename_i made fault pair
            rwa [pair] at above
          · rename_i made pair
            rw [pair] at above
            rw [← above]
            split
            · rename_i last created
              exact working_createDirectory created
            · exact checked made _
      · exact checked tree _

theorem working_makeAll (tree : FileTree) (path : Path) :
    (tree.makeAll path).1.working = tree.working :=
  working_createDirectories tree path _

theorem createDirectory_of_isDirectory {tree : FileTree} {path : Path}
    (h : tree.isDirectory path = true) : tree.createDirectory path = .error .exists := by
  obtain ⟨place, found, directory⟩ := isDirectory_iff.1 h
  unfold createDirectory
  split
  · rfl
  · rw [locate_of_exists (endsThere_error _) (endsThere_error _) found (by simp [directory]) .ok .ok]
    simp [bind, Except.bind, directory]

theorem makeAll_of_isDirectory {tree : FileTree} {path : Path} (h : tree.isDirectory path = true) :
    tree.makeAll path = (tree, none) := by
  unfold makeAll createDirectories
  rw [createDirectory_of_isDirectory h]
  simp [h]

theorem makeAll_unnamed {tree : FileTree} {path : Path} (unnamed : path.text = "") :
    tree.makeAll path = (tree, none) := by
  unfold makeAll createDirectories
  rw [if_pos unnamed]

/-- A directory is made once: nothing is left to do while the directories and links stay. -/
theorem makeAll_again {tree made other : FileTree} {path : Path}
    (h : tree.makeAll path = (made, none)) (same : SameWays made other) :
    other.makeAll path = (other, none) := by
  obtain ⟨unnamed, -⟩ | directory := isDirectory_of_makeAll h
  · exact makeAll_unnamed unnamed
  · exact makeAll_of_isDirectory (same.isDirectory directory)

end Stencil.FileTree
