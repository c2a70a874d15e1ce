import Stencil.Proofs.Delivery

/-!
# What an observer is told

An observer of a preprocessor is told of one document after the other.  Of each it is told the
start, then, if the document can be read and compiled, the files that were spliced in and those that
were refused, and at last the success or the failure: names that were missing are told of a success
only.  This holds whatever earlier generations made of the spec and of the files.
-/

namespace Stencil

namespace Generation

/-! ## Sessions -/

/-- What is done while a preprocessor is in use. -/
inductive Step where
  | process (path : Path)
  | compile (path : Path)
  /-- Others change the files or the spec. -/
  | change (tree : FileTree) (spec : Spec)

inductive Reply where
  | generated (result : Except Fault Emission)
  | compiled (result : Except Fault Emitter)
  | done

/-- The files, the spec that is shared by all calls, and what the observer was told so far. -/
structure Session where
  tree : FileTree
  spec : Spec
  events : List Event

namespace Session

def step (config : Config) (s : Session) : Step → Reply × Session
  | .process path =>
    let g := ofFile config s.tree s.spec path
    (.generated g.result, ⟨g.tree, g.spec, s.events ++ g.events⟩)
  | .compile path => (.compiled (compileFile config s.tree s.spec path), s)
  | .change tree spec => (.done, { s with tree, spec })

def after (config : Config) (s : Session) (steps : List Step) : Session :=
  steps.foldl (fun s a => (s.step config a).2) s

/-- Every step with the session that it found and the reply that it got. -/
def history (config : Config) (s : Session) : List Step → List (Session × Step × Reply)
  | [] => []
  | a :: rest => (s, a, (s.step config a).1) :: history config (s.step config a).2 rest

end Session

/-! ## Blocks of events -/

/-- A document is read and compiled, and its expansion meets the directives `met`. -/
def Compiles (config : Config) (tree : FileTree) (spec : Spec) (path : Path) (met : List Met) :
    Prop :=
  ∃ document emitter rounds expansion,
    Document.read tree path = .ok document ∧ compileFile config tree spec path = .ok emitter ∧
    Expansion.Expands tree spec rounds [tree.canonical path]
      (document.lines ++ [Emitter.closing document]) met (.ok expansion) ∧
    emitter.includes = Met.accepted met ∧ emitter.refused = Met.refused met

def includesTold (path : Path) (met : List Met) : List Event :=
  (Met.accepted met).map (.include path · true) ++ (Met.refused met).map (.include path · false)

/-- What an observer is told of one step. -/
inductive Told (config : Config) (s : Session) : Step → Reply → List Event → Prop
  | unread {path fault} (stopped : compileFile config s.tree s.spec path = .error fault) :
      Told config s (.process path) (.generated (.error fault)) [.start path, .failure path fault]
  | failed {path met fault} (compiles : Compiles config s.tree s.spec path met) :
      Told config s (.process path) (.generated (.error fault))
        (.start path :: includesTold path met ++ [.failure path fault])
  | complete {path met generated} (compiles : Compiles config s.tree s.spec path met)
      (none_missing : generated.missing = []) :
      Told config s (.process path) (.generated (.ok generated))
        (.start path :: includesTold path met ++ [.success path generated])
  | defaulted {path met generated} (compiles : Compiles config s.tree s.spec path met)
      (some_missing : generated.missing ≠ []) :
      Told config s (.process path) (.generated (.ok generated))
        (.start path :: includesTold path met ++
          [.missing path generated.missing, .success path generated])
  | compiled {path} :
      Told config s (.compile path) (.compiled (compileFile config s.tree s.spec path)) []
  | changed {tree spec} : Told config s (.change tree spec) .done []

variable {config : Config} {tree : FileTree} {spec : Spec} {path : Path} {emitter : Emitter}

theorem exists_compiles (compiled : compileFile config tree spec path = .ok emitter) :
    ∃ met, Compiles config tree spec path met ∧ includeEvents emitter = includesTold path met := by
  obtain ⟨document, e, read, expanded, about, spliced, left_out⟩ := compileFile_eq_ok compiled
  obtain ⟨rounds, met, -, expands⟩ := @Expansion.expands_ofLines tree spec
    [tree.canonical path] (document.lines ++ [Emitter.closing document])
  rw [expanded] at expands
  obtain ⟨included, refused, -⟩ := expands.tells
  have accepts := spliced.trans included
  have refuses := left_out.trans refused
  refine ⟨met, ⟨document, emitter, rounds, e, read, compiled, expands, accepts, refuses⟩, ?_⟩
  rw [includeEvents, includesTold, about, accepts, refuses]

/-- A compiled document is told to the end, whether it can be dumped and run or not. -/
theorem events_ofFile (compiled : compileFile config tree spec path = .ok emitter) :
    (ofFile config tree spec path).events =
      .start path :: includeEvents emitter ++
        conclusion path (ofFile config tree spec path).result := by
  simp only [ofFile, compiled]

theorem told_step (s : Session) (a : Step) :
    ∃ events, Told config s a (s.step config a).1 events ∧
      (s.step config a).2.events = s.events ++ events := by
  cases a with
  | compile path => exact ⟨[], .compiled, (List.append_nil _).symm⟩
  | change tree spec => exact ⟨[], .changed, (List.append_nil _).symm⟩
  | process path =>
    refine ⟨(ofFile config s.tree s.spec path).events, ?_, rfl⟩
    change Told config s (.process path) (.generated (ofFile config s.tree s.spec path).result) _
    cases compiled : compileFile config s.tree s.spec path with
    | error fault =>
      simp only [ofFile, compiled]
      exact .unread compiled
    | ok emitter =>
      obtain ⟨met, compiles, includes⟩ := exists_compiles compiled
      rw [events_ofFile compiled, includes]
      cases (ofFile config s.tree s.spec path).result with
      | error fault => exact .failed compiles
      | ok generated =>
        cases missing : generated.missing with
        | nil =>
          have block := @Told.complete config s path met generated compiles missing
          simpa [conclusion, missing] using block
        | cons name more =>
          have block := @Told.defaulted config s path met generated compiles (by simp [missing])
          simpa [conclusion, missing] using block

/--
Whatever documents are processed and compiled in between, and whatever changes besides, an observer
is told one block of events of every step, one behind the other, and each is as the reply to its
step asks.
-/
theorem told_history (config : Config) (s : Session) (steps : List Step) :
    ∃ blocks : List (List Event),
      List.Forall₂ (fun entry events => Told config entry.1 entry.2.1 entry.2.2 events)
        (s.history config steps) blocks ∧
      (s.after config steps).events = s.events ++ blocks.flatten := by
  induction steps generalizing s with
  | nil => exact ⟨[], .nil, (List.append_nil _).symm⟩
  | cons a rest ih =>
    obtain ⟨events, told, grown⟩ := @told_step config s a
    obtain ⟨blocks, later, all⟩ := ih (s.step config a).2
    refine ⟨events :: blocks, .cons told later, ?_⟩
    rw [List.flatten_cons, ← List.append_assoc, ← grown, ← all]
    rfl

end Generation

end Stencil
