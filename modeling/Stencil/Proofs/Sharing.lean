import Stencil.Proofs.Recovery
import Stencil.Proofs.Structure

/-!
# Documents that share a spec

A script learns of a spec only what it asks for.  A run that misses no name takes the same course
with a wider spec, which has all the fields of the first one with their values; only the header,
which is the text of a whole spec, could tell them apart.  Fields that are not read therefore do not
matter, and two documents that are run on one spec in turn give the same texts in either order: the
run that gives a text misses nothing, whatever placeholders the other document left behind.
-/

namespace Stencil

open Script

namespace Script.Inquiry

variable {α σ : Type}

/-- Whether the header is asked for on the way to the result. -/
def asksHeader (answerer : Answerer σ) : Inquiry α → σ → Bool
  | done _, _ => false
  | field name next, s =>
    (next (answerer.field name s).1).asksHeader answerer (answerer.field name s).2
  | header _, _ => true

end Script.Inquiry

/-! ## Wider specs -/

namespace Spec

/-- Every field of `narrow` is a field of `wide`, with the same value. -/
def Within (narrow wide : Spec) : Prop :=
  ∀ name value, narrow.get? name = some value → wide.get? name = some value

variable {spec narrow wide : Spec} {names more : List String}

theorem within_set {name : String} (absent : spec.get? name = none) (value : Json) :
    spec.Within (spec.set name value) := by
  intro other found has
  have ne : name ≠ other := by
    rintro rfl
    simp [absent] at has
  rw [get?_set, if_neg ne, has]

theorem Extends.within (h : spec.Extends names wide) : spec.Within wide :=
  fun _ _ has => h.get?_of_some has

/-- Two extensions of a spec lie within a third one. -/
theorem Extends.exists_join {left right : Spec} (h : spec.Extends names left)
    (h' : spec.Extends more right) : ∃ wide, left.Within wide ∧ right.Within wide := by
  -- The right one takes up those names of the left one that it lacks.
  let new := names.filter fun name => (right.get? name).isNone
  have nodup : new.Nodup := h.nodup.filter _
  have absent : ∀ name ∈ new, right.get? name = none := by simp [new]
  have grown := Extends.foldl_placehold nodup absent
  refine ⟨new.foldl Spec.placehold right, ?_, grown.within⟩
  intro name value has
  rw [h.get?] at has
  by_cases added : name ∈ names
  · rw [if_pos added] at has
    rw [grown.get?, ← has]
    by_cases lacking : right.get? name = none
    · rw [if_pos (by simp [new, added, lacking])]
    · rw [if_neg (by simp [new, lacking])]
      -- The right one has the name as a placeholder of its own.
      by_cases own : name ∈ more
      · rw [h'.get?, if_pos own]
      · rw [h'.get?, if_neg own, h.absent name added] at lacking
        exact absurd rfl lacking
  · rw [if_neg added] at has
    exact grown.within name value (h'.within name value has)

end Spec

/-! ## Runs with a wider spec -/

namespace Resolver

/-- The resolver `r'` knows all that `r` knows, and it has missed nothing. -/
structure Wider (r r' : Resolver) : Prop where
  sound : r.Sound
  sound' : r'.Sound
  spec : r.spec.Within r'.spec
  deferred : r'.deferred = r.deferred
  unrecorded : r'.undefined = []

theorem wider_start {narrow wide : Spec} (h : narrow.Within wide) (deferred : Bool) :
    Wider (start narrow deferred) (start wide deferred) :=
  ⟨sound_start narrow deferred, sound_start wide deferred, h, rfl, rfl⟩

variable {r r' : Resolver} {α : Type}

theorem Wider.meaning? (h : Wider r r') {name : String} {json : Json}
    (known : r.meaning? name = some json) : r'.meaning? name = some json := by
  unfold Resolver.meaning? at known ⊢
  by_cases mode : name = modeName
  · rw [if_pos mode] at known ⊢
    rwa [h.deferred]
  · rw [if_neg mode] at known ⊢
    exact h.spec name json known

/-- A name that was missed stays recorded to the end. -/
theorem undefined_run_ne_nil (q : Inquiry α) (sound : r.Sound) (recorded : r.undefined ≠ []) :
    (q.run answerer r).2.undefined ≠ [] := by
  obtain ⟨names, later⟩ := run_later q sound
  rw [later.undefined, noteAll_eq]
  exact List.append_ne_nil_of_left_ne_nil recorded _

theorem Wider.resolve (h : Wider r r') {name : String} {json : Json}
    (known : r.meaning? name = some json) :
    (r'.resolve name).1 = (r.resolve name).1 ∧ Wider (r.resolve name).2 (r'.resolve name).2 := by
  obtain ⟨answer, later⟩ := resolve_spec h.sound name
  obtain ⟨answer', later'⟩ := resolve_spec h.sound' name
  rw [known] at answer
  rw [h.meaning? known] at answer' later'
  refine ⟨answer'.trans answer.symm, later.sound, later'.sound, ?_, ?_, ?_⟩
  · rw [later.spec, later'.spec]
    exact h.spec
  · rw [later.deferred, later'.deferred, h.deferred]
  · rw [later'.undefined, h.unrecorded]
    rfl

/--
Where nothing is missed, a wider resolver is asked the same questions and gives the same answers, up
to the header.
-/
theorem Wider.run (q : Inquiry α) (h : Wider r r')
    (complete : (q.run answerer r).2.undefined = []) :
    q.asksHeader answerer r' = q.asksHeader answerer r ∧
      (q.asksHeader answerer r = false →
        (q.run answerer r').1 = (q.run answerer r).1 ∧
          Wider (q.run answerer r).2 (q.run answerer r').2) := by
  induction q generalizing r r' with
  | done a => exact ⟨rfl, fun _ => ⟨rfl, h⟩⟩
  | field name next ih =>
    rw [run_field] at complete
    cases known : r.meaning? name with
    | none =>
      -- The name would be recorded.
      obtain ⟨-, later⟩ := resolve_spec h.sound name
      rw [known] at later
      have recorded : name ∈ (r.resolve name).2.undefined := by
        rw [later.undefined]
        exact mem_note.2 (.inr rfl)
      exact absurd complete
        (undefined_run_ne_nil _ later.sound (List.ne_nil_of_mem recorded))
    | some json =>
      obtain ⟨answer, wider⟩ := h.resolve known
      rw [run_field, run_field]
      change (next (r'.resolve name).1).asksHeader answerer (r'.resolve name).2 =
          (next (r.resolve name).1).asksHeader answerer (r.resolve name).2 ∧
        ((next (r.resolve name).1).asksHeader answerer (r.resolve name).2 = false → _)
      rw [answer]
      exact ih _ wider complete
  | header next ih => exact ⟨rfl, fun quiet => by simp [Inquiry.asksHeader] at quiet⟩

end Resolver

namespace Emission

variable {program : Script.Program} {options : Options} {narrow wide : Spec} {result : Attempt}

/-- Whether a run of a script asks for the header of the spec. -/
def callsHeader (program : Script.Program) (options : Options) (spec : Spec) : Bool :=
  (program.evaluate options.maxOperations).asksHeader Resolver.answerer
    (Resolver.start spec options.deferred)

theorem undefined_of_discovered {r : Resolver} (found : discovered result r = []) :
    r.undefined = [] := by
  rcases discovered_cases result r with eq | ⟨name, eq, -, -⟩
  · exact eq.symm.trans found
  · simp [eq] at found

theorem discovered_wider {r r' : Resolver} (h : Resolver.Wider r r')
    (found : discovered result r = []) : discovered result r' = [] := by
  have nothing := undefined_of_discovered found
  cases result with
  | output text => exact h.unrecorded
  | unfinished => exact h.unrecorded
  | failed failure =>
    simp only [discovered, Resolver.takeUndefined, nothing, h.unrecorded] at found ⊢
    cases named : undefinedVariable? failure with
    | none => rfl
    | some name =>
      -- The script did not know the name, although the narrow spec has the field.
      have known : r.spec.has name = true := by simpa [named] using found
      obtain ⟨value, has⟩ := Option.isSome_iff_exists.1 known
      simp [Spec.has, h.spec name value has]

theorem attempt_wider {r r' : Resolver} (h : Resolver.Wider r r')
    (complete : (attempt program options r).2.undefined = [])
    (quiet : (program.evaluate options.maxOperations).asksHeader Resolver.answerer r = false) :
    (attempt program options r').1 = (attempt program options r).1 ∧
      Resolver.Wider (attempt program options r).2 (attempt program options r').2 := by
  obtain ⟨-, alike⟩ := h.run (program.evaluate options.maxOperations) complete
  obtain ⟨same, wider⟩ := alike quiet
  exact ⟨congrArg Attempt.ofEnding same, wider⟩

/-- A script that completes asks for the header of every wider spec, or of none. -/
theorem Completes.callsHeader (h : Completes program options narrow result)
    (within : narrow.Within wide) :
    callsHeader program options wide = Emission.callsHeader program options narrow := by
  obtain ⟨r, run, found⟩ := h
  have complete : (attempt program options (Resolver.start narrow options.deferred)).2.undefined =
      [] := by
    rw [run]
    exact undefined_of_discovered found
  exact ((Resolver.wider_start within options.deferred).run _ complete).1

/-- A script that completes does so with every wider spec, unless it asks for the header. -/
theorem Completes.wider (h : Completes program options narrow result)
    (quiet : Emission.callsHeader program options narrow = false) (within : narrow.Within wide) :
    Completes program options wide result := by
  obtain ⟨r, run, found⟩ := h
  have complete : (attempt program options (Resolver.start narrow options.deferred)).2.undefined =
      [] := by
    rw [run]
    exact undefined_of_discovered found
  obtain ⟨same, wider⟩ :=
    attempt_wider (Resolver.wider_start within options.deferred) complete quiet
  rw [run] at same wider
  exact ⟨(attempt program options (Resolver.start wide options.deferred)).2, Prod.ext same rfl,
    discovered_wider wider found⟩

theorem Completes.unique {result' : Attempt} (h : Completes program options narrow result)
    (h' : Completes program options narrow result') : result' = result := by
  obtain ⟨r, run, -⟩ := h
  obtain ⟨r', run', -⟩ := h'
  exact congrArg Prod.fst (run'.symm.trans run)

/-- Of two specs with which a script completes, neither changes the result. -/
theorem Completes.agree {left right : Spec} {result' : Attempt}
    (h : Completes program options left result)
    (quiet : Emission.callsHeader program options left = false)
    (h' : Completes program options right result')
    (join : ∃ wide, left.Within wide ∧ right.Within wide) : result' = result := by
  obtain ⟨wide, within, within'⟩ := join
  have quiet' : Emission.callsHeader program options right = false := by
    rw [← h'.callsHeader within', h.callsHeader within, quiet]
  exact (h.wider quiet within).unique (h'.wider quiet' within')

/-- A text that was given by a single run was given by a complete one. -/
theorem Recovers.completes_of_once {emitter : Emitter} {missing : List String} {attempts : Nat}
    {r : Resolver} {outcome : Except Fault Emission × Spec} {emission : Emission}
    (h : Recovers emitter program options 1 missing attempts r outcome) (fresh : Fresh r)
    (mode : r.deferred = options.deferred) (ran : outcome.1 = .ok emission) :
    ∃ result, Completes program options r.spec result := by
  cases h with
  | clean run found => exact ⟨_, fresh.completes mode run found⟩
  | endless run found => cases ran
  | exhausted run ended found beyond => cases ran
  | again run ended found few rest => exact absurd rest.pos (Nat.lt_irrefl 0)

/-- Runs that come to an end and do not give up. -/
def Settles : Except Fault Emission → Prop
  | .error .unfinished => False
  | .error (.retryExhausted _ _) => False
  | _ => True

theorem conclude_eq_ok {emitter : Emitter} {names : List String} {count : Nat}
    {emission : Emission} (h : conclude emitter names count result = .ok emission) :
    result = .output emission.output := by
  cases result with
  | output text =>
    obtain rfl := Except.ok.inj h
    rfl
  | failed failure => cases h
  | unfinished => cases h

end Emission

namespace Emitter

open Emission (Completes Settles)

variable {emitter : Emitter} {program : Script.Program} {options : Emission.Options} {spec : Spec}

/-- Whether the first run of an emitter with a spec asks for the header of the spec. -/
def callsHeader (emitter : Emitter) (options : Emission.Options) (spec : Spec) : Bool :=
  match emitter.program with
  | .error _ => false
  | .ok program => Emission.callsHeader program options spec

theorem callsHeader_of_program (parsed : emitter.program = .ok program) :
    emitter.callsHeader options spec = Emission.callsHeader program options spec := by
  rw [callsHeader, parsed]

/-- The last run of an emitter is complete with the spec that is left behind. -/
theorem run_completes (parsed : emitter.program = .ok program)
    (settles : Settles (emitter.run options spec).1) :
    ∃ result names count, Completes program options (emitter.run options spec).2 result ∧
      (emitter.run options spec).1 = Emission.conclude emitter names count result := by
  have recovers := run_recovers emitter options spec
  rw [parsed] at recovers
  obtain ⟨runs, added, -, recovers, -⟩ := recovers
  rcases recovers.settled (Emission.fresh_start spec options.deferred) rfl with
    endless | ⟨count, names, exhausted⟩ | complete
  · simp [endless, Settles] at settles
  · simp [exhausted, Settles] at settles
  · exact complete

theorem run_of_completes {result : Emission.Attempt} (parsed : emitter.program = .ok program)
    (complete : Completes program options spec result) :
    emitter.run options spec = (Emission.conclude emitter [] 1 result, spec) := by
  rw [run, parsed]
  exact complete.recover

theorem exists_program {emission : Emission}
    (ran : (emitter.run options spec).1 = .ok emission) :
    ∃ program, emitter.program = .ok program := by
  cases parsed : emitter.program with
  | error fault =>
    rw [run, parsed] at ran
    cases ran
  | ok program => exact ⟨program, rfl⟩

theorem program_ne_evaluation (message : String) :
    emitter.program ≠ .error (.evaluation message) := by
  unfold Emitter.program syntaxFault
  split
  · split <;> simp
  · simp

/-- A run that gives a text without new fields, or fails and defines none, is complete. -/
theorem exists_completes
    (complete : (∃ emission, (emitter.run options spec).1 = .ok emission ∧ emission.missing = []) ∨
      ∃ message, emitter.run options spec = (.error (.evaluation message), spec)) :
    ∃ program result, emitter.program = .ok program ∧ Completes program options spec result := by
  cases parsed : emitter.program with
  | error fault =>
    rw [run, parsed] at complete
    rcases complete with ⟨emission, ran, -⟩ | ⟨message, ran⟩
    · cases ran
    · obtain rfl := Except.error.inj (congrArg Prod.fst ran)
      exact absurd parsed (program_ne_evaluation message)
  | ok program =>
    have recovers := run_recovers emitter options spec
    rw [parsed] at recovers
    obtain ⟨runs, added, -, recovers, -, told⟩ := recovers
    rcases complete with ⟨emission, ran, nothing⟩ | ⟨message, ran⟩
    · rw [ran] at told
      obtain ⟨-, -, count, -, once⟩ := told
      obtain rfl : runs = 1 := count ▸ once.2 nothing
      obtain ⟨result, complete⟩ :=
        recovers.completes_of_once (Emission.fresh_start spec options.deferred) rfl ran
      exact ⟨program, result, rfl, complete⟩
    · obtain ⟨result, names, count, complete, -⟩ := run_completes parsed (by rw [ran]; trivial)
      rw [ran] at complete
      exact ⟨program, result, rfl, complete⟩

/--
A field that is not read does not matter.  Where the run of an emitter misses no name, be it that it
gives a text or that the script fails, a further field changes nothing about it, and the spec with
this field stays as it is.
-/
theorem run_of_unread {name : String} (absent : spec.get? name = none) (value : Json)
    (quiet : emitter.callsHeader options spec = false)
    (complete : (∃ emission, (emitter.run options spec).1 = .ok emission ∧ emission.missing = []) ∨
      ∃ message, emitter.run options spec = (.error (.evaluation message), spec)) :
    emitter.run options (spec.set name value) =
        ((emitter.run options spec).1, spec.set name value) ∧
      ∀ emission, (emitter.run options spec).1 = .ok emission →
        emission.missing = [] ∧ emission.attempts = 1 := by
  obtain ⟨program, result, parsed, complete⟩ := exists_completes complete
  rw [callsHeader_of_program parsed] at quiet
  have wider := complete.wider quiet (Spec.within_set absent value)
  rw [run_of_completes parsed complete, run_of_completes parsed wider]
  refine ⟨rfl, fun emission ran => ?_⟩
  cases result with
  | output text =>
    obtain rfl := Except.ok.inj ran
    exact ⟨rfl, rfl⟩
  | failed failure => cases ran
  | unfinished => cases ran

theorem run_of_unread_of_guard :
    ∃ emitter : Emitter, ∃ spec : Spec,
      emitter.lines = [⟨"if a == \"\" \x7b b \x7d", none⟩, ⟨"a", none⟩] ∧
      spec.get? "b" = none ∧ emitter.callsHeader ⟨5, false, 0⟩ spec = false ∧
      (emitter.run ⟨5, false, 0⟩ spec).1 = .ok ⟨"x", [], 1⟩ ∧
      emitter.run ⟨5, false, 0⟩ (spec.set "b" (.integer 1)) =
        (.ok ⟨"x", [], 1⟩, spec.set "b" (.integer 1)) := by
  have absent : Spec.get? ⟨[("a", .string "x")]⟩ "b" = none := by decide
  have quiet : callsHeader ⟨⟨"d"⟩, [⟨"if a == \"\" \x7b b \x7d", none⟩, ⟨"a", none⟩], [], []⟩
      ⟨5, false, 0⟩ ⟨[("a", .string "x")]⟩ = false := by
    rw [callsHeader, Emitter.program, Script.parse, Script.Parser.run, tokens_source]
    decide +kernel
  have ran : (run ⟨⟨"d"⟩, [⟨"if a == \"\" \x7b b \x7d", none⟩, ⟨"a", none⟩], [], []⟩
      ⟨5, false, 0⟩ ⟨[("a", .string "x")]⟩).1 = .ok ⟨"x", [], 1⟩ := by
    apply Expansion.ok_of_toOption
    rw [run, Emitter.program, Script.parse, Script.Parser.run, tokens_source]
    decide +kernel
  have same := (run_of_unread absent (.integer 1) quiet (.inl ⟨_, ran, rfl⟩)).1
  exact ⟨_, _, rfl, absent, quiet, ran, same.trans (by rw [ran])⟩

/-- With two specs that grew out of one, an emitter that is run to a text gives the same text. -/
theorem run_agree {left right : Spec} {emission : Emission}
    (ran : (emitter.run options left).1 = .ok emission)
    (settles : Settles (emitter.run options right).1)
    (quiet : emitter.callsHeader options (emitter.run options left).2 = false)
    (join : ∃ wide, (emitter.run options left).2.Within wide ∧
      (emitter.run options right).2.Within wide) :
    ∃ emission', (emitter.run options right).1 = .ok emission' ∧
      emission'.output = emission.output := by
  obtain ⟨program, parsed⟩ := exists_program ran
  obtain ⟨result, names, count, complete, told⟩ := run_completes parsed (by rw [ran]; trivial)
  obtain ⟨result', names', count', complete', told'⟩ := run_completes parsed settles
  rw [callsHeader_of_program parsed] at quiet
  obtain rfl := complete.agree quiet complete' join
  obtain rfl := Emission.conclude_eq_ok (told.symm.trans ran)
  exact ⟨_, told', rfl⟩

end Emitter

end Stencil
