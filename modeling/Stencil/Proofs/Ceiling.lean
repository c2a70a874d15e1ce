import Mathlib.Control.Monad.Basic
import Stencil.Proofs.Recovery

/-!
# Ceilings

The ceiling on the count of fields that may be defined has no part in a single run of a script, nor
in what is found undefined.  Under a higher ceiling the same runs follow one another, up to the one
behind which the lower ceiling gives up: there the higher one gives up too, or goes on.
-/

namespace Stencil

open Script

namespace Emission

variable {emitter : Emitter} {program : Script.Program} {options : Options} {ceiling attempts : Nat}
  {missing names more : List String} {name : String} {r r' : Resolver} {result : Attempt}

/-! ## What follows a run -/

theorem recover_of_endless (run : attempt program options r = (.unfinished, r'))
    (found : discovered .unfinished r' = name :: more) :
    recover emitter program options missing attempts r = (.error .unfinished, r'.spec) := by
  rw [recover, run]
  simp only [found]
  rfl

theorem recover_of_beyond (run : attempt program options r = (result, r'))
    (ended : result ≠ .unfinished) (found : discovered result r' = name :: more)
    (beyond : options.maxAttempts < (missing ++ name :: more).length) :
    recover emitter program options missing attempts r =
      (.error (.retryExhausted (attempts + 1) (missing ++ name :: more)),
        (restart (name :: more) r').spec) := by
  rw [recover, run]
  cases result with
  | unfinished => exact absurd rfl ended
  | _ =>
    simp only [found, if_pos beyond]
    rfl

theorem recover_of_within (run : attempt program options r = (result, r'))
    (ended : result ≠ .unfinished) (found : discovered result r' = name :: more)
    (within : ¬options.maxAttempts < (missing ++ name :: more).length) :
    recover emitter program options missing attempts r =
      recover emitter program options (missing ++ name :: more) (attempts + 1)
        (restart (name :: more) r') := by
  rw [recover, run]
  cases result with
  | unfinished => exact absurd rfl ended
  | _ =>
    simp only [found, if_neg within]
    rfl

/-! ## The fields that runs define -/

/-- The fields `missing` and those that the runs from here on define, in order. -/
def defined (program : Script.Program) (options : Options) (missing : List String)
    (r : Resolver) : List String :=
  let (result, r) := attempt program options r
  match result, discovered result r with
  | _, [] => missing
  | .unfinished, _ :: _ => missing
  | _, name :: more =>
    if options.maxAttempts < (missing ++ name :: more).length then missing ++ name :: more
    else defined program options (missing ++ name :: more) (restart (name :: more) r)
  termination_by options.maxAttempts + 1 - missing.length
  decreasing_by
    simp only [List.length_append, List.length_cons] at *
    omega

theorem defined_of_run (run : attempt program options r = (result, r'))
    (found : discovered result r' = []) : defined program options missing r = missing := by
  rw [defined, run]
  simp only [found]

theorem defined_of_endless (run : attempt program options r = (.unfinished, r')) :
    defined program options missing r = missing := by
  rw [defined, run]
  dsimp only
  split <;> simp_all

theorem defined_of_beyond (run : attempt program options r = (result, r'))
    (ended : result ≠ .unfinished) (found : discovered result r' = name :: more)
    (beyond : options.maxAttempts < (missing ++ name :: more).length) :
    defined program options missing r = missing ++ name :: more := by
  rw [defined, run]
  cases result with
  | unfinished => exact absurd rfl ended
  | _ => simp only [found, if_pos beyond]

theorem defined_of_within (run : attempt program options r = (result, r'))
    (ended : result ≠ .unfinished) (found : discovered result r' = name :: more)
    (within : ¬options.maxAttempts < (missing ++ name :: more).length) :
    defined program options missing r =
      defined program options (missing ++ name :: more) (restart (name :: more) r') := by
  rw [defined, run]
  cases result with
  | unfinished => exact absurd rfl ended
  | _ => simp only [found, if_neg within]

/-- Whether an outcome reports just these fields, if it reports any. -/
def Reports (all : List String) : Except Fault Emission → Prop
  | .ok emission => emission.missing = all
  | .error (.retryExhausted _ names) => names = all
  | .error _ => True

theorem reports_conclude : Reports missing (conclude emitter missing attempts result) := by
  cases result <;> simp [conclude, Reports]

theorem grown_of_run (fresh : Fresh r) (run : attempt program options r = (result, r')) :
    r'.spec = r.spec ∧ Fresh (restart (discovered result r') r') ∧
      r.spec.Extends (discovered result r') (restart (discovered result r') r').spec := by
  obtain ⟨_, later⟩ := attempt_later program options fresh.toSound
  rw [run] at later
  have grown := extends_restart result later.sound
  rw [later.spec] at grown
  exact ⟨later.spec, fresh_restart result later.sound, grown⟩

/-- Runs extend the spec by the fields that they define, and report these fields. -/
theorem recover_defined (emitter : Emitter) (fresh : Fresh r) :
    ∃ more, defined program options missing r = missing ++ more ∧
      r.spec.Extends more (recover emitter program options missing attempts r).2 ∧
      Reports (missing ++ more) (recover emitter program options missing attempts r).1 := by
  induction missing, attempts, r using recover.induct program options with
  | case1 missing attempts r result r' run found =>
    obtain ⟨same, -⟩ := grown_of_run fresh run
    rw [recover_of_run run found, defined_of_run run found]
    exact ⟨[], by simp, same ▸ Spec.Extends.refl _, by simpa using reports_conclude⟩
  | case2 missing attempts r r' name more run found =>
    obtain ⟨same, -⟩ := grown_of_run fresh run
    rw [recover_of_endless run found, defined_of_endless run]
    exact ⟨[], by simp, same ▸ Spec.Extends.refl _, trivial⟩
  | case3 missing attempts r result r' run name more found beyond ended =>
    obtain ⟨-, -, grown⟩ := grown_of_run fresh run
    rw [recover_of_beyond run ended found beyond, defined_of_beyond run ended found beyond]
    exact ⟨name :: more, rfl, found ▸ grown, rfl⟩
  | case4 missing attempts r result r' run _ name more found _ within ended ih =>
    obtain ⟨-, fresh', grown⟩ := grown_of_run fresh run
    rw [found] at fresh' grown
    obtain ⟨others, eq, further, named⟩ := ih fresh'
    rw [recover_of_within run ended found within, defined_of_within run ended found within]
    refine ⟨name :: more ++ others, ?_, grown.trans further, ?_⟩
    · rw [← List.append_assoc]
      exact eq
    · rw [← List.append_assoc]
      exact named

/-! ## A higher ceiling -/

/-- The same options with another ceiling. -/
def Options.under (options : Options) (ceiling : Nat) : Options :=
  { options with maxAttempts := ceiling }

theorem attempt_under (run : attempt program options r = (result, r')) :
    attempt program (options.under ceiling) r = (result, r') := run

theorem within_under (higher : options.maxAttempts ≤ ceiling)
    (within : ¬options.maxAttempts < names.length) :
    ¬(options.under ceiling).maxAttempts < names.length :=
  fun beyond => within (Nat.lt_of_le_of_lt higher beyond)

/-- Runs that do not give up do the same under a higher ceiling. -/
theorem recover_under (higher : options.maxAttempts ≤ ceiling)
    (settled : ∀ count names, (recover emitter program options missing attempts r).1 ≠
      .error (.retryExhausted count names)) :
    recover emitter program (options.under ceiling) missing attempts r =
      recover emitter program options missing attempts r := by
  induction missing, attempts, r using recover.induct program options with
  | case1 missing attempts r result r' run found =>
    rw [recover_of_run run found, recover_of_run (attempt_under run) found]
  | case2 missing attempts r r' name more run found =>
    rw [recover_of_endless run found, recover_of_endless (attempt_under run) found]
  | case3 missing attempts r result r' run name more found beyond ended =>
    rw [recover_of_beyond run ended found beyond] at settled
    exact absurd rfl (settled _ _)
  | case4 missing attempts r result r' run _ name more found _ within ended ih =>
    rw [recover_of_within run ended found within] at settled ⊢
    rw [recover_of_within (attempt_under run) ended found (within_under higher within)]
    exact ih settled

/-- What a higher ceiling makes of runs that have given up with some names defined. -/
structure GivenUp (emitter : Emitter) (program : Script.Program) (options : Options)
    (missing : List String) (attempts : Nat) (r : Resolver) (names : List String) (count : Nat)
    (left : Resolver) : Prop where
  fresh : Fresh left
  again : options.maxAttempts < names.length →
    recover emitter program options missing attempts r =
      (.error (.retryExhausted count names), left.spec)
  further : ¬options.maxAttempts < names.length →
    recover emitter program options missing attempts r =
      recover emitter program options names count left
  defined : ¬options.maxAttempts < names.length →
    Emission.defined program options missing r = Emission.defined program options names left

/--
Where runs give up, those under a higher ceiling come to the same state with the same fields defined.
There they give up too, or go on from that state.
-/
theorem exists_givenUp {count : Nat} (higher : options.maxAttempts ≤ ceiling) (fresh : Fresh r)
    (exhausted : (recover emitter program options missing attempts r).1 =
      .error (.retryExhausted count names)) :
    ∃ left, left.spec = (recover emitter program options missing attempts r).2 ∧
      GivenUp emitter program (options.under ceiling) missing attempts r names count left := by
  induction missing, attempts, r using recover.induct program options with
  | case1 missing attempts r result r' run found =>
    rw [recover_of_run run found] at exhausted
    cases result <;> simp [conclude] at exhausted
  | case2 missing attempts r r' name more run found =>
    rw [recover_of_endless run found] at exhausted
    simp at exhausted
  | case3 missing attempts r result r' run name more found beyond ended =>
    obtain ⟨-, fresh', -⟩ := grown_of_run fresh run
    rw [found] at fresh'
    rw [recover_of_beyond run ended found beyond] at exhausted ⊢
    simp only [Except.error.injEq, Fault.retryExhausted.injEq] at exhausted
    obtain ⟨rfl, rfl⟩ := exhausted
    exact ⟨_, rfl, fresh', recover_of_beyond (attempt_under run) ended found,
      recover_of_within (attempt_under run) ended found,
      defined_of_within (attempt_under run) ended found⟩
  | case4 missing attempts r result r' run _ name more found _ within ended ih =>
    obtain ⟨-, fresh', -⟩ := grown_of_run fresh run
    rw [found] at fresh'
    rw [recover_of_within run ended found within] at exhausted ⊢
    obtain ⟨left, spec, given⟩ := ih fresh' exhausted
    have step := @recover_of_within emitter program (options.under ceiling) attempts missing more
      name r r' result (attempt_under run) ended found (within_under higher within)
    have defines := @defined_of_within program (options.under ceiling) missing more
      name r r' result (attempt_under run) ended found (within_under higher within)
    exact ⟨left, spec, given.fresh, fun full => step.trans (given.again full),
      fun room => step.trans (given.further room), fun room => defines.trans (given.defined room)⟩

/-- Under a higher ceiling, runs that have given up do so again, or define other fields behind. -/
theorem recover_under_of_exhausted {count : Nat} (emitter : Emitter)
    (higher : options.maxAttempts ≤ ceiling) (fresh : Fresh r)
    (exhausted : (recover emitter program options missing attempts r).1 =
      .error (.retryExhausted count names)) :
    if ceiling < names.length then
      recover emitter program (options.under ceiling) missing attempts r =
        recover emitter program options missing attempts r
    else ∃ more, defined program (options.under ceiling) missing r = names ++ more ∧
      (recover emitter program options missing attempts r).2.Extends more
        (recover emitter program (options.under ceiling) missing attempts r).2 := by
  obtain ⟨left, spec, given⟩ := exists_givenUp higher fresh exhausted
  split
  · rename_i full
    rw [given.again full, ← exhausted, spec]
  · rename_i room
    obtain ⟨more, eq, extended, -⟩ := @recover_defined program (options.under ceiling) count names
      left emitter given.fresh
    rw [given.further room, given.defined room, ← spec]
    exact ⟨more, eq, extended⟩

end Emission

namespace Emitter

/-- The fields that running an emitter defines, in order. -/
def defined (emitter : Emitter) (options : Emission.Options) (spec : Spec) : List String :=
  match emitter.program with
  | .error _ => []
  | .ok program => Emission.defined program options [] (Resolver.start spec options.deferred)

theorem program_error {emitter : Emitter} {fault : Fault} (h : emitter.program = .error fault) :
    ∃ message location fragment, fault = .syntaxError message location fragment := by
  unfold program at h
  split at h
  · rw [Except.error.injEq] at h
    rw [← h, syntaxFault]
    split <;> exact ⟨_, _, _, rfl⟩
  · simp at h

/-- Running an emitter extends the spec by the fields that it defines, and reports these fields. -/
theorem run_missing (emitter : Emitter) (options : Emission.Options) (spec : Spec) :
    spec.Extends (emitter.defined options spec) (emitter.run options spec).2 ∧
      Emission.Reports (emitter.defined options spec) (emitter.run options spec).1 := by
  rw [run, defined]
  cases read : emitter.program with
  | error fault =>
    obtain ⟨_, _, _, rfl⟩ := program_error read
    exact ⟨Spec.Extends.refl spec, trivial⟩
  | ok program =>
    obtain ⟨more, eq, extended, named⟩ := @Emission.recover_defined program options 0 [] _ emitter
      (Emission.fresh_start spec options.deferred)
    dsimp only
    rw [eq]
    exact ⟨extended, named⟩

/--
A higher ceiling changes nothing about a run that does not give up.  One that gives up with some names
gives up with the same names, or goes on: it defines these names first, and others behind them.
-/
theorem run_under (emitter : Emitter) (options : Emission.Options) (spec : Spec) {ceiling : Nat}
    (higher : options.maxAttempts ≤ ceiling) :
    match (emitter.run options spec).1 with
    | .error (.retryExhausted _ names) =>
      if ceiling < names.length then
        emitter.run (options.under ceiling) spec = emitter.run options spec
      else ∃ more, emitter.defined (options.under ceiling) spec = names ++ more ∧
        Emission.Reports (names ++ more) (emitter.run (options.under ceiling) spec).1 ∧
        (emitter.run options spec).2.Extends more (emitter.run (options.under ceiling) spec).2
    | _ => emitter.run (options.under ceiling) spec = emitter.run options spec := by
  obtain ⟨-, named⟩ := run_missing emitter (options.under ceiling) spec
  rw [run, run, defined] at *
  cases read : emitter.program with
  | error fault =>
    obtain ⟨_, _, _, rfl⟩ := program_error read
    rfl
  | ok program =>
    rw [read] at named
    dsimp only at named ⊢
    have fresh := Emission.fresh_start spec options.deferred
    split
    · rename_i count names exhausted
      have outcome := Emission.recover_under_of_exhausted emitter higher fresh exhausted
      by_cases full : ceiling < names.length
      · rw [if_pos full] at outcome ⊢
        exact outcome
      · rw [if_neg full] at outcome ⊢
        obtain ⟨more, eq, extended⟩ := outcome
        exact ⟨more, eq, eq ▸ named, extended⟩
    · rename_i settled
      exact Emission.recover_under higher settled

/-- Each name is missed only when the ones before it are defined. -/
def chain : Emitter :=
  ⟨⟨"page"⟩, ["let code = \"\";", "let x = a;", "let y = b;", "let z = c;", "code"].map plain, [], []⟩

theorem run_under_of_chain :
    1 ≤ 5 ∧ (chain.run ⟨1, false, 0⟩ ∅).1 = .error (.retryExhausted 2 ["a", "b"]) ∧
      ∃ more, chain.defined ⟨5, false, 0⟩ ∅ = ["a", "b"] ++ more ∧
        Emission.Reports (["a", "b"] ++ more) (chain.run ⟨5, false, 0⟩ ∅).1 ∧
        (chain.run ⟨1, false, 0⟩ ∅).2.Extends more (chain.run ⟨5, false, 0⟩ ∅).2 := by
  have low : (chain.run ⟨1, false, 0⟩ ∅).1 = .error (.retryExhausted 2 ["a", "b"]) := by
    decide +kernel
  have further := run_under chain ⟨1, false, 0⟩ ∅ (show 1 ≤ 5 by decide)
  rw [low] at further
  exact ⟨by decide, low, further⟩

end Emitter

end Stencil
