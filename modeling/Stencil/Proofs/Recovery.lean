import Stencil.Emission
import Stencil.Proofs.Resolver

/-!
# Recovery from undefined fields

A run of a script leaves the spec as it is and shows some names to be undefined, each once.  These
names are new fields of the spec before the next run, so that they never come up again.  Every run
but the last one defines another field, and the ceiling on their count bounds the count of runs.
-/

namespace Stencil

open Script

namespace Emission

/-! ## One run -/

theorem attempt_later (program : Script.Program) (options : Options) {r : Resolver}
    (h : r.Sound) : ∃ names, Resolver.Later r names (attempt program options r).2 :=
  Resolver.run_later (program.evaluate options.maxOperations) h

theorem attempt_alike (program : Script.Program) (options : Options) {r r' : Resolver}
    (h : Resolver.Alike r r') :
    (attempt program options r').1 = (attempt program options r).1 ∧
      Resolver.Alike (attempt program options r).2 (attempt program options r').2 := by
  obtain ⟨same, later⟩ := h.run (program.evaluate options.maxOperations)
  exact ⟨congrArg Attempt.ofEnding same, later⟩

/-- To the recorded names the fault that ended the run adds at most one, which is new. -/
theorem discovered_cases (result : Attempt) (r : Resolver) :
    discovered result r = r.undefined ∨ ∃ name, discovered result r = r.undefined ++ [name] ∧
      r.spec.get? name = none ∧ name ∉ r.undefined := by
  cases result with
  | output text => exact .inl rfl
  | unfinished => exact .inl rfl
  | failed failure =>
    cases hv : undefinedVariable? failure with
    | none => left; simp [discovered, Resolver.takeUndefined, hv]
    | some name =>
      by_cases new : (!r.spec.has name && !r.undefined.contains name) = true
      · right
        refine ⟨name, ?_, ?_⟩
        · simp only [discovered, Resolver.takeUndefined, hv]
          exact if_pos new
        · simpa [Spec.has_eq_false_iff] using new
      · left
        simp only [discovered, Resolver.takeUndefined, hv]
        exact if_neg new

theorem discovered_spec (result : Attempt) {r : Resolver} (h : r.Sound) :
    (discovered result r).Nodup ∧ ∀ name ∈ discovered result r, r.spec.get? name = none := by
  rcases discovered_cases result r with eq | ⟨name, eq, absent, new⟩
  · exact eq ▸ ⟨h.nodup, h.absent⟩
  · rw [eq]
    refine ⟨List.nodup_append.2 ⟨h.nodup, by simp, ?_⟩, ?_⟩
    · rintro a ha b hb rfl
      exact new (List.mem_singleton.1 hb ▸ ha)
    · intro other ho
      rcases List.mem_append.1 ho with ho | ho
      · exact h.absent other ho
      · exact List.mem_singleton.1 ho ▸ absent

theorem discovered_alike (result : Attempt) {r r' : Resolver} (h : Resolver.Alike r r') :
    discovered result r' = discovered result r := by
  obtain ⟨spec, known, undefined, deferred⟩ := r
  obtain ⟨spec', known', undefined', deferred'⟩ := r'
  obtain ⟨rfl, rfl⟩ : spec' = spec ∧ undefined' = undefined := ⟨h.spec, h.undefined⟩
  rfl

def restart (names : List String) (r : Resolver) : Resolver :=
  names.foldl (fun state n => state.placehold n) r.takeUndefined.2

/-- A resolver between two runs: nothing is recorded. -/
structure Fresh (r : Resolver) : Prop extends r.Sound where
  unrecorded : r.undefined = []

theorem fresh_start (spec : Spec) (deferred : Bool) : Fresh (Resolver.start spec deferred) :=
  ⟨Resolver.sound_start spec deferred, rfl⟩

theorem restart_spec (names : List String) (r : Resolver) :
    (restart names r).spec = names.foldl Spec.placehold r.spec :=
  Resolver.foldl_placehold_spec names r.takeUndefined.2

theorem restart_deferred (names : List String) (r : Resolver) :
    (restart names r).deferred = r.deferred :=
  Resolver.foldl_placehold_deferred names r.takeUndefined.2

theorem fresh_restart (result : Attempt) {r : Resolver} (h : r.Sound) :
    Fresh (restart (discovered result r) r) := by
  refine ⟨Resolver.sound_foldl_placehold _ (Resolver.sound_takeUndefined h) rfl, ?_⟩
  exact Resolver.foldl_placehold_undefined _ _

theorem extends_restart (result : Attempt) {r : Resolver} (h : r.Sound) :
    Spec.Extends r.spec (discovered result r) (restart (discovered result r) r).spec := by
  obtain ⟨nodup, absent⟩ := discovered_spec result h
  rw [restart_spec]
  exact Spec.Extends.foldl_placehold nodup absent

/-! ## Complete runs -/

/-- Run once with a spec, a script comes to a result and shows no name to be undefined. -/
def Completes (program : Script.Program) (options : Options) (spec : Spec) (result : Attempt) :
    Prop :=
  ∃ r, attempt program options (Resolver.start spec options.deferred) = (result, r) ∧
    discovered result r = []

theorem Fresh.completes {program : Script.Program} {options : Options} {r r' : Resolver}
    {result : Attempt} (fresh : Fresh r) (mode : r.deferred = options.deferred)
    (run : attempt program options r = (result, r')) (found : discovered result r' = []) :
    Completes program options r.spec result := by
  -- A resolver that starts anew knows the same as one that kept values.
  have alike : Resolver.Alike r (Resolver.start r.spec options.deferred) :=
    ⟨fresh.toSound, Resolver.sound_start r.spec options.deferred, rfl, mode.symm,
      fresh.unrecorded.symm⟩
  obtain ⟨same, later⟩ := attempt_alike program options alike
  rw [run] at same later
  exact ⟨(attempt program options (Resolver.start r.spec options.deferred)).2,
    Prod.ext same rfl, (discovered_alike result later).trans found⟩

theorem recover_of_run {emitter : Emitter} {program : Script.Program} {options : Options}
    {missing : List String} {attempts : Nat} {r r' : Resolver} {result : Attempt}
    (run : attempt program options r = (result, r')) (found : discovered result r' = []) :
    recover emitter program options missing attempts r =
      (conclude emitter missing (attempts + 1) result, r'.spec) := by
  rw [recover, run]
  simp only [found]
  rfl

/-- A complete run is the only one, and leaves the spec as it is. -/
theorem Completes.recover {emitter : Emitter} {program : Script.Program} {options : Options}
    {spec : Spec} {result : Attempt} (h : Completes program options spec result) :
    recover emitter program options [] 0 (Resolver.start spec options.deferred) =
      (conclude emitter [] 1 result, spec) := by
  obtain ⟨r, run, found⟩ := h
  obtain ⟨names, later⟩ :=
    attempt_later program options (Resolver.sound_start spec options.deferred)
  rw [run] at later
  rw [recover_of_run run found, later.spec]
  rfl

/-! ## All runs -/

/--
Runs of a script, counted: after the fields `missing` were defined in `attempts` earlier runs, so
many further runs lead from a resolver to an outcome.
-/
inductive Recovers (emitter : Emitter) (program : Script.Program) (options : Options) :
    Nat → List String → Nat → Resolver → Except Fault Emission × Spec → Prop
  | clean {missing attempts r result r'} (run : attempt program options r = (result, r'))
      (found : discovered result r' = []) :
      Recovers emitter program options 1 missing attempts r
        (conclude emitter missing (attempts + 1) result, r'.spec)
  | endless {missing attempts r r'} (run : attempt program options r = (.unfinished, r'))
      (found : discovered .unfinished r' ≠ []) :
      Recovers emitter program options 1 missing attempts r (.error .unfinished, r'.spec)
  | exhausted {missing attempts r result r'} (run : attempt program options r = (result, r'))
      (ended : result ≠ .unfinished)
      (found : discovered result r' ≠ [])
      (beyond : options.maxAttempts < (missing ++ discovered result r').length) :
      Recovers emitter program options 1 missing attempts r
        (.error (.retryExhausted (attempts + 1) (missing ++ discovered result r')),
          (restart (discovered result r') r').spec)
  | again {runs missing attempts r result r' outcome}
      (run : attempt program options r = (result, r')) (ended : result ≠ .unfinished)
      (found : discovered result r' ≠ [])
      (within : (missing ++ discovered result r').length ≤ options.maxAttempts)
      (rest : Recovers emitter program options runs (missing ++ discovered result r')
        (attempts + 1) (restart (discovered result r') r') outcome) :
      Recovers emitter program options (runs + 1) missing attempts r outcome

theorem recover_recovers (emitter : Emitter) (program : Script.Program) (options : Options)
    (missing : List String) (attempts : Nat) (r : Resolver)
    (within : missing.length ≤ options.maxAttempts) :
    ∃ runs, runs + missing.length ≤ options.maxAttempts + 1 ∧
      Recovers emitter program options runs missing attempts r
        (recover emitter program options missing attempts r) := by
  induction missing, attempts, r using recover.induct program options with
  | case1 missing attempts r result r' run found =>
    refine ⟨1, by omega, ?_⟩
    rw [recover, run]
    simp only [found]
    change Recovers emitter program options 1 missing attempts r (_, r'.spec)
    exact .clean run found
  | case2 missing attempts r r' name more run found =>
    refine ⟨1, by omega, ?_⟩
    rw [recover, run]
    simp only [found]
    change Recovers emitter program options 1 missing attempts r (_, r'.spec)
    exact .endless run (by simp [found])
  | case3 missing attempts r result r' run name more found beyond ended =>
    refine ⟨1, by omega, ?_⟩
    rw [recover, run]
    simp only [found, if_pos beyond]
    have := @Recovers.exhausted emitter program options missing attempts r result r' run ended
      (by simp [found]) (by rwa [found])
    rwa [found] at this
  | case4 missing attempts r result r' run _ name more found _ few ended ih =>
    rw [Nat.not_lt] at few
    obtain ⟨runs, bound, rest⟩ := ih few
    refine ⟨runs + 1, ?_, ?_⟩
    · simp only [List.length_append, List.length_cons] at bound ⊢
      omega
    · rw [recover, run]
      simp only [found, if_neg (Nat.not_lt.2 few)]
      refine .again run ended (by simp [found]) (by rwa [found]) ?_
      rw [found]
      exact rest

/-- What the outcome of runs tells about the fields `added` that were defined on the way. -/
def Tells (options : Options) (runs : Nat) (missing : List String) (attempts : Nat)
    (added : List String) : Except Fault Emission → Prop
  | .ok emission =>
    emission.missing = missing ++ added ∧ emission.attempts = attempts + runs ∧
      emission.missing.length ≤ options.maxAttempts ∧ (runs = 1 ↔ added = [])
  | .error (.retryExhausted count names) =>
    names = missing ++ added ∧ count = attempts + runs ∧ options.maxAttempts < names.length
  | .error _ => True

theorem Recovers.pos {emitter : Emitter} {program : Script.Program} {options : Options}
    {runs attempts : Nat} {missing : List String} {r : Resolver}
    {outcome : Except Fault Emission × Spec}
    (h : Recovers emitter program options runs missing attempts r outcome) : 0 < runs := by
  cases h <;> omega

theorem Tells.again {options : Options} {runs attempts : Nat} {missing found added : List String}
    {outcome : Except Fault Emission}
    (told : Tells options runs (missing ++ found) (attempts + 1) added outcome)
    (some_found : found ≠ []) (pos : 0 < runs) :
    Tells options (runs + 1) missing attempts (found ++ added) outcome := by
  cases outcome with
  | ok emission =>
    obtain ⟨names, count, within, -⟩ := told
    refine ⟨by simpa using names, by omega, within, ?_⟩
    simp only [List.append_eq_nil_iff, some_found, false_and, iff_false]
    omega
  | error fault =>
    cases fault with
    | retryExhausted count names =>
      obtain ⟨all, counted, beyond⟩ := told
      exact ⟨by simpa using all, by omega, beyond⟩
    | _ => trivial

/-- Runs extend the spec by the fields they tell about, and each run but the last one by a field. -/
theorem Recovers.extends {emitter : Emitter} {program : Script.Program} {options : Options}
    {runs attempts : Nat} {missing : List String} {r : Resolver}
    {outcome : Except Fault Emission × Spec}
    (h : Recovers emitter program options runs missing attempts r outcome) (fresh : Fresh r)
    (within : missing.length ≤ options.maxAttempts) :
    ∃ added, r.spec.Extends added outcome.2 ∧ runs ≤ added.length + 1 ∧
      Tells options runs missing attempts added outcome.1 := by
  induction h with
  | @clean missing attempts r result r' run found =>
    obtain ⟨names, later⟩ := attempt_later program options fresh.toSound
    rw [run] at later
    refine ⟨[], later.spec ▸ Spec.Extends.refl _, by simp, ?_⟩
    cases result <;> simp [conclude, Tells, within]
  | @endless missing attempts r r' run found =>
    obtain ⟨names, later⟩ := attempt_later program options fresh.toSound
    rw [run] at later
    exact ⟨[], later.spec ▸ Spec.Extends.refl _, by simp, trivial⟩
  | @exhausted missing attempts r result r' run ended found beyond =>
    obtain ⟨names, later⟩ := attempt_later program options fresh.toSound
    rw [run] at later
    have grown := extends_restart result later.sound
    rw [later.spec] at grown
    exact ⟨_, grown, by omega, rfl, rfl, beyond⟩
  | @again runs missing attempts r result r' outcome run ended found few rest ih =>
    obtain ⟨names, later⟩ := attempt_later program options fresh.toSound
    rw [run] at later
    have grown := extends_restart result later.sound
    rw [later.spec] at grown
    -- The later runs go on from a spec that has the found fields.
    obtain ⟨added, further, count, told⟩ := ih (fresh_restart result later.sound) few
    have some_found : 0 < (discovered result r').length := List.length_pos_iff.2 found
    refine ⟨_, grown.trans further, ?_, ?_⟩
    · simp only [List.length_append]
      omega
    · exact told.again found rest.pos

/--
Runs come to no end, or give up, or their last one is complete with the final spec and gives their
outcome.
-/
theorem Recovers.settled {emitter : Emitter} {program : Script.Program} {options : Options}
    {runs attempts : Nat} {missing : List String} {r : Resolver}
    {outcome : Except Fault Emission × Spec}
    (h : Recovers emitter program options runs missing attempts r outcome) (fresh : Fresh r)
    (mode : r.deferred = options.deferred) :
    outcome.1 = .error .unfinished ∨
      (∃ count names, outcome.1 = .error (.retryExhausted count names)) ∨
      ∃ result names count, Completes program options outcome.2 result ∧
        outcome.1 = conclude emitter names count result := by
  induction h with
  | @clean missing attempts r result r' run found =>
    obtain ⟨names, later⟩ := attempt_later program options fresh.toSound
    rw [run] at later
    have complete := fresh.completes mode run found
    exact .inr (.inr ⟨result, missing, attempts + 1, later.spec ▸ complete, rfl⟩)
  | endless run found => exact .inl rfl
  | exhausted run ended found beyond => exact .inr (.inl ⟨_, _, rfl⟩)
  | @again runs missing attempts r result r' outcome run ended found within rest ih =>
    obtain ⟨names, later⟩ := attempt_later program options fresh.toSound
    rw [run] at later
    refine ih (fresh_restart result later.sound) ?_
    rw [restart_deferred, later.deferred, mode]

end Emission

namespace Emitter

/--
Running an emitter extends the spec by empty objects and nothing else, in at most one run more than
fields may be defined.  A text or a surplus of undefined fields is reported together with exactly the
fields that were added; a script that cannot be read leaves the spec as it is.
-/
theorem run_recovers (emitter : Emitter) (options : Emission.Options) (spec : Spec) :
    match emitter.program with
    | .error fault => emitter.run options spec = (.error fault, spec)
    | .ok program => ∃ runs added,
        runs ≤ options.maxAttempts + 1 ∧
        Emission.Recovers emitter program options runs [] 0
          (Resolver.start spec options.deferred) (emitter.run options spec) ∧
        spec.Extends added (emitter.run options spec).2 ∧
        match (emitter.run options spec).1 with
        | .ok emission =>
            emission.missing = added ∧ added.length ≤ options.maxAttempts ∧
            emission.attempts = runs ∧ runs ≤ added.length + 1 ∧
            (emission.attempts = 1 ↔ emission.missing = [])
        | .error (.retryExhausted attempts missing) =>
            missing = added ∧ options.maxAttempts < added.length ∧ attempts = runs
        | .error _ => True := by
  cases parsed : emitter.program with
  | error fault => simp [run, parsed]
  | ok program =>
    have eq : emitter.run options spec = Emission.recover emitter program options [] 0
        (Resolver.start spec options.deferred) := by simp [run, parsed]
    obtain ⟨runs, bound, recovers⟩ := Emission.recover_recovers emitter program options [] 0
      (Resolver.start spec options.deferred) (by simp)
    rw [← eq] at recovers
    obtain ⟨added, extended, few, told⟩ :=
      recovers.extends (Emission.fresh_start spec options.deferred) (by simp)
    refine ⟨runs, added, by simpa using bound, recovers, extended, ?_⟩
    cases result : (emitter.run options spec).1 with
    | ok emission =>
      rw [result] at told
      obtain ⟨missing, attempts, within, once⟩ := told
      simp only [List.nil_append, Nat.zero_add] at missing attempts
      exact ⟨missing, missing ▸ within, attempts, few, by rw [missing, attempts]; exact once⟩
    | error fault =>
      rw [result] at told
      cases fault with
      | retryExhausted attempts names =>
        obtain ⟨missing, count, beyond⟩ := told
        simp only [List.nil_append, Nat.zero_add] at missing count
        exact ⟨missing, missing ▸ beyond, count⟩
      | _ => trivial

theorem exists_extends (emitter : Emitter) (options : Emission.Options) (spec : Spec) :
    ∃ added, spec.Extends added (emitter.run options spec).2 := by
  unfold run
  cases emitter.program with
  | error fault => exact ⟨[], Spec.Extends.refl spec⟩
  | ok program =>
    obtain ⟨runs, -, recovers⟩ := Emission.recover_recovers emitter program options [] 0
      (Resolver.start spec options.deferred) (by simp)
    obtain ⟨added, extended, -⟩ :=
      recovers.extends (Emission.fresh_start spec options.deferred) (by simp)
    exact ⟨added, extended⟩

end Emitter

end Stencil
