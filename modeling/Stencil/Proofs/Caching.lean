import Mathlib.Data.List.DropRight
import Stencil.Proofs.Resolver

/-!
# Answers over a row of calls

A resolver is asked for names, told to define fields, and asked which names it missed, in any
order.  Its answers are those of one that keeps no values: a name stands for what the spec and the
fields that were defined up to then make of it.  The names that were missed are told once each, the
next time that they are asked for, and are then forgotten.
-/

namespace Stencil

open Script

namespace Resolver

/-! ## Calls and their answers -/

inductive Call where
  | resolve (name : String)
  | placehold (name : String)
  | takeUndefined
  deriving DecidableEq, Repr

inductive Answer where
  | value (v : Option Value)
  | done
  | names (names : List String)

def call (r : Resolver) : Call → Answer × Resolver
  | .resolve name => (.value (r.resolve name).1, (r.resolve name).2)
  | .placehold name => (.done, r.placehold name)
  | .takeUndefined => (.names r.takeUndefined.1, r.takeUndefined.2)

def after (r : Resolver) (calls : List Call) : Resolver :=
  calls.foldl (fun r c => (r.call c).2) r

/-- The calls, each with the answer that it got. -/
def trace (r : Resolver) : List Call → List (Call × Answer)
  | [] => []
  | c :: rest => (c, (r.call c).1) :: trace (r.call c).2 rest

/-- The name of a call that was answered with nothing. -/
def missed? : Call × Answer → Option String
  | (.resolve name, .value none) => some name
  | _ => none

/-- The names that were missed behind the last time that they were taken. -/
def missedSince (trace : List (Call × Answer)) : List String :=
  (trace.rtakeWhile (·.1 ≠ .takeUndefined)).filterMap missed?

variable {r r' : Resolver} {calls more : List Call} {c : Call}

theorem after_append (r : Resolver) (calls more : List Call) :
    r.after (calls ++ more) = (r.after calls).after more := by
  simp [after]

theorem after_concat (r : Resolver) (calls : List Call) (c : Call) :
    r.after (calls ++ [c]) = ((r.after calls).call c).2 :=
  after_append r calls [c]

theorem trace_concat (r : Resolver) (calls : List Call) (c : Call) :
    r.trace (calls ++ [c]) = r.trace calls ++ [(c, ((r.after calls).call c).1)] := by
  induction calls generalizing r with
  | nil => rfl
  | cons first rest ih =>
    rw [List.cons_append, trace, ih, trace]
    rfl

/-! ## Without a cache -/

/-- The resolver that has to look up every value again. -/
def forget (r : Resolver) : Resolver := { r with known := [] }

theorem remembers_forget (r : Resolver) : r.forget.Remembers := by
  intro name v found
  simp [forget] at found

theorem remembers_call (h : r.Remembers) (c : Call) : (r.call c).2.Remembers := by
  cases c with
  | resolve name =>
    obtain ⟨known, kept, eq⟩ := resolve_of_remembers h name
    rw [call, eq]
    exact kept
  | placehold name => exact remembers_placehold h name
  | takeUndefined => exact h

/-- A call is answered alike without the values that are kept, and leaves the same behind. -/
theorem call_forget (h : r.Remembers) (c : Call) :
    (r.forget.call c).1 = (r.call c).1 ∧ (r.forget.call c).2.forget = (r.call c).2.forget := by
  cases c with
  | resolve name =>
    obtain ⟨known, -, eq⟩ := resolve_of_remembers h name
    obtain ⟨known', -, eq'⟩ := resolve_of_remembers (remembers_forget r) name
    rw [call, call, eq, eq']
    exact ⟨rfl, rfl⟩
  | placehold name => exact ⟨rfl, rfl⟩
  | takeUndefined => exact ⟨rfl, rfl⟩

theorem trace_congr (h : r.Remembers) (h' : r'.Remembers) (same : r.forget = r'.forget)
    (calls : List Call) : r.trace calls = r'.trace calls := by
  induction calls generalizing r r' with
  | nil => rfl
  | cons c rest ih =>
    obtain ⟨answer, next⟩ := call_forget h c
    obtain ⟨answer', next'⟩ := call_forget h' c
    rw [same] at answer next
    rw [trace, trace, ← answer, ← answer',
      ih (remembers_call h c) (remembers_call h' c) (next.symm.trans next')]

/-! ## After a row of calls -/

/-- The value of a field after a row of calls: that in the spec, or an empty object if the field was
to be defined. -/
def fieldAfter? (spec : Spec) (calls : List Call) (name : String) : Option Json :=
  (spec.get? name).or (if .placehold name ∈ calls then some (.object []) else none)

theorem fieldAfter?_concat (spec : Spec) (calls : List Call) (c : Call) (name : String) :
    fieldAfter? spec (calls ++ [c]) name =
      (fieldAfter? spec calls name).or
        (if c = .placehold name then some (.object []) else none) := by
  rw [fieldAfter?, fieldAfter?, Option.or_assoc]
  congr 1
  by_cases before : .placehold name ∈ calls <;> by_cases now : c = .placehold name <;>
    simp [before, now, eq_comm]

variable (spec : Spec) (deferred : Bool)

theorem remembers_after (calls : List Call) : ((start spec deferred).after calls).Remembers := by
  induction calls using List.reverseRecOn with
  | nil => exact (sound_start spec deferred).known
  | append_singleton calls c ih =>
    rw [after_concat]
    exact remembers_call ih c

theorem deferred_call (h : r.Remembers) (c : Call) : (r.call c).2.deferred = r.deferred := by
  cases c with
  | resolve name =>
    obtain ⟨known, -, eq⟩ := resolve_of_remembers h name
    rw [call, eq]
  | placehold name => rfl
  | takeUndefined => rfl

theorem get?_call (h : r.Remembers) (c : Call) (name : String) :
    (r.call c).2.spec.get? name =
      (r.spec.get? name).or (if c = .placehold name then some (.object []) else none) := by
  cases c with
  | resolve other =>
    obtain ⟨known, -, eq⟩ := resolve_of_remembers h other
    rw [call, eq]
    simp
  | placehold other =>
    change (r.spec.placehold other).get? name = _
    rw [Spec.get?_placehold]
    simp
  | takeUndefined => simp [call, takeUndefined]

theorem deferred_after (calls : List Call) :
    ((start spec deferred).after calls).deferred = deferred := by
  induction calls using List.reverseRecOn with
  | nil => rfl
  | append_singleton calls c ih =>
    rw [after_concat, deferred_call (remembers_after spec deferred calls), ih]

theorem get?_after (calls : List Call) (name : String) :
    ((start spec deferred).after calls).spec.get? name = fieldAfter? spec calls name := by
  induction calls using List.reverseRecOn with
  | nil => simp [fieldAfter?, after, start]
  | append_singleton calls c ih =>
    rw [after_concat, get?_call (remembers_after spec deferred calls), ih, fieldAfter?_concat]

theorem undefined_call (h : r.Remembers) (c : Call) (before : List (Call × Answer))
    (recorded : r.undefined = noteAll [] (missedSince before)) :
    (r.call c).2.undefined = noteAll [] (missedSince (before ++ [(c, (r.call c).1)])) := by
  cases c with
  | resolve name =>
    obtain ⟨known, -, eq⟩ := resolve_of_remembers h name
    rw [call, eq, missedSince, List.rtakeWhile_concat_pos _ _ _ (by simp), List.filterMap_append,
      noteAll_append, ← missedSince, ← recorded]
    cases r.meaning? name <;> rfl
  | placehold name =>
    rw [missedSince, List.rtakeWhile_concat_pos _ _ _ (by simp), List.filterMap_append,
      noteAll_append, ← missedSince, ← recorded]
    rfl
  | takeUndefined =>
    rw [missedSince, List.rtakeWhile_concat_neg _ _ _ (by simp)]
    rfl

/-- A resolver has recorded what it missed since the record was last taken. -/
theorem undefined_after (calls : List Call) :
    ((start spec deferred).after calls).undefined =
      (missedSince ((start spec deferred).trace calls)).eraseDups := by
  rw [← noteAll_empty]
  induction calls using List.reverseRecOn with
  | nil => rfl
  | append_singleton calls c ih =>
    rw [after_concat, trace_concat]
    exact undefined_call (remembers_after spec deferred calls) c _ ih

theorem forget_placehold {name : String} (field : r.spec.has name = true) :
    (r.placehold name).forget = r.forget := by
  rw [placehold, Spec.placehold, if_pos field]
  rfl

/--
After any row of calls, a name stands for the mode of emission, or for the value that the spec and
the placeholders asked for up to then give its field, or for nothing.  Neither does it change a
later answer to forget the values that are kept, nor to define a field that there is.  The names
that are taken are those that were missed since the last time, each once and in the order in which
they were missed first.
-/
theorem answers_uncached (calls : List Call) :
    (∀ name, (((start spec deferred).after calls).call (.resolve name)).1 =
      .value (if name = modeName then some (.bool deferred)
        else (fieldAfter? spec calls name).map Value.ofJson)) ∧
    (∀ more, ((start spec deferred).after calls).forget.trace more =
      ((start spec deferred).after calls).trace more) ∧
    (∀ name, (fieldAfter? spec calls name).isSome → ∀ more,
      ((start spec deferred).after (calls ++ [.placehold name])).trace more =
        ((start spec deferred).after calls).trace more) ∧
    (((start spec deferred).after calls).call .takeUndefined).1 =
      .names (missedSince ((start spec deferred).trace calls)).eraseDups := by
  have kept := remembers_after spec deferred calls
  refine ⟨fun name => ?_, fun more => ?_, fun name field more => ?_, ?_⟩
  · obtain ⟨known, -, eq⟩ := resolve_of_remembers kept name
    rw [call, eq, meaning?, deferred_after, get?_after]
    split <;> rfl
  · exact trace_congr (remembers_forget _) kept rfl more
  · rw [← get?_after spec deferred] at field
    rw [after_concat]
    exact trace_congr (remembers_call kept (.placehold name)) kept (forget_placehold field) more
  · exact congrArg Answer.names (undefined_after spec deferred calls)

/-- The field `x` is missed twice, defined in between, and told once. -/
theorem answers_uncached_of_placeholder :
    let spec : Spec := ⟨[("a", .null)]⟩
    let calls : List Call := [.resolve "x", .resolve "a", .resolve "x", .placehold "x"]
    (fieldAfter? spec calls "x").isSome ∧
    (((start spec false).after calls).call (.resolve "x")).1 = .value (some (.map [])) ∧
    (∀ more, ((start spec false).after (calls ++ [.placehold "x"])).trace more =
      ((start spec false).after calls).trace more) ∧
    (((start spec false).after calls).call .takeUndefined).1 = .names ["x"] := by
  intro spec calls
  have field : (fieldAfter? spec calls "x").isSome := by decide
  obtain ⟨value, -, unchanged, taken⟩ := answers_uncached spec false calls
  exact ⟨field, value "x", unchanged "x" field, taken⟩

end Resolver

end Stencil
