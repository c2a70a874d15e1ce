import Stencil.Proofs.Blocks
import Stencil.Proofs.Script.Settling
import Stencil.Proofs.Script.Splicing.Operands

/-!
# Guarded substitutions

Each substitution is guarded by itself.  One that faults leaves its fallback in its place and nothing
else: the document comes out as if every substitution of it were evaluated alone.
-/

namespace Stencil

open Script

/-- The names that stand for fields, whatever the script around them is. -/
def Spec.knows (spec : Spec) (name : String) : Bool :=
  spec.has name && name ≠ "code" && name ≠ Resolver.modeName

namespace Script

/-- The value of a text that is evaluated by itself against a spec; none if it faults. -/
def valueOf? (limit : Nat) (spec : Spec) (text : String) : Option Value :=
  match readExpression limit text with
  | .error _ => none
  | .ok (e, r) =>
    match ((evaluate ⟨r.functions.reverse, 0, true⟩ [.expr e] []).run Resolver.answerer
        (Resolver.start spec false)).1 with
    | .value v => some v
    | _ => none

/-- What stands for a substitution: the rendered value of its text, or the text that says it has none. -/
def shownOf (limit : Nat) (spec : Spec) (text : String) : String :=
  match valueOf? limit spec text with
  | some v => v.render
  | none => Append.fallback text

/-- A text of an expression without calls, whose variables are fields of the spec. -/
structure IsPlain (limit : Nat) (spec : Spec) (text : String) : Prop where
  accepted : ∃ e r, readExpression limit text = .ok (e, r) ∧ e.isPlain spec.knows = true
  blank : Lexer.EndsBlank text

instance (limit : Nat) (spec : Spec) (text : String) : Decidable (IsPlain limit spec text) :=
  decidable_of_iff ((readExpression limit text).toOption.any
      (fun (e, _) => e.isPlain spec.knows) = true ∧ Lexer.EndsBlank text)
    ⟨fun ⟨accepted, blank⟩ => by
      cases read : readExpression limit text with
      | error fault => simp [read, Except.toOption] at accepted
      | ok found =>
        obtain ⟨e, r⟩ := found
        rw [read] at accepted
        exact ⟨⟨e, r, read, accepted⟩, blank⟩,
    fun ⟨⟨e, r, read, plain⟩, blank⟩ => ⟨by rw [read]; exact plain, blank⟩⟩

variable {limit : Nat} {spec : Spec} {deferred : Bool} {e : Expr} {r : Reading} {text : String}

theorem shows_of_knows {scope : List Binding}
    (hidden : ∀ name, name ≠ "code" → scope.find? (·.name = name) = none) :
    Eval.Shows scope (Emission.names deferred spec) spec.knows := by
  intro name h
  simp only [Spec.knows, Spec.has, Bool.and_eq_true, decide_eq_true_eq] at h
  obtain ⟨⟨field, own⟩, mode⟩ := h
  rw [Emission.names_of_ne mode]
  exact ⟨hidden name own, Option.isSome_iff_exists.1 field⟩

theorem valueOf?_eq (read : readExpression limit text = .ok (e, r))
    (plain : e.isPlain spec.knows = true) :
    valueOf? limit spec text = e.value? (Emission.names false spec) := by
  have shows : Eval.Shows [] (Emission.names false spec) spec.knows :=
    shows_of_knows fun _ _ => rfl
  have settles : Eval.Settles (Eval.script (Eval.engine r.functions.reverse) (Eval.levelLimit + 1)
      [.expr e]) [] (Resolver.start spec false) (e.value? (Emission.names false spec)) := by
    rw [Eval.script, Eval.stmts, Eval.stmt]
    refine (Eval.Settles.tick (Resolver.sound_start spec false)).after fun r' later => ?_
    exact Eval.settles_expr shows e plain r' later.sound (Eval.meaning?_of_later rfl later)
  rw [valueOf?, read]
  dsimp only
  rw [evaluate, Inquiry.run_bind]
  cases value : e.value? (Emission.names false spec) with
  | some v =>
    rw [value] at settles
    obtain ⟨r', ends, -⟩ := settles
    obtain ⟨n, eq⟩ := ends (Machine.start []) rfl
    rw [Eval.engine] at eq
    rw [eq]
    rfl
  | none =>
    rw [value] at settles
    obtain ⟨failure, r', ends, -⟩ := settles
    obtain ⟨n, eq⟩ := ends (Machine.start []) rfl
    rw [Eval.engine] at eq
    rw [eq]
    rfl

/-- A plain text can be put between the tokens of a script, and defines no function there. -/
theorem IsPlain.contained (h : IsPlain limit spec text) (line : OneLine text) :
    IsContained limit text ∧ (Append.guarded text).Grows limit (· = []) := by
  obtain ⟨e, r, read, plain⟩ := h.accepted
  obtain ⟨terminated, vars, functions⟩ := Parser.isTerminated_of_plain read plain line h.blank
  refine ⟨⟨⟨e, r, read, fun v hv => ?_⟩, terminated⟩, ?_⟩
  · rw [vars] at hv
    cases hv
  · rintro _ e' r' ⟨⟩ read' fs fs' rfl count
    rw [read] at read'
    cases read'
    rw [functions] at count
    exact List.length_eq_zero_iff.1 count

namespace Eval

variable {below : Below} {e' : Expr} {fallback : String}

/-- Simplification goes into the expression of a guard and leaves the guard as it is. -/
theorem stmt_guarded (keep : Bool) (e : Expr) (fallback : String) (p q u b p' q' u' b' w : Pos) :
    Simplify.stmt keep
        (.attempt (.block [Outline.appending (.call "_render" [e] u) p q] b) none
          (.block [Outline.appending (.const (.string fallback) u') p' q'] b') w) =
      .attempt (.block [Outline.appending (.call "_render" [Simplify.expr e] u) p q] b) none
        (.block [Outline.appending (.const (.string fallback) u') p' q'] b') w := by
  cases keep <;> rfl

/-- The guard of a plain expression appends its rendered value, or its fallback if it has none. -/
theorem adds_guarded (plain : e.isPlain spec.knows = true) (same : SameExpr e e')
    (p q u b p' q' u' b' w : Pos) :
    Adds [] below (Emission.names deferred spec)
      (.attempt (.block [Outline.appending (.call "_render" [e'] u) p q] b) none
        (.block [Outline.appending (.const (.string fallback) u') p' q'] b') w)
      (match e.value? (Emission.names deferred spec) with
        | some v => v.render
        | none => fallback) := by
  have plain' : e'.isPlain spec.knows = true := same.isPlain.trans plain
  constructor
  · intro keep
    rw [stmt_guarded]
    rfl
  · intro keep out scope r hs hr hn
    have shows : Shows scope (Emission.names deferred spec) spec.knows :=
      shows_of_knows fun name own => hs.find?_of_none own rfl
    have meaning : r.meaning? = Emission.names deferred spec := hn
    have rendered := @settles_render _ _ _ scope r below u shows
      (Simplify.isPlain_expr e' plain') hr meaning
    rw [Simplify.value?_expr e' plain', same.value?] at rendered
    rw [stmt_guarded]
    cases value : e.value? (Emission.names deferred spec) with
    | some v =>
      rw [value] at rendered
      rw [stmt]
      obtain ⟨r', ends, later⟩ := rendered
      obtain ⟨scope', appended, hs'⟩ :=
        @ends_block_appending _ _ _ _ _ _ p below _ q _ _ b hs ends
      exact ⟨_, scope', r', Ends.bind Ends.tick (Ends.attempt_ok appended), hs', later⟩
    | none =>
      rw [value] at rendered
      obtain ⟨failure, r', ends, caught, later⟩ := rendered
      obtain ⟨scope', handled, hs'⟩ :=
        @ends_fallback _ _ _ _ _ _ below _ _ fallback _ b b' p q p' q' u' w hs ends caught
      exact ⟨_, scope', r', handled, hs', later⟩

end Eval

end Script

namespace Emitter

variable {document : Document} {limit : Nat} {spec : Spec}

theorem contained_of_plain (plain : ∀ expr ∈ document.exprs, IsPlain limit spec expr) :
    ∀ expr ∈ document.exprs,
      IsContained limit expr ∧ (Append.guarded expr).Grows limit (· = []) := by
  intro expr he
  obtain ⟨line, hl, inside⟩ := List.mem_flatMap.1 he
  obtain ⟨segment, hs, some_expr⟩ := List.mem_filterMap.1 inside
  exact (plain expr he).contained
    (Segment.oneLine_expr (Document.oneLine_of_mem_lines hl) hs some_expr)

end Emitter

end Stencil
