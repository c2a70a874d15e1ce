import Stencil.Emitter

/-!
# Emission

Running an emitter against a spec.  The names without a field that come up in a run are defined as
empty objects, in the spec too, and the emitter starts again, until a run comes to its end without
such names.  The ceiling bounds the count of fields that are defined so.
-/

namespace Stencil

structure Emission where
  output : String
  missing : List String
  attempts : Nat
  deriving DecidableEq, Repr

structure Emission.Options where
  maxAttempts : Nat
  deferred : Bool
  /-- How many operations a single run may take; any number if it is zero. -/
  maxOperations : Nat
  deriving DecidableEq, Repr

namespace Emission

def undefinedVariable? : Script.Failure → Option String
  | .here (.unknownVariable name) _ => some name
  | .here _ _ => none
  | .inCall _ _ inner _ => undefinedVariable? inner

inductive Attempt where
  | output (text : String)
  | failed (failure : Script.Failure)
  | unfinished

def Attempt.ofEnding : Script.Ending → Attempt
  | .value (.string text) => .output text
  | .value v => .failed (.here (.outputMismatch v.kind "string") none)
  | .failed failure => .failed failure
  | .unfinished => .unfinished

def attempt (program : Script.Program) (options : Options) (r : Resolver) : Attempt × Resolver :=
  let (ending, r) := (program.evaluate options.maxOperations).run Resolver.answerer r
  (.ofEnding ending, r)

def discovered (result : Attempt) (r : Resolver) : List String :=
  let (names, r) := r.takeUndefined
  match result with
  | .failed failure =>
    match undefinedVariable? failure with
    | some name => if !r.spec.has name && !names.contains name then names ++ [name] else names
    | none => names
  | _ => names

def conclude (emitter : Emitter) (missing : List String) (attempts : Nat) :
    Attempt → Except Fault Emission
  | .output text => .ok ⟨text, missing, attempts⟩
  | .failed failure => .error (.evaluation (emitter.describe failure))
  | .unfinished => .error .unfinished

/--
Runs a script again and again; `missing` holds the fields that were defined before and `attempts`
counts the earlier runs.  Every further run defines another field, which bounds their count.
-/
def recover (emitter : Emitter) (program : Script.Program) (options : Options)
    (missing : List String) (attempts : Nat) (r : Resolver) : Except Fault Emission × Spec :=
  let (result, r) := attempt program options r
  let state := r.takeUndefined.2
  match result, discovered result r with
  | _, [] => (conclude emitter missing (attempts + 1) result, state.spec)
  | .unfinished, _ :: _ => (.error .unfinished, state.spec)
  | _, name :: more =>
    let state := (name :: more).foldl (fun state n => state.placehold n) state
    if options.maxAttempts < (missing ++ name :: more).length then
      (.error (.retryExhausted (attempts + 1) (missing ++ name :: more)), state.spec)
    else recover emitter program options (missing ++ name :: more) (attempts + 1) state
  termination_by options.maxAttempts + 1 - missing.length
  decreasing_by
    simp only [List.length_append, List.length_cons] at *
    omega

end Emission

namespace Emitter

def program (emitter : Emitter) : Except Fault Script.Program :=
  match Script.parse emitter.source with
  | .error f => .error (emitter.syntaxFault f.reason (some f.pos.line))
  | .ok program => .ok program.simplify

/-- Runs an emitter against a spec.  Gives also the spec with the fields that were defined. -/
def run (emitter : Emitter) (options : Emission.Options) (spec : Spec) :
    Except Fault Emission × Spec :=
  match emitter.program with
  | .error fault => (.error fault, spec)
  | .ok program =>
    Emission.recover emitter program options [] 0 (Resolver.start spec options.deferred)

end Emitter

end Stencil
