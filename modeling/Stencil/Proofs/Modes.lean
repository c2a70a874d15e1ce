import Stencil.Proofs.Forking
import Stencil.Proofs.Relocation
import Stencil.Proofs.Script.Blindness.Statements

/-!
# The two modes of emission

Where nothing is deferred, an emitter comes to the same outcome in both modes: its script depends on
the mode in conditionals with the same statements in both branches, and so is blind to it.  The
statements stand at different places, which a script can read from the faults that it handles.
-/

namespace Stencil.Emitter

open Script
open Emission (unlocated recover)

variable {limit : Nat} {tree : FileTree} {spec : Spec} {prelude : Option Prelude} {embed : Bool}
  {document : Document} {emitter : Emitter}

/--
The script of an emitter comes to the outcome that it comes to if all of it stands at the beginning:
it does not make use of the places of faults.
-/
def ReadsNoPlaces (emitter : Emitter) (program : Program) (options : Emission.Options)
    (spec : Spec) : Prop :=
  let start := Resolver.start spec options.deferred
  unlocated (recover emitter program.simplify options [] 0 start) =
    unlocated (recover emitter program.simplify.atStart options [] 0 start)

theorem run_eq_recover {program : Program} (parsed : parse emitter.source = .ok program)
    (options : Emission.Options) (spec : Spec) :
    emitter.run options spec =
      recover emitter program.simplify options [] 0 (Resolver.start spec options.deferred) := by
  rw [run, Emitter.program, parsed]

/-- The script of an emitter with forks that are apart from its closures comes to one outcome. -/
theorem recover_forked {program : Program} (forked : Forked .ended (tokens emitter.source))
    (parsed : parse emitter.source = .ok program) (apart : program.isApart = true)
    (maxAttempts maxOperations : Nat) (spec : Spec) :
    recover emitter program.simplify.atStart ⟨maxAttempts, true, maxOperations⟩ [] 0
        (Resolver.start spec true) =
      recover emitter program.simplify.atStart ⟨maxAttempts, false, maxOperations⟩ [] 0
        (Resolver.start spec false) := by
  have keeps := ((keeps_of_forked forked parsed).neutral_of_isApart apart).simplify
  exact Emission.recover_mode (keeps.evaluate maxOperations) emitter true false [] 0
    (Resolver.start spec false)

end Stencil.Emitter
