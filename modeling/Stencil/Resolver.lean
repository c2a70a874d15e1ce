import Stencil.Spec
import Stencil.Script.Inquiry

/-!
# Resolving names

What a running emitter learns about a name that is none of its own: the mode of emission, the value
of a field of the spec, or nothing.  A name without a field is recorded.  Values are converted once
and kept; fields only ever appear, so that what is kept stays right.
-/

namespace Stencil

structure Resolver where
  spec : Spec
  known : List (String × Script.Value)
  /-- The names without a field that were asked for, in order and each once. -/
  undefined : List String
  deferred : Bool

namespace Resolver

/-- The name that tells the mode of emission. -/
def modeName : String := "_deferred"

def start (spec : Spec) (deferred : Bool) : Resolver := ⟨spec, [], [], deferred⟩

def resolve (name : String) (r : Resolver) : Option Script.Value × Resolver :=
  if name = modeName then (some (.bool r.deferred), r)
  else
    match r.known.lookup name with
    | some v => (some v, r)
    | none =>
      match r.spec.get? name with
      | some json =>
        let v := Script.Value.ofJson json
        (some v, { r with known := (name, v) :: r.known })
      | none =>
        (none,
          if r.undefined.contains name then r
          else { r with undefined := r.undefined ++ [name] })

def takeUndefined (r : Resolver) : List String × Resolver :=
  (r.undefined, { r with undefined := [] })

def placehold (name : String) (r : Resolver) : Resolver :=
  { r with spec := r.spec.placehold name, known := r.known.filter (·.1 ≠ name) }

def answerer : Script.Inquiry.Answerer Resolver := ⟨resolve, fun r => r.spec.embeddingHeader⟩

end Resolver

end Stencil
