import Stencil.Fault
import Stencil.Script.Display

/-!
# Specs

A spec is the configuration object that documents are generated against.  Its fields are addressed
by their names.  Generation only ever adds fields: an empty object for every field that a document
names and the spec lacks.
-/

namespace Stencil

structure Spec where
  fields : Fields Json

namespace Spec

def empty : Spec := ⟨[]⟩

instance : EmptyCollection Spec := ⟨empty⟩

def kindName : Json → String
  | .null => "null"
  | .bool _ => "a boolean"
  | .integer _ | .float _ => "a number"
  | .string _ => "a string"
  | .array _ => "an array"
  | .object _ => "an object"

def ofJson : Json → Except Fault Spec
  | .object fields => .ok ⟨fields⟩
  | other => .error (.invalidSpec ("expected an object, found " ++ kindName other))

def toJson (spec : Spec) : Json := .object spec.fields

def get? (spec : Spec) (name : String) : Option Json := spec.fields.get? name

def has (spec : Spec) (name : String) : Bool := (spec.get? name).isSome

def names (spec : Spec) : List String := spec.fields.names

def set (spec : Spec) (name : String) (value : Json) : Spec := ⟨spec.fields.insert name value⟩

def placehold (spec : Spec) (name : String) : Spec :=
  if spec.has name then spec else spec.set name (.object [])

/-! ## Views -/

/-- The value at the end of a path of keys, if every step is a field of an object. -/
def view? (spec : Spec) (name : String) (keys : List String) : Option Json :=
  keys.foldl (fun value key => value.bind (Json.field? key)) (spec.get? name)

def view (spec : Spec) (name : String) (keys : List String) : Json :=
  (spec.view? name keys).getD (.object [])

/-! ## Embedding -/

def requestsEmbedding (spec : Spec) : Bool :=
  ((spec.view? "config" ["includeSpecInScripts"]).bind Json.bool?).getD false

def binding (name : String) : String :=
  "let " ++ name ++ " = _spec[" ++ Text.literal name ++ "];\n"

/-- The opening of a block in which the spec is addressable, for a generated script. -/
def embeddingHeader (spec : Spec) : String :=
  "let _spec = " ++ Script.literal spec.toJson ++ ";\n\x7b\n" ++
    String.join ((spec.names.filter Script.isIdentifier).map binding)

end Spec

end Stencil
