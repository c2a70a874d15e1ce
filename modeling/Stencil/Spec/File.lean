import Stencil.Spec
import Stencil.Json.Reader
import Stencil.Yaml.Node

/-!
# Spec files

A file with the extension `yaml` or `yml` holds YAML; every other file holds JSON.
-/

namespace Stencil.Spec

def valueOfFile (path : Path) (text : String) : Except Fault Json :=
  if path.extension? = some "yaml" ∨ path.extension? = some "yml" then
    match Yaml.read? text with
    | some v => .ok v
    | none => .error (.yaml "the text holds no single document")
  else
    match Json.read? text with
    | some v => .ok v
    | none => .error (.json "the text holds no value")

def ofFile (tree : FileTree) (path : Path) : Except Fault Spec :=
  if tree.pathExists path then
    match tree.read path with
    | .ok text => valueOfFile path text >>= ofJson
    | .error cause => .error (.file cause)
  else .error (.missingDocument path)

end Stencil.Spec
