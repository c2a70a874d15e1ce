import Stencil.Document

/-!
# Preludes

Generation code that all documents of a directory share: a file next to the document, placed in
front of its directives.
-/

namespace Stencil

structure Prelude where
  document : Document
  deriving DecidableEq, Repr

namespace Prelude

/-- Whether two paths lead to one file; if one of them leads nowhere, they are compared as such. -/
def sameFile (tree : FileTree) (a b : Path) : Bool :=
  match tree.realPlace a, tree.realPlace b with
  | .ok p, .ok q => p == q
  | _, _ => a == b

/-- The prelude of a document, if there is a file of that name beside it other than itself. -/
def locate (tree : FileTree) (document : Document) (fileName : String) :
    Except Fault (Option Prelude) :=
  let path := document.path.directory.join fileName
  if !tree.isFile path || sameFile tree path document.path then .ok none
  else (Document.read tree path).map fun document => some ⟨document⟩

end Prelude

end Stencil
