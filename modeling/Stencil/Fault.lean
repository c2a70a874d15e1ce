import Stencil.FileTree

/-!
# Faults

What can go wrong when a document is generated.  Refused includes and faults inside single
substitutions are no faults of the document: the former are skipped, the latter leave a placeholder.
-/

namespace Stencil

inductive Fault where
  | missingDocument (path : Path)
  | invalidInclude (document : Path) (reason : String)
  | syntaxError (message location fragment : String)
  | evaluation (message : String)
  /-- The program ran longer than any program may. -/
  | unfinished
  | retryExhausted (attempts : Nat) (missing : List String)
  | invalidSpec (reason : String)
  | file (cause : FileFault)
  | json (message : String)
  | yaml (message : String)
  deriving DecidableEq, Repr

namespace Fault

def message : Fault → String
  | .missingDocument path => "no such file: \"" ++ path.text ++ "\""
  | .invalidInclude document reason =>
    "invalid include in \"" ++ document.text ++ "\": " ++ reason
  | .syntaxError message location fragment =>
    "syntax error at " ++ location ++ ": " ++ message ++ "\n  --> " ++ fragment
  | .evaluation message => "evaluation error: " ++ message
  | .unfinished => "evaluation error: the program does not end"
  | .retryExhausted attempts missing =>
    "giving up after " ++ toString attempts ++ " attempts, undefined variables so far: " ++
      String.intercalate "," missing
  | .invalidSpec reason => "invalid spec: " ++ reason
  | .file cause => "IO error: " ++ cause.message
  | .json message => "JSON error: " ++ message
  | .yaml message => "YAML error: " ++ message

def isDocumentFault : Fault → Bool
  | .syntaxError .. | .evaluation _ | .unfinished | .retryExhausted .. | .invalidInclude .. => true
  | _ => false

end Fault

end Stencil
