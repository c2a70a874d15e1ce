import Stencil.Inclusion
import Stencil.Encoding
import Stencil.Prelude
import Stencil.Resolver

/-!
# Emitters

An emitter is the script that rebuilds the content of a document in the variable `code` while it
runs the directives of the document.  Each directive is one line of it.  Each run of content lines
between two directives is one block, with the deferred encodings of the lines in one branch and the
resolved encodings in the other.  Every line knows the line of the document that it comes from.
-/

namespace Stencil

structure EmitterLine where
  code : String
  origin : Option SourceLine
  deriving DecidableEq, Repr

structure Emitter where
  document : Path
  lines : List EmitterLine
  includes : List Path
  refused : List Path
  deriving DecidableEq, Repr

namespace Emitter

/-! ## Lines -/

def plain (code : String) : EmitterLine := ⟨code, none⟩

def encoded (deferred : Bool) (run : List SourceLine) : List EmitterLine :=
  run.map fun line => ⟨Encoding.script deferred line.text line.terminated, some line⟩

/-- The block of a run of content lines; there is none for an empty run. -/
def block (run : List SourceLine) : List EmitterLine :=
  if run.isEmpty then []
  else
    plain ("if " ++ Resolver.modeName ++ " \x7b") :: encoded true run ++
      plain "\x7d else \x7b" :: encoded false run ++ [plain "\x7d"]

/-- Whether a content line adds nothing: an empty piece behind the last newline. -/
def isVoid (line : SourceLine) : Bool := line.text.isEmpty && !line.terminated

/-- The lines of directives and of the content between them; `run` is the content gathered so far. -/
def body (run : List SourceLine) : List (SourceLine × Line) → List EmitterLine
  | [] => []
  | (line, kind) :: rest =>
    match kind.code? with
    | some code => block run ++ ⟨code, some line⟩ :: body [] rest
    | none => body (if isVoid line then run else run ++ [line]) rest

/-- The directive without code behind the last line of a document, which ends the last run. -/
def closing (document : Document) : SourceLine :=
  ⟨"//! ", document.path, document.lines.length + 1, false⟩

def opening (document : Document) (prelude : Option Prelude) (embed : Bool) : List EmitterLine :=
  [plain ("// emitter program for " ++ document.path.text), plain "let code = \"\";"] ++
    (if embed then [plain "code += _spec_header();"] else []) ++
    match prelude with
    | some p => p.document.lines.map fun line => ⟨line.text, some line⟩
    | none => []

def ending (embed : Bool) : List EmitterLine :=
  (if embed then
    [plain "if !code.ends_with(\"\\n\") \x7b code += \"\\n\"; \x7d",
      plain "code += \"\x7d\\n\";"]
  else []) ++ [plain "code"]

def compile (tree : FileTree) (spec : Spec) (prelude : Option Prelude) (embed : Bool)
    (document : Document) : Except Fault Emitter := do
  let lines := document.lines ++ [closing document]
  let e ← Expansion.ofLines tree spec [tree.canonical document.path] lines
  return {
    document := document.path
    lines := opening document prelude embed ++ body [] e.lines ++ ending embed
    includes := e.included
    refused := e.refused }

/-! ## Views -/

def source (emitter : Emitter) : String :=
  String.intercalate "\n" (emitter.lines.map (·.code))

/-- The document line behind a line of the script; lines are counted from one. -/
def origin? (emitter : Emitter) (line : Nat) : Option SourceLine :=
  if line = 0 then none else emitter.lines[line - 1]?.bind (·.origin)

def chomp (text : List Char) : List Char :=
  if text.getLast? = some '\r' then text.dropLast else text

def line? (emitter : Emitter) (line : Nat) : Option String :=
  let pieces := Document.pieces emitter.source.toList
  let pieces := if pieces.getLast? = some [] then pieces.dropLast else pieces
  pieces[line - 1]?.map fun p => String.ofList (chomp p)

def syntaxFault (emitter : Emitter) (message : String) (line : Option Nat) : Fault :=
  match line.bind emitter.origin? with
  | some origin => .syntaxError message origin.location origin.text
  | none =>
    .syntaxError message emitter.document.text
      ((line.bind emitter.line?).getD "<end of document>")

def describe (emitter : Emitter) (failure : Script.Failure) : String :=
  match failure.pos?.bind fun p => emitter.origin? p.line with
  | some origin =>
    failure.message ++ " (" ++ origin.location ++ ": `" ++ Text.trim origin.text ++ "`)"
  | none => failure.message ++ " (" ++ emitter.document.text ++ ")"

end Emitter

end Stencil
