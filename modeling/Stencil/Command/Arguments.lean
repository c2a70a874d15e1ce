import Stencil.Path
import Stencil.Config

/-!
# Command line arguments

The two commands and their options.  An option has a long name and perhaps a letter; its value is
the next argument or stands behind an equals sign, and a value does not begin with a dash.
-/

namespace Stencil.Command

structure Rendering where
  templates : List Path
  spec : Path
  output : Option Path
  deferred : Bool
  embedSpec : Bool
  maxAttempts : Option Nat
  dumpDir : Option Path
  report : Option Path
  deriving DecidableEq, Repr

inductive Topic where
  | program
  | render
  | emitter
  deriving DecidableEq, Repr

inductive Request where
  | render (r : Rendering)
  | emitter (template spec : Path)
  | help (topic : Topic)
  | version
  deriving DecidableEq, Repr

namespace Arguments

inductive Kind where
  | flag
  | single
  | several
  deriving DecidableEq, Repr

structure Declared where
  name : String
  letter : Option Char
  kind : Kind
  value : String
  about : String
  deriving DecidableEq, Repr

structure Occurrence where
  name : String
  values : List String
  deriving DecidableEq, Repr

def renderOptions : List Declared := [
  ⟨"template", some 't', .several, "TEMPLATES", "Documents to process"⟩,
  ⟨"spec", some 's', .single, "SPEC", "Spec file (.json, .yaml or .yml)"⟩,
  ⟨"output", some 'o', .single, "OUTPUT",
    "Output directory (prints to stdout if not provided)"⟩,
  ⟨"deferred", none, .flag, "", "Keep $\x7b...\x7d markers for a later pass"⟩,
  ⟨"embed-spec", none, .flag, "", "Embed the spec into the output of script documents"⟩,
  ⟨"max-attempts", none, .single, "MAX_ATTEMPTS",
    "Maximum number of undefined fields defaulted per document"⟩,
  ⟨"dump-dir", none, .single, "DUMP_DIR",
    "Write every compiled emitter program into this directory"⟩,
  ⟨"report", none, .single, "REPORT", "Write a JSON report of the run to this file"⟩]

def emitterOptions : List Declared := [
  ⟨"template", some 't', .single, "TEMPLATE", "Document to compile"⟩,
  ⟨"spec", some 's', .single, "SPEC", "Spec file (.json, .yaml or .yml)"⟩]

/-- Whether an argument is a value and no option; a lone dash is a value. -/
def isValue (arg : String) : Bool :=
  match arg.toList with
  | ['-'] => true
  | '-' :: _ => false
  | _ => true

/-- What an argument says: an option with the value attached to it. -/
inductive Spelled where
  | declared (o : Declared) (attached : Option String)
  | help
  | wrong

def spelled (options : List Declared) (arg : String) : Spelled :=
  match arg.toList with
  | '-' :: '-' :: body =>
    let name := String.ofList (body.takeWhile (· ≠ '='))
    let attached := match body.dropWhile (· ≠ '=') with
      | _ :: v => some (String.ofList v)
      | [] => none
    match options.find? (·.name = name) with
    | some o => .declared o attached
    | none => if name = "help" && attached.isNone then .help else .wrong
  | ['-', 'h'] => .help
  | '-' :: c :: rest =>
    match options.find? (·.letter = some c) with
    | some o =>
      let attached := match rest with
        | [] => none
        | '=' :: v => some (String.ofList v)
        | v => some (String.ofList v)
      .declared o attached
    | none => .wrong
  | _ => .wrong

inductive Parsed where
  | occurrences (os : List Occurrence)
  | help
  | wrong

def Parsed.cons (o : Occurrence) : Parsed → Parsed
  | .occurrences os => .occurrences (o :: os)
  | other => other

def parse (options : List Declared) : List String → Parsed
  | [] => .occurrences []
  | arg :: rest =>
    if arg = "--" then if rest = [] then .occurrences [] else .wrong
    else if isValue arg then .wrong
    else
      match spelled options arg with
      | .help => .help
      | .wrong => .wrong
      | .declared o attached =>
        match o.kind, attached with
        | .flag, none => (parse options rest).cons ⟨o.name, []⟩
        | .flag, some _ => .wrong
        | _, some v => (parse options rest).cons ⟨o.name, [v]⟩
        | .single, none =>
          match rest with
          | v :: more =>
            if isValue v then (parse options more).cons ⟨o.name, [v]⟩ else .wrong
          | [] => .wrong
        | .several, none =>
          let values := rest.takeWhile isValue
          if values = [] then .wrong
          else (parse options (rest.drop values.length)).cons ⟨o.name, values⟩
  termination_by args => args.length
  decreasing_by
    all_goals simp only [List.length_cons, List.length_drop]
    all_goals omega

def repeats (options : List Declared) (os : List Occurrence) : Bool :=
  options.any fun o =>
    o.kind ≠ .several && 1 < (os.filter (·.name = o.name)).length

def valuesOf (os : List Occurrence) (name : String) : List String :=
  (os.filter (·.name = name)).flatMap (·.values)

def has (os : List Occurrence) (name : String) : Bool := os.any (·.name = name)

/-- The value of an option as a path; a path is not empty. -/
def path? (os : List Occurrence) (name : String) : Option (Option Path) :=
  match valuesOf os name with
  | [] => some none
  | v :: _ => if v = "" then none else some (some ⟨v⟩)

def nat? (os : List Occurrence) (name : String) : Option (Option Nat) :=
  match valuesOf os name with
  | [] => some none
  | v :: _ => (Config.readNat? 4294967296 v).map some

def rendering? (os : List Occurrence) : Option Request := do
  let templates := valuesOf os "template"
  if repeats renderOptions os || templates = [] || templates.contains "" then none
  else
    let spec ← (← path? os "spec")
    return .render {
      templates := templates.map Path.mk
      spec
      output := ← path? os "output"
      deferred := has os "deferred"
      embedSpec := has os "embed-spec"
      maxAttempts := ← nat? os "max-attempts"
      dumpDir := ← path? os "dump-dir"
      report := ← path? os "report" }

def emitter? (os : List Occurrence) : Option Request := do
  if repeats emitterOptions os then none
  else
    return .emitter (← (← path? os "template")) (← (← path? os "spec"))

def topic? (command : String) : Option Topic :=
  if command = "render" then some .render
  else if command = "program" then some .emitter
  else none

/-- What the command line asks for; nothing if it is misused. -/
def request? : List String → Option Request
  | "render" :: rest =>
    match parse renderOptions rest with
    | .occurrences os => rendering? os
    | .help => some (.help .render)
    | .wrong => none
  | "program" :: rest =>
    match parse emitterOptions rest with
    | .occurrences os => emitter? os
    | .help => some (.help .emitter)
    | .wrong => none
  | ["help"] => some (.help .program)
  | ["help", command] => (topic? command).map .help
  | arg :: _ =>
    if arg = "--help" || arg = "-h" then some (.help .program)
    else if arg = "--version" || arg = "-V" then some .version
    else none
  | [] => none

end Arguments

end Stencil.Command
