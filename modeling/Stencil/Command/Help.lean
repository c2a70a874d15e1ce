import Stencil.Command.Arguments

/-!
# Help

How the program and its commands are used.  The options stand in the order of their table, with
what they are for in a column of its own.
-/

namespace Stencil.Command.Help

def version : String := "appgen 0.1.0\n"

/-- The left column of an option: its letter, its name and its value. -/
def spelling (o : Arguments.Declared) : String :=
  let letter := match o.letter with
    | some c => "-" ++ String.singleton c ++ ", "
    | none => "    "
  let value := match o.kind with
    | .flag => ""
    | .single => " <" ++ o.value ++ ">"
    | .several => " <" ++ o.value ++ ">..."
  letter ++ "--" ++ o.name ++ value

def table (rows : List (String × String)) : String :=
  let width := (rows.map (·.1.length)).foldl max 0
  String.join (rows.map fun (left, right) =>
    "  " ++ left.pushn ' ' (width - left.length) ++ "  " ++ right ++ "\n")

def helpRow : String × String := ("-h, --help", "Print help")

def options (os : List Arguments.Declared) : String :=
  "Options:\n" ++ table (os.map (fun o => (spelling o, o.about)) ++ [helpRow])

def aboutRender : String := "Generate output files from documents"

def aboutEmitter : String := "Print the compiled emitter program of a document"

def text : Topic → String
  | .program =>
    "Command line interface for the appgen preprocessor\n\nUsage: appgen <COMMAND>\n\n" ++
    "Commands:\n" ++ table [("render", aboutRender), ("program", aboutEmitter),
      ("help", "Print this message or the help of the given subcommand(s)")] ++
    "\nOptions:\n" ++ table [helpRow, ("-V, --version", "Print version")]
  | .render =>
    aboutRender ++
    "\n\nUsage: appgen render [OPTIONS] --template <TEMPLATES>... --spec <SPEC>\n\n" ++
    options Arguments.renderOptions
  | .emitter =>
    aboutEmitter ++ "\n\nUsage: appgen program --template <TEMPLATE> --spec <SPEC>\n\n" ++
    options Arguments.emitterOptions

end Stencil.Command.Help
