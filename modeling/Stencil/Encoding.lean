import Stencil.Segment
import Stencil.Text.Quoted

/-!
# Content as statements

A content line becomes a row of statements that append to the accumulator `code`.  In the resolved
form every substitution is evaluated; in the deferred form `${e}` is copied for a later pass and
only `$${e}` is evaluated.  Each evaluated expression is guarded by itself: where it faults, the
text `<UNDEFINED: e>` stands in its place and the rest of the line is still generated.
-/

namespace Stencil

inductive Append where
  | literal (text : String)
  /-- Appends the rendered value of an expression, or the text that says it has none. -/
  | guarded (expr : String)
  deriving DecidableEq, Repr

namespace Append

def fallback (expr : String) : String := "<UNDEFINED: " ++ expr ++ ">"

def script : Append → String
  | .literal text => "code += " ++ Text.literal text ++ ";"
  | .guarded expr =>
    "try \x7b code += _render(" ++ expr ++ "); \x7d catch \x7b code += " ++
      Text.literal (fallback expr) ++ "; \x7d"

/-- Puts a text in front of a row of statements; literal statements never stand side by side. -/
def prepend (text : String) : List Append → List Append
  | .literal t :: rest => .literal (text ++ t) :: rest
  | rest => if text = "" then rest else .literal text :: rest

end Append

namespace Encoding

def ending (terminated : Bool) : List Append := if terminated then [.literal "\n"] else []

/-- The statements of a row of segments, before what `tail` appends. -/
def appends (deferred : Bool) (tail : List Append) : List Segment → List Append
  | [] => tail
  | .text t :: rest => Append.prepend t (appends deferred tail rest)
  | .generation e :: rest => .guarded e :: appends deferred tail rest
  | .emission e :: rest =>
    if deferred then Append.prepend ("$\x7b" ++ e ++ "\x7d") (appends deferred tail rest)
    else .guarded e :: appends deferred tail rest

def statements (deferred : Bool) (line : String) (terminated : Bool) : List Append :=
  appends deferred (ending terminated) (segments line)

def script (deferred : Bool) (line : String) (terminated : Bool) : String :=
  String.intercalate " " ((statements deferred line terminated).map Append.script)

/-- The form in which `${e}` is left for a later pass. -/
def deferred (line : String) (terminated : Bool) : String := script true line terminated

/-- The form in which every substitution is evaluated. -/
def resolved (line : String) (terminated : Bool) : String := script false line terminated

end Encoding

end Stencil
