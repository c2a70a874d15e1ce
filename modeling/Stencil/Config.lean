import Stencil.Path
import Stencil.Text.Case

/-!
# Configuration

The options of generation, their defaults, and how environment variables set them.  A variable that
does not hold a usable value leaves the default in place.
-/

namespace Stencil

structure Config where
  /-- How many undefined fields are given a default in one document. -/
  maxAttempts : Nat := 100
  preludeName : String := "_macros.rhai"
  scriptExtension : String := "rhai"
  embedSpec : Bool := false
  /-- Whether `${…}` is left for a later pass. -/
  deferred : Bool := false
  dumpDir : Option Path := none
  /-- The count of operations in one run; no limit if it is zero. -/
  maxOperations : Nat := 0
  deriving DecidableEq, Repr

namespace Config

/-- A number below `bound` in decimal digits, perhaps behind a plus sign. -/
def readNat? (bound : Nat) (text : String) : Option Nat :=
  let digits := match text.toList with
    | '+' :: r => r
    | r => r
  if digits.isEmpty || !digits.all Char.isDigit then none
  else
    let n := digits.foldl (fun n d => n * 10 + (d.toNat - 48)) 0
    if n < bound then some n else none

def readFlag (text : String) : Bool := Text.lower text == "true" || text == "1"

def settings : List (String × (String → Config → Config)) := [
  ("APPGEN_MAX_ATTEMPTS", fun v c =>
    match readNat? 4294967296 v with
    | some n => { c with maxAttempts := n }
    | none => c),
  ("APPGEN_MACRO_FILE", fun v c => if v = "" then c else { c with preludeName := v }),
  ("APPGEN_SCRIPT_EXTENSION", fun v c =>
    if v = "" then c
    else { c with scriptExtension := String.ofList (v.toList.dropWhile (· = '.')) }),
  ("APPGEN_EMBED_SPEC", fun v c => { c with embedSpec := readFlag v }),
  ("APPGEN_DEFERRED", fun v c => { c with deferred := readFlag v }),
  ("APPGEN_DUMP_DIR", fun v c => if v = "" then c else { c with dumpDir := some ⟨v⟩ }),
  ("APPGEN_MAX_OPERATIONS", fun v c =>
    match readNat? 18446744073709551616 v with
    | some n => { c with maxOperations := n }
    | none => c)]

def ofEnvironment (set : List (String × String)) : Config :=
  settings.foldl (fun c (name, apply) =>
    match set.lookup name with
    | some v => apply v c
    | none => c) {}

def isScript (config : Config) (path : Path) : Bool :=
  path.extension? == some config.scriptExtension

end Config

end Stencil
