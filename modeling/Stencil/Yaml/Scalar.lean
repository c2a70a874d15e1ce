import Stencil.Yaml.Cursor
import Stencil.Json.Basic
import Stencil.Text.Hex

/-!
# YAML scalars

How plain, quoted and block scalars are read, with their folding of lines, and which value a plain
scalar stands for.
-/

namespace Stencil.Yaml

/-! ## Folding -/

structure Gap where
  blanks : List Char
  broken : Bool
  first : List Char
  further : List Char

def Gap.none : Gap := ⟨[], false, [], []⟩

/-- What a gap becomes: one line break folds to a space, further ones are kept. -/
def Gap.text (g : Gap) : List Char :=
  if g.broken then
    if g.first = ['\n'] then if g.further.isEmpty then [' '] else g.further
    else g.first ++ g.further
  else g.blanks

/--
Reads blanks and line breaks.  A tab in the indentation is refused where `tabs` is given: it is the
column that the text has to reach.
-/
def readGap (tabs : Option Nat) : Nat → Gap → Cursor → Option (Gap × Cursor)
  | 0, g, c => some (g, c)
  | fuel + 1, g, c =>
    if c.atBlank then
      match tabs with
      | some column =>
        if g.broken && c.column < column && c.sees '\t' then none
        else
          readGap tabs fuel
            (if g.broken then g else { g with blanks := g.blanks ++ c.rest.take 1 }) c.next
      | none =>
        readGap tabs fuel
          (if g.broken then g else { g with blanks := g.blanks ++ c.rest.take 1 }) c.next
    else if c.atBreak then
      let (text, c) := c.lineBreak
      readGap tabs fuel
        (if g.broken then { g with further := g.further ++ text }
         else { g with blanks := [], broken := true, first := text }) c
    else some (g, c)

/-! ## Plain scalars -/

def isFlowMark (x : Char) : Bool :=
  x = ',' || x = '[' || x = ']' || x = '\x7b' || x = '\x7d'

def plainEnds (flow : Bool) (c : Cursor) : Bool :=
  match c.rest with
  | [] => true
  | x :: _ =>
    isBlank x || isBreak x || (x = ':' && c.clearAfter 1) || (flow && isFlowMark x)

def plainWord (flow : Bool) : Nat → List Char → Cursor → Option (List Char × Cursor)
  | 0, acc, c => some (acc.reverse, c)
  | fuel + 1, acc, c =>
    match c.rest with
    | ':' :: x :: _ =>
      if flow && (isFlowMark x || x = '?') then none
      else if plainEnds flow c then some (acc.reverse, c)
      else plainWord flow fuel (':' :: acc) c.next
    | x :: _ =>
      if plainEnds flow c then some (acc.reverse, c) else plainWord flow fuel (x :: acc) c.next
    | [] => some (acc.reverse, c)

structure Scanned where
  text : List Char
  cursor : Cursor
  broken : Bool

/-- Reads a plain scalar whose lines are indented to `indent` at least. -/
def readPlain (flow : Bool) (indent : Nat) : Nat → List Char → Gap → Cursor → Option Scanned
  | 0, text, g, c => some ⟨text, c, g.broken⟩
  | fuel + 1, text, g, c =>
    if c.atMarker '-' || c.atMarker '.' || c.sees '#' then some ⟨text, c, g.broken⟩
    else do
      let (word, after) ← plainWord flow (c.rest.length + 1) [] c
      let (text, g) := if word.isEmpty then (text, g) else (text ++ g.text ++ word, Gap.none)
      if !(after.atBlank || after.atBreak) then some ⟨text, after, g.broken⟩
      else
        let (g, c) ← readGap (some indent) (after.rest.length + 1) g after
        if !flow && c.column < indent then some ⟨text, c, g.broken⟩
        else readPlain flow indent fuel text g c

/-! ## Quoted scalars -/

def escape? : Char → Option Char
  | '0' => some '\x00' | 'a' => some '\x07' | 'b' => some '\x08' | 't' => some '\t'
  | '\t' => some '\t' | 'n' => some '\n' | 'v' => some '\x0b' | 'f' => some '\x0c'
  | 'r' => some '\r' | 'e' => some '\x1b' | ' ' => some ' ' | '"' => some '"'
  | '/' => some '/' | '\\' => some '\\' | 'N' => some '\x85' | '_' => some '\u00a0'
  | 'L' => some '\u2028' | 'P' => some '\u2029' | _ => none

def escapeWidth? : Char → Option Nat
  | 'x' => some 2 | 'u' => some 4 | 'U' => some 8 | _ => none

def readEscape (c : Cursor) : Option (Char × Cursor) := do
  let x ← c.peek?
  match escapeWidth? x with
  | some width =>
    let digits := (c.rest.drop 1).take width
    if digits.length < width then none
    else
      let n ← Text.hexNumber? digits
      if (0xD800 ≤ n && n < 0xE000) || 0x10FFFF < n then none
      else some (Char.ofNat n, c.skip (width + 1))
  | none => (escape? x).map (·, c.next)

def readQuoted (double : Bool) : Nat → List Char → Cursor → Option (List Char × Cursor)
  | 0, _, _ => none
  | fuel + 1, text, c =>
    if c.atMarker '-' || c.atMarker '.' then none
    else
      match c.rest with
      | [] => none
      | x :: r =>
        if isBlank x || isBreak x then do
          let (g, c) ← readGap none (c.rest.length + 1) Gap.none c
          readQuoted double fuel (text ++ g.text) c
        else if double then
          if x = '"' then some (text, c.next)
          else if x = '\\' then
            if (r.head?.map isBreak).getD false then do
              let (_, after) := c.next.lineBreak
              let (g, c) ← readGap none (after.rest.length + 1) ⟨[], true, [], []⟩ after
              readQuoted double fuel (text ++ g.further) c
            else do
              let (y, c) ← readEscape c.next
              readQuoted double fuel (text ++ [y]) c
          else readQuoted double fuel (text ++ [x]) c.next
        else if x = '\'' then
          if r.head? = some '\'' then readQuoted double fuel (text ++ ['\'']) (c.skip 2)
          else some (text, c.next)
        else readQuoted double fuel (text ++ [x]) c.next

/-! ## Block scalars -/

inductive Chomping where
  | strip
  | clip
  | keep
  deriving DecidableEq

def blockHeader (c : Cursor) : Option (Chomping × Option Nat × Cursor) :=
  let chomping (c : Cursor) : Option Chomping :=
    if c.sees '+' then some .keep else if c.sees '-' then some .strip else none
  let digit (c : Cursor) : Option (Option Nat) :=
    match c.peek? with
    | some x =>
      if x = '0' then none
      else if x.isDigit then some (some (x.toNat - 48)) else some none
    | none => some none
  match chomping c with
  | some k => do
    match ← digit c.next with
    | some n => some (k, some n, c.skip 2)
    | none => some (k, none, c.next)
  | none => do
    match ← digit c with
    | some n =>
      match chomping c.next with
      | some k => some (k, some n, c.skip 2)
      | none => some (.clip, some n, c.next)
    | none => some (.clip, none, c)

/-- Reads empty lines; a tab in the indentation is refused.  Gives the deepest column reached. -/
def blockBreaks (indent : Option Nat) :
    Nat → Nat → List Char → Cursor → Option (Nat × List Char × Cursor)
  | 0, deepest, acc, c => some (deepest, acc, c)
  | fuel + 1, deepest, acc, c =>
    let width := (c.rest.takeWhile (· = ' ')).length
    let width := match indent with
      | some n => min width (n - c.column)
      | none => width
    let c := c.skip width
    let deepest := max deepest c.column
    if c.sees '\t' && (match indent with | some n => c.column < n | none => true) then none
    else if c.atBreak then
      let (text, c) := c.lineBreak
      blockBreaks indent fuel deepest (acc ++ text) c
    else some (deepest, acc, c)

/-- Reads the lines of a block scalar; `gap` is the last line break, `further` those behind it. -/
def blockLines (folded : Bool) (indent : Nat) :
    Nat → List Char → List Char → List Char → Bool → Cursor →
      Option (List Char × List Char × List Char × Cursor)
  | 0, text, gap, further, _, c => some (text, gap, further, c)
  | fuel + 1, text, gap, further, blankBefore, c =>
    if c.column = indent && !c.ended then do
      let blank := c.atBlank
      let joint :=
        if folded && gap = ['\n'] && !blankBefore && !blank then
          if further.isEmpty then [' '] else []
        else gap
      let line := c.rest.takeWhile (fun x => !isBreak x)
      let c := c.skip line.length
      let (gap, c) := c.lineBreak
      let text := text ++ joint ++ further ++ line
      let (_, further, c) ← blockBreaks (some indent) (c.rest.length + 1) 0 [] c
      blockLines folded indent fuel text gap further blank c
    else some (text, gap, further, c)

/-- Reads a block scalar behind its mark; `parent` is the indentation of the node around it. -/
def readBlock (folded : Bool) (parent : Option Nat) (c : Cursor) :
    Option (List Char × Cursor) := do
  let (chomping, increment, c) ← blockHeader c
  let c := c.skipWhile isBlank
  let c := if c.sees '#' then c.skipWhile (fun x => !isBreak x) else c
  if !(c.atBreak || c.ended) then none
  else
    let c := if c.atBreak then c.lineBreak.2 else c
    let least := match parent with
      | some n => n + 1
      | none => 0
    let given := increment.map fun n =>
      match parent with
      | some p => p + n
      | none => n
    let (deepest, breaks, c) ← blockBreaks given (c.rest.length + 1) 0 [] c
    let indent := given.getD (max (max deepest least) 1)
    let (text, gap, further, c) ←
      blockLines folded indent (c.rest.length + 1) [] [] breaks false c
    some (match chomping with
      | .strip => text
      | .clip => text ++ gap
      | .keep => text ++ gap ++ further, c)

/-! ## Values of plain scalars -/

def isNull (s : List Char) : Bool :=
  [[], ['~'], ['n', 'u', 'l', 'l'], ['N', 'u', 'l', 'l'], ['N', 'U', 'L', 'L']].contains s

def bool? (s : List Char) : Option Bool :=
  if ["true".toList, "True".toList, "TRUE".toList].contains s then some true
  else if ["false".toList, "False".toList, "FALSE".toList].contains s then some false
  else none

def radixDigit? (radix : Nat) (c : Char) : Option Nat :=
  (Text.hexValue? c).bind fun n => if n < radix then some n else none

def radixNumber? (radix : Nat) : List Char → Option Nat
  | [] => none
  | cs => cs.foldl (fun n c => do return radix * (← n) + (← radixDigit? radix c)) (some 0)

/-- Whether a row of digits begins with a needless zero; it is a text then. -/
def paddedDigits (s : List Char) : Bool :=
  let s := match s with
    | '-' :: r | '+' :: r => r
    | r => r
  match s with
  | '0' :: r => !r.isEmpty && r.all Char.isDigit
  | _ => false

def integer? (s : List Char) : Option Int :=
  let (negative, body) := match s with
    | '-' :: r => (true, r)
    | '+' :: r => (false, r)
    | r => (false, r)
  let sign (n : Nat) : Int := if negative then -(n : Int) else n
  match body with
  | '0' :: 'x' :: r => (radixNumber? 16 r).map sign
  | '0' :: 'o' :: r => (radixNumber? 8 r).map sign
  | '0' :: 'b' :: r => (radixNumber? 2 r).map sign
  | r => if paddedDigits s then none else (radixNumber? 10 r).map sign

end Stencil.Yaml
