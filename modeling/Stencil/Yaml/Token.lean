import Stencil.Yaml.Scalar

/-!
# YAML tokens

A YAML text as a row of tokens.  Indentation shows as tokens that open and close block collections.
A key without a mark of its own is recognised by the colon behind it; its token is then put in front
of the tokens of the key.
-/

namespace Stencil.Yaml

inductive Tag where
  | plainText
  | core (name : String)
  | custom
  deriving DecidableEq

inductive Token where
  | documentStart
  | documentEnd
  | directive
  | blockSequence
  | blockMapping
  | blockEnd
  | flowSequence
  | flowSequenceEnd
  | flowMapping
  | flowMappingEnd
  | entry
  | flowEntry
  | key
  | value
  | alias (name : String)
  | anchor (name : String)
  | tag (tag : Tag)
  /-- A scalar; `plain` if it is written without quotes and indicators. -/
  | scalar (text : String) (plain : Bool)
  deriving DecidableEq

structure KeyStart where
  /-- Whether only a key can begin here. -/
  required : Bool
  /-- The count of tokens before it. -/
  count : Nat
  cursor : Cursor

structure Scan where
  cursor : Cursor
  tokens : Array Token
  /-- The columns of the open block collections, innermost first. -/
  indents : List Nat
  keyAllowed : Bool
  /-- The possible key of each open flow collection, innermost first; the last is that of the block. -/
  keys : List (Option KeyStart)

namespace Scan

def start (text : String) : Scan :=
  ⟨⟨text.toList, 0, 0, 0⟩, #[], [], true, [none]⟩

def inFlow (s : Scan) : Bool := 1 < s.keys.length

def emit (s : Scan) (t : Token) : Scan := { s with tokens := s.tokens.push t }

def skipSpace : Nat → Scan → Scan
  | 0, s => s
  | fuel + 1, s =>
    let c := s.cursor
    let c := if c.index = 0 && c.sees '\ufeff' then { c.next with column := 0 } else c
    let c := c.skipWhile fun x => x = ' ' || (x = '\t' && (s.inFlow || !s.keyAllowed))
    let c := if c.sees '#' then c.skipWhile (fun x => !isBreak x) else c
    if c.atBreak then
      skipSpace fuel
        { s with cursor := c.lineBreak.2, keyAllowed := s.keyAllowed || !s.inFlow }
    else { s with cursor := c }

/-- Gives up possible keys that reach over a line or over 1024 characters. -/
def dropStaleKeys (s : Scan) : Option Scan := do
  let keys ← s.keys.mapM fun
    | none => some none
    | some k =>
      if k.cursor.line < s.cursor.line || k.cursor.index + 1024 < s.cursor.index then
        if k.required then none else some none
      else some (some k)
  return { s with keys }

def unroll (column : Option Nat) (s : Scan) : Scan :=
  if s.inFlow then s
  else
    let deeper := s.indents.takeWhile fun n => match column with
      | some k => k < n
      | none => true
    { s with
      tokens := deeper.foldl (fun ts _ => ts.push .blockEnd) s.tokens
      indents := s.indents.drop deeper.length }

/-- Opens a block collection at `column` unless one is open there; its token goes to `place`. -/
def roll (column : Nat) (place : Nat) (token : Token) (s : Scan) : Scan :=
  if s.inFlow then s
  else
    let deeper : Bool := match s.indents.head? with
      | some n => n < column
      | none => true
    if deeper then
      { s with
        indents := column :: s.indents
        tokens := (s.tokens.toList.take place ++ token :: s.tokens.toList.drop place).toArray }
    else s

def dropKey (s : Scan) : Option Scan :=
  match s.keys with
  | some k :: rest => if k.required then none else some { s with keys := none :: rest }
  | _ => some s

def noteKey (s : Scan) : Option Scan :=
  if s.keyAllowed then do
    let s ← s.dropKey
    let required := !s.inFlow && s.indents.head? = some s.cursor.column
    return { s with keys := some ⟨required, s.tokens.size, s.cursor⟩ :: s.keys.drop 1 }
  else some s

def mark (t : Token) (s : Scan) : Scan := { s.emit t with cursor := s.cursor.next }

def allowKey (allowed : Bool) (s : Scan) : Scan := { s with keyAllowed := allowed }

def documentMarker (t : Token) (s : Scan) : Option Scan := do
  let s ← (s.unroll none).dropKey
  return { (s.emit t).allowKey false with cursor := s.cursor.skip 3 }

def openFlow (t : Token) (s : Scan) : Option Scan := do
  let s ← s.noteKey
  return { (s.mark t).allowKey true with keys := none :: s.keys }

def closeFlow (t : Token) (s : Scan) : Option Scan := do
  let s ← s.dropKey
  let keys := match s.keys with
    | _ :: k :: rest => k :: rest
    | keys => keys
  return { (s.mark t).allowKey false with keys }

def blockEntry (s : Scan) : Option Scan := do
  let s ← if s.inFlow then some s
    else if s.keyAllowed then some (s.roll s.cursor.column s.tokens.size .blockSequence)
    else none
  let s ← s.dropKey
  return (s.mark .entry).allowKey true

def markedKey (s : Scan) : Option Scan := do
  let s ← if s.inFlow then some s
    else if s.keyAllowed then some (s.roll s.cursor.column s.tokens.size .blockMapping)
    else none
  let s ← s.dropKey
  return (s.mark .key).allowKey !s.inFlow

/-- The mark `:` of a value; an unmarked key in front of it gets its token. -/
def valueMark (s : Scan) : Option Scan :=
  match s.keys with
  | some k :: rest =>
    let tokens := s.tokens.toList.take k.count ++ Token.key :: s.tokens.toList.drop k.count
    let s := { s with keys := none :: rest, tokens := tokens.toArray }
    let s := s.roll k.cursor.column k.count .blockMapping
    some ((s.mark .value).allowKey false)
  | _ =>
    if s.inFlow then some ((s.mark .value).allowKey false)
    else if s.keyAllowed then
      some (((s.roll s.cursor.column s.tokens.size .blockMapping).mark .value).allowKey true)
    else none

def isNameChar (c : Char) : Bool := c.isAlphanum || c = '_' || c = '-'

def named (token : String → Token) (s : Scan) : Option Scan := do
  let s ← s.noteKey
  let name := (s.cursor.rest.drop 1).takeWhile isNameChar
  let c := s.cursor.skip (name.length + 1)
  let ends := c.clearAfter 0 || ((c.peek?.map ("?:,]\x7d%@`".toList.contains ·)).getD false)
  if name.isEmpty || !ends then none
  else return { (s.emit (token (String.ofList name))).allowKey false with cursor := c }

def tagOf (text : List Char) : Tag :=
  let core := "!<tag:yaml.org,2002:".toList
  match text with
  | ['!'] => .plainText
  | '!' :: '!' :: name => .core (String.ofList name)
  | _ =>
    if core.isPrefixOf text then .core (String.ofList ((text.drop core.length).takeWhile (· ≠ '>')))
    else .custom

def tagged (s : Scan) : Option Scan := do
  let s ← s.noteKey
  let text := s.cursor.rest.takeWhile fun x =>
    !(isBlank x || isBreak x) && !(s.inFlow && isFlowMark x)
  let c := s.cursor.skip text.length
  return { (s.emit (.tag (tagOf text))).allowKey false with cursor := c }

def blockScalar (folded : Bool) (s : Scan) : Option Scan := do
  let s ← s.dropKey
  let (text, c) ← readBlock folded s.indents.head? s.cursor.next
  return { (s.emit (.scalar (String.ofList text) false)).allowKey true with cursor := c }

def quotedScalar (double : Bool) (s : Scan) : Option Scan := do
  let s ← s.noteKey
  let (text, c) ← readQuoted double (s.cursor.rest.length + 1) [] s.cursor.next
  return { (s.emit (.scalar (String.ofList text) false)).allowKey false with cursor := c }

def plainScalar (s : Scan) : Option Scan := do
  let s ← s.noteKey
  let indent := match s.indents.head? with
    | some n => n + 1
    | none => 0
  let r ← readPlain s.inFlow indent (s.cursor.rest.length + 1) [] Gap.none s.cursor
  return { (s.emit (.scalar (String.ofList r.text) true)).allowKey r.broken with
    cursor := r.cursor }

def plainBegins (s : Scan) : Bool :=
  match s.cursor.peek? with
  | none => false
  | some c =>
    if c = '-' then !s.cursor.clearAfter 1
    else if c = '?' || c = ':' then !s.inFlow && !s.cursor.clearAfter 1
    else !isBlank c && !(",[]\x7b\x7d#&*!|>'\"%@`".toList.contains c)

def next (s : Scan) : Option Scan := do
  let c := s.cursor
  match c.peek? with
  | none => none
  | some x =>
    if c.column = 0 && x = '%' then
      let s ← (s.unroll none).dropKey
      return { (s.emit .directive).allowKey false with
        cursor := c.skipWhile fun x => !isBreak x }
    else if c.atMarker '-' then s.documentMarker .documentStart
    else if c.atMarker '.' then s.documentMarker .documentEnd
    else if x = '[' then s.openFlow .flowSequence
    else if x = '\x7b' then s.openFlow .flowMapping
    else if x = ']' then s.closeFlow .flowSequenceEnd
    else if x = '\x7d' then s.closeFlow .flowMappingEnd
    else if x = ',' then return ((← s.dropKey).mark .flowEntry).allowKey true
    else if x = '-' && c.clearAfter 1 then s.blockEntry
    else if x = '?' && (s.inFlow || c.clearAfter 1) then s.markedKey
    else if x = ':' && (s.inFlow || c.clearAfter 1) then s.valueMark
    else if x = '*' then s.named .alias
    else if x = '&' then s.named .anchor
    else if x = '!' then s.tagged
    else if x = '|' && !s.inFlow then s.blockScalar false
    else if x = '>' && !s.inFlow then s.blockScalar true
    else if x = '\'' then s.quotedScalar false
    else if x = '"' then s.quotedScalar true
    else if s.plainBegins then s.plainScalar
    else none

def run : Nat → Scan → Option (List Token)
  | 0, _ => none
  | fuel + 1, s => do
    let s := skipSpace (s.cursor.rest.length + 1) s
    let s ← s.dropStaleKeys
    let s := s.unroll (some s.cursor.column)
    if s.cursor.ended then
      let s ← (s.unroll none).dropKey
      return s.tokens.toList
    else run fuel (← s.next)

end Scan

def tokens? (text : String) : Option (List Token) :=
  (Scan.start text).run (text.length + 2)

end Stencil.Yaml
