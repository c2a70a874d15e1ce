import Stencil.Script.Token
import Stencil.Script.Word
import Stencil.Text.Blank
import Stencil.Text.Hex
import Stencil.Decimal.Reading

/-!
# From text to tokens

A script is split into tokens with their places.  White space and comments separate tokens.  Inside
a back-tick string `${` begins an expression, whose tokens follow the piece before it; at the closing
brace the string goes on.  Text that is no token ends the row.
-/

namespace Stencil.Script

namespace Lexer

/-! ## Gaps between tokens -/

inductive Gap where
  | space
  | line
  /-- Comments between marks; they nest. -/
  | block (depth : Nat)

/-- Skips white space and comments.  A comment to the end of the line ends at a carriage return too. -/
def skipGap : Gap → Pos → List Char → Pos × List Char
  | _, p, [] => (p, [])
  | .space, p, '/' :: '/' :: r => skipGap .line p.right.right r
  | .space, p, '/' :: '*' :: r => skipGap (.block 1) p.right.right r
  | .space, p, c :: r => if Text.isBlank c then skipGap .space (p.past c) r else (p, c :: r)
  | .line, p, '\r' :: '\n' :: r => skipGap .space p.down r
  | .line, p, c :: r =>
    if c = '\n' || c = '\r' then skipGap .space p.down r else skipGap .line p.right r
  | .block depth, p, '/' :: '*' :: r => skipGap (.block (depth + 1)) p.right.right r
  | .block depth, p, '*' :: '/' :: r =>
    skipGap (if depth ≤ 1 then .space else .block (depth - 1)) p.right.right r
  | .block depth, p, c :: r => skipGap (.block depth) (p.past c) r

/-! ## Strings -/

inductive Quote where
  | closed (text : List Char) (pos : Pos) (rest : List Char)
  /-- The piece before an expression; the brace that opens it comes next. -/
  | opened (text : List Char) (pos : Pos) (rest : List Char)
  | broken (reason : String) (pos : Pos)

def unterminated : String := "Open string is not terminated"

def badEscape (escape : List Char) : String :=
  "Invalid escape sequence: '" ++ String.ofList escape ++ "'"

def Quote.cons (c : Char) : Quote → Quote
  | .closed text p r => .closed (c :: text) p r
  | .opened text p r => .opened (c :: text) p r
  | .broken reason p => .broken reason p

def escapeWidth? (c : Char) : Option Nat :=
  if c = 'x' then some 2 else if c = 'u' then some 4 else if c = 'U' then some 8 else none

def escaped? (width : Nat) (cs : List Char) : Option Char :=
  let digits := cs.take width
  if digits.length < width then none
  else
    match Text.hexNumber? digits with
    | some n => if n < 0xD800 || (0xE000 ≤ n && n < 0x110000) then some (Char.ofNat n) else none
    | none => none

def shortEscape? (closing c : Char) : Option Char :=
  if c = '\\' then some '\\'
  else if c = 't' then some '\t'
  else if c = 'n' then some '\n'
  else if c = 'r' then some '\r'
  else if c = closing then some closing
  else none

/--
Reads a string behind its opening quote.  `start` is where it began; white space before the column
`margin` is skipped on a continued line.  A doubled quote stands for itself.
-/
def quoted (closing : Char) (continues : Bool) (start : Pos) (margin : Nat) (p : Pos)
    (cs : List Char) : Quote :=
  match cs with
  | [] => .broken unterminated start
  | c :: r =>
    if c = closing then
      match r with
      | d :: r' =>
        if d = closing then (quoted closing continues start 0 p.right.right r').cons closing
        else .closed [] p.right r
      | [] => .closed [] p.right []
    else if c = '\\' then
      match r with
      | [] => .broken unterminated start
      | e :: r' =>
        if e = '\n' then
          if continues then quoted closing continues start (start.column + 1) p.down r'
          else .broken unterminated start
        else
          match escapeWidth? e with
          | some width =>
            match escaped? width r' with
            | some x =>
              (quoted closing continues start 0 ⟨p.line, p.column + 2 + width⟩
                (r'.drop width)).cons x
            | none => .broken (badEscape ('\\' :: e :: r'.take width)) p
          | none =>
            match shortEscape? closing e with
            | some x => (quoted closing continues start 0 p.right.right r').cons x
            | none => .broken (badEscape ['\\', e]) p
    else if c = '\n' then .broken unterminated start
    else if c = '\r' && r.head? = some '\n' then quoted closing continues start margin p.right r
    else if Text.isBlank c && p.column < margin then
      quoted closing continues start margin p.right r
    else (quoted closing continues start 0 p.right r).cons c
  termination_by cs.length

def verbatim (start : Pos) : Pos → List Char → Quote
  | _, [] => .broken unterminated start
  | p, '`' :: '`' :: r => (verbatim start p.right.right r).cons '`'
  | p, '`' :: r => .closed [] p.right r
  | p, '$' :: '\x7b' :: r => .opened [] p.right ('\x7b' :: r)
  | p, '\r' :: '\n' :: r => (verbatim start p.down r).cons '\n'
  | p, c :: r => (verbatim start (p.past c) r).cons c

/-- Reads a string between marks of `count` hash signs, in which nothing is escaped. -/
def raw (count : Nat) (start : Pos) : Pos → List Char → Quote
  | _, [] => .broken unterminated start
  | p, c :: r =>
    if c = '"' && (r.take count) == List.replicate count '#' then
      .closed [] ⟨p.line, p.column + 1 + count⟩ (r.drop count)
    else (raw count start (p.past c) r).cons c

/-- A line break right behind the opening back-tick is no part of the string. -/
def skipFirstBreak (p : Pos) : List Char → Pos × List Char
  | '\r' :: '\n' :: r => (p.down, r)
  | '\r' :: r => (p.down, r)
  | '\n' :: r => (p.down, r)
  | r => (p, r)

/-! ## Numbers -/

def digits (valid : Char → Bool) (cs : List Char) : List Char × List Char :=
  let taken := cs.takeWhile fun c => valid c || c = '_'
  (taken.filter (· ≠ '_'), cs.dropWhile fun c => valid c || c = '_')

def radix? (c : Char) : Option Nat :=
  if c = 'x' || c = 'X' then some 16
  else if c = 'o' || c = 'O' then some 8
  else if c = 'b' || c = 'B' then some 2
  else none

def isRadixDigit (radix : Nat) (c : Char) : Bool :=
  match Text.hexValue? c with
  | some n => n < radix
  | none => false

def numberIn (radix : Nat) (cs : List Char) : Nat :=
  cs.foldl (fun n c => n * radix + (Text.hexValue? c).getD 0) 0

/-- Reads the part of a number behind its leading digits: a fraction, unless a name or a range follows. -/
def fraction (cs : List Char) : Option (List Char × List Char) :=
  match cs with
  | '.' :: c :: r =>
    if c.isDigit then some (digits Char.isDigit (c :: r))
    else if c = '_' || c = '.' || isNameStart c then none
    else some (['0'], c :: r)
  | _ => none

def exponent (cs : List Char) : Option (List Char × List Char) :=
  match cs with
  | 'e' :: c :: r =>
    if c.isDigit then
      let (ds, r) := digits Char.isDigit (c :: r)
      some ('e' :: ds, r)
    else if c = '+' || c = '-' then
      let (ds, r) := digits Char.isDigit r
      some ('e' :: c :: ds, r)
    else none
  | _ => none

def fractionPart (cs : List Char) : List Char × List Char :=
  match fraction cs with
  | some (ds, r) => ('.' :: ds, r)
  | none => ([], cs)

def exponentPart (cs : List Char) : List Char × List Char := (exponent cs).getD ([], cs)

def noNumber (cs rest : List Char) : String :=
  "Invalid number: '" ++ String.ofList (cs.take (cs.length - rest.length)) ++ "'"

def signed (negative : Bool) (n : Nat) : Int := if negative then -(n : Int) else n

/-- Reads a decimal number.  One that is too large for an integer is a float. -/
def decimal (negative : Bool) (cs : List Char) : Token × List Char :=
  let (whole, r) := digits Char.isDigit cs
  let (part, r) := fractionPart r
  let (power, r) := exponentPart r
  let value := signed negative (Decimal.natOfDigits whole)
  if part.isEmpty && power.isEmpty && fitsInt value then (.int value, r)
  else
    match Decimal.readUnsigned? (whole ++ part ++ power) with
    | some x => (.float (if negative then -x else x), r)
    | none => (.bad (noNumber cs r), r)

/-- Reads a number that begins with a digit. -/
def number (negative : Bool) (cs : List Char) : Token × List Char :=
  match cs with
  | '0' :: c :: r =>
    match radix? c with
    | some radix =>
      let (ds, r) := digits (isRadixDigit radix) r
      if ds.isEmpty || negative || Word.count ≤ numberIn radix ds then (.bad (noNumber cs r), r)
      else (.int (Word.ofBits (numberIn radix ds)), r)
    | none => decimal negative cs
  | _ => decimal negative cs

/-! ## Signs -/

/-- The signs, longer ones before those they begin with. -/
def signs : List String := [
  "...", "..=", "===", "!==", "**=", "<<=", ">>=", "::<", "(*", "*)", "()", "#\x7b", "#!", "++",
  "--", "+=", "-=", "->", "*=", "**", "/=", "..", "==", "=>", "::", ":=", ":;", "<=", "<-", "<<",
  "<|", ">=", ">>", "!=", "!.", "||", "|=", "|>", "&&", "&=", "^=", "%=", "?.", "??", "?[",
  "\x7b", "\x7d", "(", ")", "[", "]", "#", "+", "-", "*", "/", ";", ",", ".", "=", ":", "<", ">",
  "!", "|", "&", "^", "%", "~", "@", "$", "?"]

def reservedSigns : List String := [
  "...", "===", "!==", "::<", "(*", "*)", "#!", "#", "++", "--", "->", ":=", ":;", "<-", "<|",
  "!.", "|>", "~", "@", "$", "?"]

def reservedSign (sign : String) : String := "'" ++ sign ++ "' is a reserved symbol"

def firstSign (cs : List Char) : List String → Option (String × List Char)
  | [] => none
  | s :: rest =>
    if s.toList.isPrefixOf cs then some (s, cs.drop s.length) else firstSign cs rest

/-! ## The row of tokens -/

structure State where
  pos : Pos
  operand : Bool
  /-- For each open back-tick string, innermost first, how many braces its expression has open. -/
  depths : List Nat
  inText : Bool

def State.behind (s : State) (t : Token) (p : Pos) : State :=
  match t, s.depths with
  | .sign "\x7b", d :: ds => ⟨p, t.endsOperand, (d + 1) :: ds, false⟩
  | .sign "#\x7b", d :: ds => ⟨p, t.endsOperand, (d + 1) :: ds, false⟩
  | .sign "\x7d", d :: ds =>
    if d ≤ 1 then ⟨p, true, ds, true⟩ else ⟨p, true, (d - 1) :: ds, false⟩
  | .opening _, ds => ⟨p, false, 0 :: ds, false⟩
  | t, ds => ⟨p, t.endsOperand, ds, false⟩

def advance (p : Pos) (before after : List Char) : Pos :=
  ⟨p.line, p.column + (before.length - after.length)⟩

def ofQuote (start : Pos) : Quote → Placed × Pos × List Char
  | .closed text p r => (⟨.text (String.ofList text), start⟩, p, r)
  | .opened text p r => (⟨.opening (String.ofList text), start⟩, p, r)
  | .broken reason p => (⟨.bad reason, p⟩, p, [])

def token (operand : Bool) (p : Pos) (c : Char) (r : List Char) : Placed × Pos × List Char :=
  let cs := c :: r
  let simple (t : Token) (rest : List Char) : Placed × Pos × List Char :=
    (⟨t, p⟩, advance p cs rest, rest)
  if c = '"' then ofQuote p (quoted '"' true p 0 p.right r)
  else if c = '`' then
    let (q, r) := skipFirstBreak p.right r
    ofQuote p (verbatim p q r)
  else if c = '\'' then
    if r.head? = some '\'' then simple (.bad "Invalid character: ''") r
    else
      match quoted '\'' false p 0 p.right r with
      | .closed [x] q r => (⟨.char x, p⟩, q, r)
      | .broken reason q => (⟨.bad reason, q⟩, q, [])
      | _ => simple (.bad "Invalid character: ''") r
  else if isNameStart c then
    simple (tokenOfWord (String.ofList (cs.takeWhile isNamePart))) (cs.dropWhile isNamePart)
  else if c.isDigit then
    let (t, rest) := number false cs
    simple t rest
  else if c = '-' && !operand && (r.head?.map Char.isDigit).getD false then
    let (t, rest) := number true r
    simple t rest
  else if c = '#' && (r.dropWhile (· = '#')).head? = some '"' then
    let count := 1 + (r.takeWhile (· = '#')).length
    ofQuote p (raw count p ⟨p.line, p.column + count + 1⟩ (r.drop count))
  else if ['!', 'i', 'n'].isPrefixOf cs && !((cs.drop 3).head?.map isNamePart).getD false then
    simple (.sign "!in") (cs.drop 3)
  else
    match firstSign cs signs with
    | some (s, rest) =>
      if reservedSigns.contains s then simple (.bad (reservedSign s)) rest
      else simple (.sign s) rest
    | none => simple (.bad ("Unexpected '" ++ String.singleton c ++ "'")) r

def scan (s : State) (cs : List Char) : List Placed :=
  if s.inText then
    let (t, p, rest) := ofQuote s.pos (verbatim s.pos s.pos cs)
    if rest.length < cs.length then t :: scan (s.behind t.token p) rest
    else [t]
  else
    match skipGap .space s.pos cs with
    | (p, []) => [⟨.ended, p⟩]
    | (p, c :: r) =>
      let (t, q, rest) := token s.operand p c r
      match t.token with
      | .bad _ => [t]
      | _ => if rest.length < cs.length then t :: scan (s.behind t.token q) rest else [t]
  termination_by cs.length

end Lexer

def tokens (script : String) : List Placed :=
  Lexer.scan ⟨Pos.start, false, [], false⟩ script.toList

end Stencil.Script
