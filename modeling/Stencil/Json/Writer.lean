import Stencil.Json.Basic
import Stencil.Decimal.Layout
import Stencil.Text.Hex

/-!
# Writing JSON

Two forms: on one line in pure ASCII, and laid out over several lines with an indentation of two.
-/

namespace Stencil.Json

/-- The text of a float; there is no JSON for infinite and undefined ones. -/
def writeFloat (x : Float) : String :=
  if Decimal.isFinite x then Decimal.nested.write x else "null"

def escapeUnit (n : Nat) : List Char := '\\' :: 'u' :: Text.hexDigits Text.hexDigit 4 n

/-- How a character stands inside a string; `ascii` tells whether others are escaped too. -/
def escapeChar (ascii : Bool) (c : Char) : List Char :=
  if c = '"' then ['\\', '"']
  else if c = '\\' then ['\\', '\\']
  else if c = '\n' then ['\\', 'n']
  else if c = '\r' then ['\\', 'r']
  else if c = '\t' then ['\\', 't']
  else if c = '\x08' then ['\\', 'b']
  else if c = '\x0c' then ['\\', 'f']
  else if c.toNat < 0x20 then escapeUnit c.toNat
  else if !ascii || c.toNat < 0x7F then [c]
  else if c.toNat < 0x10000 then escapeUnit c.toNat
  else
    let n := c.toNat - 0x10000
    escapeUnit (0xD800 + n / 0x400) ++ escapeUnit (0xDC00 + n % 0x400)

def writeString (ascii : Bool) (s : String) : String :=
  String.ofList ('"' :: (s.toList.flatMap (escapeChar ascii) ++ ['"']))

mutual

/-- The text of a value on one line, in ASCII. -/
def compact : Json → String
  | .null => "null"
  | .bool b => if b then "true" else "false"
  | .integer i => toString i
  | .float x => writeFloat x
  | .string s => writeString true s
  | .array items => "[" ++ String.intercalate "," (compactItems items) ++ "]"
  | .object fields => "\x7b" ++ String.intercalate "," (compactFields fields) ++ "\x7d"

def compactItems : List Json → List String
  | [] => []
  | v :: rest => compact v :: compactItems rest

def compactFields : List (String × Json) → List String
  | [] => []
  | (n, v) :: rest => (writeString true n ++ ":" ++ compact v) :: compactFields rest

end

def indentation (depth : Nat) : String := String.ofList (List.replicate (2 * depth) ' ')

def stacked (opening closing : String) (depth : Nat) (entries : List String) : String :=
  match entries with
  | [] => opening ++ closing
  | _ =>
    opening ++ "\n" ++
      String.intercalate ",\n" (entries.map (indentation (depth + 1) ++ ·)) ++
      "\n" ++ indentation depth ++ closing

mutual

/-- The text of a value over several lines; `ordered` objects keep the order of their fields. -/
def pretty (depth : Nat) : Json → String
  | .null => "null"
  | .bool b => if b then "true" else "false"
  | .integer i => toString i
  | .float x => writeFloat x
  | .string s => writeString false s
  | .array items => stacked "[" "]" depth (prettyItems (depth + 1) items)
  | .object fields => stacked "\x7b" "\x7d" depth (prettyFields (depth + 1) fields)

def prettyItems (depth : Nat) : List Json → List String
  | [] => []
  | v :: rest => pretty depth v :: prettyItems depth rest

def prettyFields (depth : Nat) : List (String × Json) → List String
  | [] => []
  | (n, v) :: rest =>
    (writeString false n ++ ": " ++ pretty depth v) :: prettyFields depth rest

end

end Stencil.Json
