import Stencil.Text.Blank

/-!
# Environment files

A file of lines `NAME=value` that supplies environment variables which are not set otherwise.  A
value may be quoted, may go over several lines inside quotes, and may refer to other variables by
`$NAME` and `${NAME}`.  At the first line that is no assignment the file ends.
-/

namespace Stencil.Command

/-- Environment variables; the first of a name counts. -/
abbrev Variables := List (String × String)

namespace Variables

/-! ## Logical lines -/

inductive Within where
  | text
  | blank
  | escape
  | weak
  | weakEscape
  | strong
  | strongEscape
  deriving DecidableEq

/-- What a line is inside of behind a character; nothing where a comment begins. -/
def Within.next (w : Within) (c : Char) : Option Within :=
  let opened (c : Char) : Within :=
    if c = '\\' then .escape else if c = '"' then .weak else if c = '\'' then .strong else .text
  match w with
  | .blank => if c = '#' then none else some (opened c)
  | .text =>
    if Text.isBlank c && c ≠ '\n' && c ≠ '\r' then some .blank else some (opened c)
  | .escape => some .text
  | .weak => some (if c = '\\' then .weakEscape else if c = '"' then .text else .weak)
  | .weakEscape => some .weak
  | .strong => some (if c = '\\' then .strongEscape else if c = '\'' then .text else .strong)
  | .strongEscape => some .strong

def withoutEnding (line : List Char) : List Char :=
  match line.reverse with
  | '\n' :: '\r' :: r => r.reverse
  | '\n' :: r => r.reverse
  | _ => line

/--
The lines of a file.  A line that ends inside quotes goes on with the next; `acc` holds in reverse
what was read of the present line.  The second component tells whether the last line is complete.
-/
def logicalLines : Within → List Char → List Char → List (List Char) × Bool
  | w, acc, [] =>
    if acc.isEmpty then ([], true)
    else if w = .text then ([acc.reverse], true) else ([], false)
  | w, acc, c :: r =>
    let fresh := acc.all (fun d => Text.isBlank d)
    if c = '#' && fresh then
      let (lines, done) := logicalLines .text [] ((r.dropWhile (· ≠ '\n')).drop 1)
      ([] :: lines, done)
    else
      match w.next c with
      | none =>
        let (lines, done) := logicalLines .text [] ((r.dropWhile (· ≠ '\n')).drop 1)
        (acc.reverse :: lines, done)
      | some w' =>
        if c = '\n' && w' = .text then
          let (lines, done) := logicalLines .text [] r
          (withoutEnding (c :: acc).reverse :: lines, done)
        else logicalLines w' (c :: acc) r
  termination_by _ _ rest => rest.length
  decreasing_by
    all_goals simp only [List.length_cons, List.length_drop]
    · have := (List.dropWhile_sublist (· ≠ '\n') (l := r)).length_le
      omega
    · have := (List.dropWhile_sublist (· ≠ '\n') (l := r)).length_le
      omega
    · omega
    · omega

/-! ## Values -/

inductive Reference where
  | none
  | plain (name : List Char)
  | braced (name : List Char)

inductive Quotes where
  | none
  | weak
  | strong
  deriving DecidableEq

/-- The value of a variable; one that is not set is empty. -/
def valueOf (vars : Variables) (name : List Char) : List Char :=
  ((vars.lookup (String.ofList name)).getD "").toList

def endsValue : List Char → Bool
  | [] => true
  | c :: r => if c = ' ' || c = '\t' then endsValue r else c = '#'

def readValue (vars : Variables) : Quotes → Reference → List Char → List Char → Option (List Char)
  | .none, .none, acc, [] => some acc.reverse
  | .none, .plain name, acc, [] => some (acc.reverse ++ valueOf vars name)
  | _, _, _, [] => Option.none
  | .strong, ref, acc, c :: r =>
    if c = '\'' then readValue vars .none ref acc r else readValue vars .strong ref (c :: acc) r
  | q, .plain name, acc, c :: r =>
    if c.isAlphanum then readValue vars q (.plain (name ++ [c])) acc r
    else if c = '\x7b' && name = [] then readValue vars q (.braced []) acc r
    else
      let acc := (valueOf vars name).reverse ++ acc
      if c = '$' then readValue vars q (.plain []) acc r
      else readValue vars q .none (c :: acc) r
  | q, .braced name, acc, c :: r =>
    if c = '\x7d' then readValue vars q .none ((valueOf vars name).reverse ++ acc) r
    else readValue vars q (.braced (name ++ [c])) acc r
  | q, .none, acc, '\\' :: c :: r =>
    if ['\\', '\'', '"', '$', ' '].contains c then readValue vars q .none (c :: acc) r
    else if c = 'n' then readValue vars q .none ('\n' :: acc) r
    else Option.none
  | q, .none, acc, c :: r =>
    if c = '$' then readValue vars q (.plain []) acc r
    else if q = .weak then
      if c = '"' then readValue vars .none .none acc r else readValue vars .weak .none (c :: acc) r
    else if c = '\'' then readValue vars .strong .none acc r
    else if c = '"' then readValue vars .weak .none acc r
    else if c = '\\' then some acc.reverse
    else if c = ' ' || c = '\t' then if endsValue r then some acc.reverse else Option.none
    else readValue vars q .none (c :: acc) r

/-! ## Assignments -/

def readName? : List Char → Option (List Char × List Char)
  | [] => none
  | c :: r =>
    if c.isAlpha || c = '_' then
      let part (d : Char) : Bool := d.isAlphanum || d = '_' || d = '.'
      some (c :: r.takeWhile part, r.dropWhile part)
    else none

def readAssigned (vars : Variables) (rest : List Char) : Option (List Char) :=
  match Text.trimLeft rest with
  | '=' :: r =>
    match Text.trimLeft r with
    | [] => some []
    | '#' :: _ => some []
    | r => readValue vars .none .none [] r
  | _ => none

def readLine (vars : Variables) (line : List Char) : Option (Option (String × String)) :=
  let line := Text.trimLeft line
  match line with
  | [] => some none
  | '#' :: _ => some none
  | _ => do
    let (name, rest) ← readName? line
    let (name, rest) ←
      if name = "export".toList && !(Text.trimLeft rest).head?.any (· = '=') then
        readName? (Text.trimLeft rest)
      else some (name, rest)
    let value ← readAssigned vars rest
    return some (String.ofList name, String.ofList value)

def extend (set : Variables) : List (List Char) → Variables → Variables
  | [], found => set ++ found
  | line :: rest, found =>
    match readLine (set ++ found.reverse) line with
    | none => set ++ found
    | some none => extend set rest found
    | some (some entry) => extend set rest (found ++ [entry])

def withFile (set : Variables) (text : String) : Variables :=
  extend set (logicalLines .text [] text.toList).1 []

def words (part : Char → Bool) (text : String) : List String :=
  ((text.toList.splitBy fun a b => part a == part b).filter (·.all part)).map String.ofList

/-- The names that a file sets or may refer to, among other words. -/
def mentioned (text : String) : List String :=
  words (fun c => c.isAlphanum || c = '_' || c = '.') text ++ words Char.isAlphanum text

end Variables

end Stencil.Command
