import Stencil.Script.Grammar

/-!
# Reading scripts

The functions below read the parts of a script one by one; each calls others with less fuel, and the
fuel that `parse` supplies is more than the tokens of the script can use up.  Functions are read at
the top level only, closures wherever an expression stands.  The body of a closure becomes a
function whose first parameters are the variables it captures.
-/

namespace Stencil.Script

open Reader

namespace Parser

def closureName (count : Nat) : String := "anon$" ++ toString count

def isClosureName (name : String) : Bool := "anon$".toList.isPrefixOf name.toList

def noBlock : Reader Unit := do
  let p ← peek
  if p.token = .sign "\x7b" then fail "Expecting a boolean expression" p.pos

def noAssignment : Reader Unit := do
  let p ← peek
  if p.token = .sign "=" then fail "Possibly a typo of '=='?" p.pos
  else if (assignmentOperator? p.token).isSome then
    fail "Expecting a boolean expression, not an assignment" p.pos

def asCondition (e : Expr) : Reader Expr :=
  if e.maybeBool then pure e else e.refused "a boolean expression"

def combine (op : Token) (left right : Expr) (pos : Pos) : Reader Expr :=
  match op with
  | .sign s =>
    if s = "||" then do return .either (← asCondition left) (← asCondition right) pos
    else if s = "&&" then do return .both (← asCondition left) (← asCondition right) pos
    else if s = "??" then return .coalesce left right pos
    else if s = "!in" then
      return .operator "!" [.operator "contains" [right, left] left.pos] left.pos
    else return .operator s [left, right] pos
  | _ => return .operator "contains" [right, left] left.pos

def addStep (root : Expr) (open_ : Bool) (step : Step) : Expr :=
  match root, open_ with
  | .chain r steps, true => .chain r (steps ++ [step])
  | e, _ => .chain e [step]

def functionLimit : Nat := 24

def duplicated (name : String) : String := "Duplicated variable name: '" ++ name ++ "'"

def redefined (name : String) (params : Nat) : String :=
  "Function " ++ name ++
    (if params = 0 then "" else if params = 1 then " with 1 parameter"
      else " with " ++ toString params ++ " parameters") ++ " already exists"

def noIndex : String := "Invalid index in indexing expression"

def openArguments (function : String) : String :=
  missing ")" ("to close the arguments list of this function call '" ++ function ++ "'")

def openArray : String := missing "]" "to end this array literal"

def openMap : String := missing "\x7d" "to end this object map literal"

def outsideLoop : String := "Break statement should only be used inside a loop"

def innerFunction : String :=
  "Function definitions must be at global level and cannot be inside a block or another function"

def loopNames : Reader (String × Option String) := do
  if ← accept (.sign "(") then
    let (name, _) ← variableName
    let _ ← expect (.sign ",") "after the iteration variable name"
    let (counter, p) ← variableName
    if counter = name then fail (duplicated counter) p
    let _ ← expect (.sign ")") "to close the iteration variable"
    return (name, some counter)
  else
    let (name, _) ← variableName
    return (name, none)

def pattern (e : Expr) : Reader Value :=
  match e.literal? with
  | some v => pure v
  | none => fail "Expecting a literal expression" e.pos

/-- The value that a token denotes alone. -/
def constant? : Token → Option Value
  | .sign "()" => some .unit
  | .word "true" => some (.bool true)
  | .word "false" => some (.bool false)
  | .int i => some (.int i)
  | .float x => some (.float x)
  | .char c => some (.char c)
  | .text s => some (.string s)
  | _ => none

mutual

def statement : Nat → Around → Reader Stmt
  | 0, _ => tooDeep
  | fuel + 1, a => do
    let p ← peek
    match p.token with
    | .ended => return .skip p.pos
    | .sign ";" => do let _ ← take; return .skip p.pos
    | .sign "\x7b" => do block fuel (← a.deeper)
    | .word "fn" => if a.top then definition fuel p.pos else fail innerFunction p.pos
    | .word "private" =>
      if a.top then do
        let _ ← take
        let q ← peek
        if q.token = .word "fn" then definition fuel q.pos else refuse (missing "fn" "following 'private'") q
      else fail innerFunction p.pos
    | .word "if" => do branch fuel (← a.deeper)
    | .word "switch" => do selection fuel (← a.deeper)
    | .word "while" => do whileLoop fuel (← a.deeper)
    | .word "loop" => do endless fuel (← a.deeper)
    | .word "do" => do doLoop fuel (← a.deeper)
    | .word "for" => do forLoop fuel (← a.deeper)
    | .word "continue" =>
      if a.inLoop then do let _ ← take; return .next p.pos
      else fail outsideLoop p.pos
    | .word "break" =>
      if a.inLoop then do
        let _ ← take
        if ← sees [.ended, .sign "\x7d", .sign ";"] then return .leave none p.pos
        else return .leave (some (← expression fuel a.inner)) p.pos
      else fail outsideLoop p.pos
    | .word "return" => do let _ ← take; return .ret (← result fuel a) p.pos
    | .word "throw" => do let _ ← take; return .throw (← result fuel a) p.pos
    | .word "try" => do attempt fuel (← a.deeper)
    | .word "let" => declaration fuel a.inner false
    | .word "const" => declaration fuel a.inner true
    | .word "import" => do
      let _ ← take
      let path ← expression fuel (← a.inner.deeper)
      if ← accept (.word "as") then
        let _ ← variableName
      return .load path p.pos
    | .word "export" =>
      if a.top then do
        let _ ← take
        let (name, _) ← variableName
        if ← accept (.word "as") then
          let _ ← variableName
        mention name p.pos
        return .expr (.const .unit p.pos)
      else fail "Export statement can only appear at global level" p.pos
    | _ => do
      let target ← expression fuel a.inner
      let q ← peek
      if q.token = .sign "=" then
        let _ ← take
        assignment none target (← expression fuel a.inner) q.pos
      else
        match assignmentOperator? q.token with
        | some op => do
          let _ ← take
          assignment (some op) target (← expression fuel a.inner) q.pos
        | none => return .expr target

def result : Nat → Around → Reader (Option Expr)
  | 0, _ => tooDeep
  | fuel + 1, a => do
    if ← sees [.ended, .sign ";"] then return none
    else if !a.top && (← sees [.sign "\x7d"]) then return none
    else return some (← expression fuel a.inner)

/-- Reads statements up to the brace that closes their block; `acc` holds them in reverse. -/
def statements : Nat → Around → List Stmt → Reader (List Stmt)
  | 0, _, _ => tooDeep
  | fuel + 1, a, acc => do
    if ← accept (.sign "\x7d") then return acc.reverse
    else
      let p ← peek
      if p.token = .ended then fail (missing "\x7d" "to terminate this block") p.pos
      else
        let s ← statement fuel a
        if s.isSkip then statements fuel a acc
        else if ← accept (.sign "\x7d") then return (s :: acc).reverse
        else if s.endsItself then statements fuel a (s :: acc)
        else
          let _ ← expect (.sign ";") "to terminate this statement"
          statements fuel a (s :: acc)

def block : Nat → Around → Reader Stmt
  | 0, _ => tooDeep
  | fuel + 1, a => do
    let p ← expect (.sign "\x7b") "to start a statement block"
    let a ← a.inner.deeper
    return .block (← enclosed (statements fuel a [])) p

def declaration : Nat → Around → Bool → Reader Stmt
  | 0, _, _ => tooDeep
  | fuel + 1, a, constant => do
    let p ← take
    let (name, pos) ← variableName
    let value ← if ← accept (.sign "=") then expression fuel a else pure (.const .unit pos)
    Reader.bind name constant
    return .declare name value constant p.pos

def branch : Nat → Around → Reader Stmt
  | 0, _ => tooDeep
  | fuel + 1, a => do
    let p ← take
    let condition ← condition fuel a
    let yes ← block fuel a
    if ← accept (.word "else") then
      if (← peek).token = .word "if" then return .branch condition yes (← branch fuel a) p.pos
      else return .branch condition yes (← block fuel a) p.pos
    else return .branch condition yes (.skip p.pos) p.pos

def condition : Nat → Around → Reader Expr
  | 0, _ => tooDeep
  | fuel + 1, a => do
    noBlock
    let e ← expression fuel a.inner
    let e ← asCondition e
    noAssignment
    return e

def whileLoop : Nat → Around → Reader Stmt
  | 0, _ => tooDeep
  | fuel + 1, a => do
    let p ← take
    let c ← condition fuel a
    return .repeatWhile c (← block fuel { a with inLoop := true }) p.pos

def endless : Nat → Around → Reader Stmt
  | 0, _ => tooDeep
  | fuel + 1, a => do
    let p ← take
    return .loop (← block fuel { a with inLoop := true }) p.pos

def doLoop : Nat → Around → Reader Stmt
  | 0, _ => tooDeep
  | fuel + 1, a => do
    let p ← take
    let body ← block fuel { a with inLoop := true }
    let q ← take
    if q.token = .word "while" then
      return .repeatAfter body (← condition fuel a) true p.pos
    else if q.token = .word "until" then
      return .repeatAfter body (← condition fuel a) false p.pos
    else refuse (missing "while" "for the do statement") q

def forLoop : Nat → Around → Reader Stmt
  | 0, _ => tooDeep
  | fuel + 1, a => do
    let p ← take
    let (name, counter) ← loopNames
    let _ ← expect (.word "in") "after the iteration variable"
    noBlock
    let subject ← expression fuel a.inner
    if !subject.maybeIterable then subject.refused "an iterable type"
    enclosed do
      match counter with
      | some c => Reader.bind c false
      | none => pure ()
      Reader.bind name false
      return .each name counter subject (← block fuel { a with inLoop := true }) p.pos

def attempt : Nat → Around → Reader Stmt
  | 0, _ => tooDeep
  | fuel + 1, a => do
    let p ← take
    let body ← block fuel a
    let _ ← expect (.word "catch") "for the 'try' statement"
    if ← accept (.sign "(") then
      let (name, _) ← variableName
      let _ ← expect (.sign ")") "to enclose the catch variable"
      enclosed do
        Reader.bind name false
        return .attempt body (some name) (← block fuel a) p.pos
    else return .attempt body none (← block fuel a) p.pos

def selection : Nat → Around → Reader Stmt
  | 0, _ => tooDeep
  | fuel + 1, a => do
    let p ← take
    let subject ← expression fuel a.inner
    let _ ← expect (.sign "\x7b") "to start a switch block"
    return .select subject (← cases fuel a none []) p.pos

/-- Reads the cases of a selection; `last` is where the default case stands, if it was read. -/
def cases : Nat → Around → Option Pos → List Case → Reader (List Case)
  | 0, _, _, _ => tooDeep
  | fuel + 1, a, last, acc => do
    let p ← peek
    if p.token = .sign "\x7d" then
      let _ ← take
      return acc.reverse
    else if p.token = .ended then fail (missing "\x7d" "to end this switch block") p.pos
    else
      match last with
      | some q => fail "Default switch case must be the last" (if p.token = .sign "_" then p.pos else q)
      | none =>
        let isDefault := p.token = .sign "_"
        let (patterns, guard) ←
          if isDefault then do
            let _ ← take
            let q ← peek
            if q.token = .word "if" then fail "This switch case cannot have a condition" q.pos
            pure ([], Expr.const (.bool true) p.pos)
          else do
            let patterns ← patternList fuel { a with inPattern := true } []
            if ← accept (.word "if") then
              let g ← condition fuel a
              pure (patterns, g)
            else pure (patterns, Expr.const (.bool true) p.pos)
        let _ ← expect (.sign "=>") "in this switch case"
        let body ← statement fuel a.inner
        let acc := Case.mk (← patterns.mapM pattern) guard body :: acc
        let last := if isDefault then some p.pos else none
        let q ← peek
        if q.token = .sign "," then
          let _ ← take
          cases fuel a last acc
        else if q.token = .sign "\x7d" || (body.endsItself && q.token ≠ .ended) then
          cases fuel a last acc
        else refuse (missing "," "to separate the items in this switch block") q

def patternList : Nat → Around → List Expr → Reader (List Expr)
  | 0, _, _ => tooDeep
  | fuel + 1, a, acc => do
    let e ← expression fuel a.inner
    if ← accept (.sign "|") then patternList fuel a (e :: acc)
    else return (e :: acc).reverse

def definition : Nat → Pos → Reader Stmt
  | 0, _ => tooDeep
  | fuel + 1, p => do
    let _ ← take
    let n ← take
    match n.token with
    | .name name =>
      let params ← if ← accept (.sign "()") then pure []
        else do
          let _ ← expect (.sign "(") ("to start the parameters list of function '" ++ name ++ "'")
          if ← accept (.sign ")") then pure [] else parameters fuel (.sign ")") []
      let q ← peek
      if q.token ≠ .sign "\x7b" then
        refuse ("Expecting body statement block for function '" ++ name ++ "'") q
      let outer ← get
      set { outer with vars := params.reverse.map (·, false), free := [] }
      let body ← block fuel ⟨false, false, true, false, 0, functionLimit⟩
      modify fun r => { r with vars := outer.vars, free := outer.free }
      let known := (← get).functions
      if known.any fun f => f.name = name && f.params.length = params.length then
        fail (redefined name params.length) q.pos
      modify fun r => { r with functions := ⟨name, params, body⟩ :: r.functions }
      return .skip p
    | _ => refuse "Expecting function name in function declaration" n

/-- Reads parameters up to `close`; `acc` holds them in reverse. -/
def parameters : Nat → Token → List String → Reader (List String)
  | 0, _, _ => tooDeep
  | fuel + 1, close, acc => do
    if ← accept close then return acc.reverse
    else
      let (name, pos) ← variableName
      if acc.contains name then fail (duplicated name) pos
      let q ← take
      if q.token = close then return (name :: acc).reverse
      else if q.token = .sign "," then parameters fuel close (name :: acc)
      else refuse (missing "," "to separate the parameters of the function") q

def expression : Nat → Around → Reader Expr
  | 0, _ => tooDeep
  | fuel + 1, a => do
    let left ← operand fuel a
    operation fuel a 1 left

/-- Reads operators that bind as tightly as `least` and their right operands. -/
def operation : Nat → Around → Nat → Expr → Reader Expr
  | 0, _, _, _ => tooDeep
  | fuel + 1, a, least, left => do
    let op ← peek
    let strength := if a.inPattern && op.token = .sign "|" then 0 else precedence op.token
    if strength < least || (strength = least && !groupsRight op.token) then
      return left
    else
      let _ ← take
      let right ← operand fuel a
      let next ← peek
      let following := if a.inPattern && next.token = .sign "|" then 0 else precedence next.token
      let right ←
        if (strength = following && groupsRight op.token) || strength < following then
          operation fuel a strength right
        else pure right
      let a ← a.deeper
      operation fuel a least (← combine op.token left right op.pos)

def operand : Nat → Around → Reader Expr
  | 0, _ => tooDeep
  | fuel + 1, a => do
    let p ← peek
    match p.token with
    | .sign "-" => do
      let _ ← take
      match ← operand fuel (← a.deeper) with
      | .const (.int i) _ =>
        if i = minInt then return .const (.float (-(Float.ofInt i))) p.pos
        else return .const (.int (-i)) p.pos
      | .const (.float x) _ => return .const (.float (-x)) p.pos
      | e => return .operator "-" [e] p.pos
    | .sign "+" => do
      let _ ← take
      match ← operand fuel (← a.deeper) with
      | .const (.int i) q => return .const (.int i) q
      | .const (.float x) q => return .const (.float x) q
      | e => return .operator "+" [e] p.pos
    | .sign "!" => do
      let _ ← take
      return .operator "!" [← operand fuel (← a.deeper)] p.pos
    | .ended => fail incomplete p.pos
    | _ => primary fuel a

def primary : Nat → Around → Reader Expr
  | 0, _ => tooDeep
  | fuel + 1, a => do
    let p ← peek
    match constant? p.token with
    | some v => do let _ ← take; steps fuel a (.const v p.pos) false
    | none =>
      match p.token with
      | .sign "\x7b" => do
        let b ← block fuel (← a.deeper)
        steps fuel a (.statement b) false
      | .sign "(" => do
        let _ ← take
        let inner ← (← a.deeper).deeper
        let e ← expression fuel inner
        let _ ← expect (.sign ")") "for a matching ( in this expression"
        steps fuel a e false
      | .word "if" => do
        let s ← branch fuel (← a.inner.deeper)
        steps fuel a (.statement s) false
      | .word "switch" => do
        let s ← selection fuel (← a.inner.deeper)
        steps fuel a (.statement s) false
      | .word "while" => do
        let s ← whileLoop fuel (← a.inner.deeper)
        steps fuel a (.statement s) false
      | .word "loop" => do
        let s ← endless fuel (← a.inner.deeper)
        steps fuel a (.statement s) false
      | .word "do" => do
        let s ← doLoop fuel (← a.inner.deeper)
        steps fuel a (.statement s) false
      | .word "for" => do
        let s ← forLoop fuel (← a.inner.deeper)
        steps fuel a (.statement s) false
      | .sign "|" => do
        if a.inPattern then fail "Expecting a literal expression" p.pos
        let _ ← take
        let params ← parameters fuel (.sign "|") []
        steps fuel a (← closure fuel a params p.pos) false
      | .sign "||" => do
        let _ ← take
        steps fuel a (← closure fuel a [] p.pos) false
      | .opening s => do
        let _ ← take
        let parts ← pieces fuel (← a.deeper) (if s = "" then [] else [.const (.string s) p.pos])
        let e : Expr := if parts.isEmpty then .const (.string "") p.pos else .interpolated parts p.pos
        steps fuel a e false
      | .sign "[" => do
        let _ ← take
        let items ← items fuel (← a.deeper).inner []
        steps fuel a (.array items p.pos) false
      | .sign "#\x7b" => do
        let _ ← take
        let fields ← fields fuel (← a.deeper).inner []
        steps fuel a (.map fields p.pos) false
      | .name n => do
        let _ ← take
        match (← peek).token with
        | .sign "(" => do
          let _ ← take
          let args ← arguments fuel (← a.deeper).inner n []
          steps fuel a (.call n args p.pos) false
        | .sign "()" => do
          let _ ← take
          steps fuel a (.call n [] p.pos) false
        | _ => do
          mention n p.pos
          steps fuel a (.variable n p.pos) false
      | .reserved w => do
        let _ ← take
        if w = "this" then
          if a.inFunction then steps fuel a (.this p.pos) false
          else fail (reservedReason w) p.pos
        else if callableWords.contains w then
          match (← peek).token with
          | .sign "(" => do
            let _ ← take
            let args ← arguments fuel (← a.deeper).inner w []
            steps fuel a (.call w args p.pos) false
          | .sign "()" => do
            let _ ← take
            steps fuel a (.call w [] p.pos) false
          | _ => fail (reservedReason w) p.pos
        else fail (reservedReason w) p.pos
      | .ended => fail incomplete p.pos
      | t => refuse ("Unexpected '" ++ t.spelling ++ "'") p

/-- Reads the steps of a chain; `open_` tells whether `root` is the chain they belong to. -/
def steps : Nat → Around → Expr → Bool → Reader Expr
  | 0, _, _, _ => tooDeep
  | fuel + 1, a, root, open_ => do
    let p ← peek
    match p.token with
    | .sign "[" => indexStep fuel a root open_ false
    | .sign "?[" => indexStep fuel a root open_ true
    | .sign "." => memberStep fuel a root open_ false
    | .sign "?." => memberStep fuel a root open_ true
    | _ => return root

def indexStep : Nat → Around → Expr → Bool → Bool → Reader Expr
  | 0, _, _, _, _ => tooDeep
  | fuel + 1, a, root, open_, optional => do
    let p ← take
    let index ← expression fuel (← a.deeper).inner
    if !open_ && root.refusesIndex index then fail noIndex index.pos
    else if index.isNoIndex then fail noIndex index.pos
    let _ ← expect (.sign "]") "for a matching [ in this index expression"
    steps fuel a (addStep root open_ (.index index p.pos optional)) true

def memberStep : Nat → Around → Expr → Bool → Bool → Reader Expr
  | 0, _, _, _, _ => tooDeep
  | fuel + 1, a, root, open_, optional => do
    let _ ← take
    let n ← take
    let known := match n.token with
      | .name m => some m
      | .reserved w => if methodWords.contains w then some w else none
      | _ => none
    match known with
    | none =>
      match n.token with
      | .reserved w => fail (reservedReason w) n.pos
      | _ => refuse "Expecting name of a property" n
    | some m =>
      match (← peek).token with
      | .sign "(" => do
        let _ ← take
        let args ← arguments fuel (← a.deeper).inner m []
        steps fuel a (addStep root open_ (.method m args n.pos optional)) true
      | .sign "()" => do
        let _ ← take
        steps fuel a (addStep root open_ (.method m [] n.pos optional)) true
      | _ => do
        if methodWords.contains m then fail (reservedReason m) n.pos
        steps fuel a (addStep root open_ (.property m n.pos optional)) true

def arguments : Nat → Around → String → List Expr → Reader (List Expr)
  | 0, _, _, _ => tooDeep
  | fuel + 1, a, function, acc => do
    if ← accept (.sign ")") then return acc.reverse
    else
      let p ← peek
      if p.token = .ended then fail (openArguments function) p.pos
      let e ← expression fuel a
      let q ← take
      if q.token = .sign ")" then return (e :: acc).reverse
      else if q.token = .sign "," then arguments fuel a function (e :: acc)
      else if q.token = .ended then fail (openArguments function) q.pos
      else
        refuse (missing "," ("to separate the arguments to function call '" ++ function ++ "'")) q

def items : Nat → Around → List Expr → Reader (List Expr)
  | 0, _, _ => tooDeep
  | fuel + 1, a, acc => do
    if ← accept (.sign "]") then return acc.reverse
    else
      let p ← peek
      if p.token = .ended then fail openArray p.pos
      else
        let e ← expression fuel a
        let q ← take
        if q.token = .sign "]" then return (e :: acc).reverse
        else if q.token = .sign "," then items fuel a (e :: acc)
        else if q.token = .ended then fail openArray q.pos
        else refuse (missing "," "to separate the items of this array literal") q

def fields : Nat → Around → List Field → Reader (List Field)
  | 0, _, _ => tooDeep
  | fuel + 1, a, acc => do
    if ← accept (.sign "\x7d") then return acc.reverse
    else
      let n ← take
      let name ← match n.token with
        | .name s | .text s => pure s
        | .reserved w => fail (reservedReason w) n.pos
        | .ended => fail openMap n.pos
        | _ => refuse "Expecting name of a property" n
      if acc.any fun f => match f with | .mk m _ => m = name then
        fail ("Duplicated property for object map literal: '" ++ name ++ "'") n.pos
      let _ ← expect (.sign ":") ("to follow the property '" ++ name ++ "' in this object map literal")
      let e ← expression fuel a
      let q ← take
      if q.token = .sign "\x7d" then return (Field.mk name e :: acc).reverse
      else if q.token = .sign "," then fields fuel a (Field.mk name e :: acc)
      else
        match q.token with
        | .name _ => refuse (missing "," "to separate the items of this object map literal") q
        | _ => refuse openMap q

def pieces : Nat → Around → List Expr → Reader (List Expr)
  | 0, _, _ => tooDeep
  | fuel + 1, a, acc => do
    let b ← block fuel a
    let acc := acc ++ [.statement b]
    let q ← take
    match q.token with
    | .text s => return if s = "" then acc else acc ++ [.const (.string s) q.pos]
    | .opening s => pieces fuel a (if s = "" then acc else acc ++ [.const (.string s) q.pos])
    | _ => refuse "Open string is not terminated" q

def closure : Nat → Around → List String → Pos → Reader Expr
  | 0, _, _, _ => tooDeep
  | fuel + 1, _, params, p => do
    let outer ← get
    set { outer with vars := params.reverse.map (·, false), free := [] }
    let body ← statement fuel ⟨false, false, true, false, 1, functionLimit⟩
    let inner ← get
    let captured : List (String × Pos) := inner.free
    let name := closureName inner.functions.length
    set { inner with
      vars := outer.vars
      free := outer.free
      functions := ⟨name, captured.map (fun (c : String × Pos) => c.1) ++ params, body⟩ :: inner.functions }
    for (n, q) in captured do mention n q
    return .closure name captured p

end

def depthLimit : Nat := 48

def script : Nat → Around → List Stmt → Reader (List Stmt)
  | 0, _, _ => tooDeep
  | fuel + 1, a, acc => do
    let p ← peek
    if p.token = .ended then return acc.reverse
    else
      let s ← statement fuel a
      if s.isSkip then script fuel a acc
      else
        let q ← peek
        if q.token = .ended then return (s :: acc).reverse
        else if s.endsItself then script fuel a (s :: acc)
        else
          let _ ← expect (.sign ";") "to terminate this statement"
          script fuel a (s :: acc)

def fuelFor (ts : List Placed) : Nat := 16 * (ts.length + 4)

def run {α : Type} (reader : Nat → Around → Reader α) (text : String) :
    Except SyntaxFault (α × Reading) :=
  let ts := tokens text
  reader (fuelFor ts) ⟨true, false, false, false, 0, depthLimit⟩ ⟨ts, [], [], []⟩

end Parser

def parse (text : String) : Except SyntaxFault Program := do
  let (body, r) ← Parser.run (fun fuel a => Parser.script fuel a []) text
  return ⟨r.functions.reverse, body⟩

def parseExpression (text : String) : Except SyntaxFault (Expr × List Function) := do
  let reader (fuel : Nat) (a : Around) : Reader Expr := do
    let e ← Parser.expression fuel a.inner
    let q ← peek
    if q.token = .ended then return e else refuse ("Unexpected '" ++ q.token.spelling ++ "'") q
  let (e, r) ← Parser.run reader text
  return (e, r.functions.reverse)

end Stencil.Script
