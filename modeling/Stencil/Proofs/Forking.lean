import Stencil.Proofs.NormalForm
import Stencil.Proofs.Substitution
import Stencil.Proofs.Script.Masking.Rows
import Stencil.Proofs.Script.Forks.Programs

/-!
# Blocks as forks

A content line with nothing to defer is encoded alike in both modes of emission.  Where the
expressions of such lines are contained, the block of a run of them is a fork, wherever it stands.
So a script whose other lines do not name the mode depends on it in forks only.
-/

namespace Stencil

open Script
open Script.Lexer (LexesInside IsTerminated tokensOf IsVariable Masked Forks conditional mask)
open Script.Lexer.Lexes (EndsWord endsWord_cons)
open Resolver (modeName)

/-! ## Statements inside of braces -/

namespace Append

variable {limit : Nat} {a : Append}

theorem lexesInside_appending (text : String) (rest : List Char) :
    LexesInside ("code += " ++ Text.literal text ++ ";").toList
      [.name "code", .sign "+=", .text text, .sign ";"] rest := by
  have parts : ("code += " ++ Text.literal text ++ ";").toList =
      "code".toList ++ ([' ', '+', '='] ++ (' ' :: (Text.literal text).toList ++ [';'])) := by
    simp
  have name : IsVariable "code" := by decide
  have space : Text.isBlank ' ' = true := by decide
  rw [parts]
  apply LexesInside.append (.variable_name name (endsWord_cons (by decide)))
  apply LexesInside.append (.blank space .plus_equals)
  apply LexesInside.append (.blank space (.literal text (by simp)))
  exact .semicolon

theorem lexesInside_rendering {argument : List Char} {ts : List Token} (rest : List Char)
    (h : LexesInside ('(' :: argument) ts (';' :: ' ' :: rest)) :
    LexesInside (" code += _render".toList ++ ('(' :: argument ++ [';', ' ']))
      (.name "code" :: .sign "+=" :: .name "_render" :: (ts ++ [.sign ";"])) rest := by
  have space : Text.isBlank ' ' = true := by decide
  have render : IsVariable "_render" := by decide
  have code : IsVariable "code" := by decide
  have parts : " code += _render".toList ++ ('(' :: argument ++ [';', ' ']) =
      ' ' :: "code".toList ++ ([' ', '+', '='] ++ (' ' :: "_render".toList ++
        ('(' :: argument ++ ([';'] ++ [' '])))) := by
    simp
  have behind : LexesInside [' '] [] rest := .blank space .nil
  have ends (rest : List Char) : EndsWord ('(' :: rest) :=
    endsWord_cons (by decide)
  rw [parts]
  apply LexesInside.append (.blank space (.variable_name code (endsWord_cons (by decide))))
  apply LexesInside.append (.blank space .plus_equals)
  apply LexesInside.append (.blank space (.variable_name render (ends _)))
  exact .append h (.append .semicolon behind)

theorem lexesInside_guarded {expr : String} {ts : List Token} (rest : List Char)
    (argument : ∀ rest, LexesInside ('(' :: (expr.toList ++ [')'])) ts rest) :
    LexesInside (Append.guarded expr).script.toList (guard ts (fallback expr)) rest := by
  have space : Text.isBlank ' ' = true := by decide
  have trying : "try" ∈ grammarWords := by decide
  have catching : "catch" ∈ grammarWords := by decide
  let call : List Char :=
    " code += _render".toList ++ ('(' :: (expr.toList ++ [')']) ++ [';', ' '])
  let missed : List Char :=
    ' ' :: (("code += " ++ Text.literal (fallback expr) ++ ";").toList ++ [' '])
  let rendered : List Token := .name "code" :: .sign "+=" :: .name "_render" :: (ts ++ [.sign ";"])
  let written : List Token := [.name "code", .sign "+=", .text (fallback expr), .sign ";"]
  have parts : (Append.guarded expr).script.toList = "try".toList ++
      (' ' :: '\x7b' :: (call ++ ['\x7d']) ++ (' ' :: "catch".toList ++
        (' ' :: '\x7b' :: (missed ++ ['\x7d'])))) := by
    change ("try \x7b code += _render(" ++ expr ++ "); \x7d catch \x7b code += " ++
      Text.literal (fallback expr) ++ "; \x7d").toList = _
    simp [call, missed]
  have tokens : guard ts (fallback expr) =
      [Token.word "try"] ++ (Token.sign "\x7b" :: (rendered ++ [Token.sign "\x7d"]) ++
        ([Token.word "catch"] ++ Token.sign "\x7b" :: (written ++ [Token.sign "\x7d"]))) := by
    simp [guard, rendered, written]
  have rendering (rest : List Char) : LexesInside call rendered rest :=
    lexesInside_rendering rest (argument _)
  have writing (rest : List Char) : LexesInside missed written rest := by
    refine .blank space ?_
    exact .append (lexesInside_appending _ _) (.blank space .nil)
  clear_value call missed
  rw [parts, tokens]
  apply LexesInside.append (.keyword trying (endsWord_cons (by decide)))
  apply LexesInside.append (.blank space (.braces (rendering _)))
  apply LexesInside.append (.blank space (.keyword catching (endsWord_cons (by decide))))
  exact .blank space (.braces (writing _))

/-- What is needed of the expression of a statement, so that it can stand wherever a statement can. -/
structure IsQuiet (limit : Nat) (expr : String) : Prop where
  contained : IsContained limit expr
  unmentioned : ∀ t ∈ tokensOf expr, IsUnmentioned t

instance (limit : Nat) (expr : String) : Decidable (IsQuiet limit expr) :=
  decidable_of_iff (IsContained limit expr ∧ ∀ t ∈ tokensOf expr, IsUnmentioned t)
    ⟨fun ⟨contained, unmentioned⟩ => ⟨contained, unmentioned⟩,
      fun h => ⟨h.contained, h.unmentioned⟩⟩

theorem lexesInside_spliced (h : ∀ expr, a = .guarded expr → OneLine expr ∧ IsQuiet limit expr)
    (rest : List Char) : LexesInside a.script.toList a.spliced rest := by
  cases a with
  | literal text => exact lexesInside_appending text rest
  | guarded expr =>
    obtain ⟨line, quiet⟩ := h expr rfl
    obtain ⟨e, r, read, -⟩ := quiet.contained.accepted
    exact lexesInside_guarded rest fun _ => .terminated quiet.contained.terminated line
      (isBalanced_tokensOf quiet.contained.terminated read quiet.unmentioned)
      (Parser.foldl_depthsBehind quiet.contained.terminated read)

theorem isBalanced_spliced (h : ∀ expr, a = .guarded expr → IsQuiet limit expr) :
    IsBalanced a.spliced := by
  cases a with
  | literal text => rfl
  | guarded expr =>
    obtain ⟨e, r, read, -⟩ := (h expr rfl).contained.accepted
    have inside := isBalanced_tokensOf (h expr rfl).contained.terminated read
      (h expr rfl).unmentioned
    have opening : IsBalanced [.sign "("] := rfl
    have argument : IsBalanced (.sign "(" :: (tokensOf expr ++ [.sign ")"])) :=
      opening.append (inside.append rfl)
    -- The argument stands in one brace.
    rw [IsBalanced, spliced, guard, level?_append, level?_append]
    change (level? 1 (.sign "(" :: (tokensOf expr ++ [.sign ")"]))).bind (level? · _) = _
    rw [argument.level? 1]
    rfl

theorem beginsActing_spliced (a : Append) (ts : List Token) : BeginsActing (a.spliced ++ ts) := by
  cases a with
  | literal text => exact .assign "code" _ rfl
  | guarded expr => exact .attempt (.assign "code" _ rfl)

end Append

/-! ## Lines with nothing to defer -/

namespace Segment

def isEmission : Segment → Bool
  | .emission _ => true
  | _ => false

theorem exists_first_of_scan {pending cs : List Char} (filled : pending ≠ [] ∨ cs ≠ []) :
    ∃ s rest, scan pending cs = s :: rest ∧ s ≠ .text "" := by
  have first {c : Char} {pending : List Char} :
      ofPending (c :: pending) = [.text (String.ofList (pending.reverse ++ [c]))] := by
    rw [ofPending, List.reverse_cons]
    simp
  have shown {text : List Char} (filled : text ≠ []) :
      Segment.text (String.ofList text) ≠ .text "" := by
    intro empty
    have chars := congrArg String.toList (Segment.text.inj empty)
    exact filled (by simpa using chars)
  have marked (m : Marker) : m.segment ≠ .text "" := by
    unfold Marker.segment
    split
    · exact shown (by simp)
    · split <;> simp
  fun_induction scan pending cs with
  | case1 pending =>
    cases pending with
    | nil => simp at filled
    | cons c pending => exact ⟨_, [], first, shown (by simp)⟩
  | case2 pending c r m rest found ih =>
    cases pending with
    | nil => exact ⟨_, _, rfl, marked m⟩
    | cons d pending => exact ⟨_, _, by rw [first]; rfl, shown (by simp)⟩
  | case3 pending c r none ih => exact ih (.inl (by simp))

end Segment

namespace Encoding

variable {limit : Nat} {deferred : Bool} {line : String} {run : List (String × Bool)}

/-- A line that is not empty has a statement at least. -/
theorem statements_ne_nil {terminated : Bool} (filled : line ≠ "" ∨ terminated = true) :
    statements deferred line terminated ≠ [] := by
  have kept (text : String) (row : List Append) (other : text ≠ "") :
      Append.prepend text row ≠ [] := by
    unfold Append.prepend
    split
    · simp
    · simp [other]
  by_cases empty : line = ""
  · obtain rfl : terminated = true := by simpa [empty] using filled
    subst empty
    have none : segments "" = [] := by
      simp [segments, Segment.scan, Segment.ofPending]
    simp [statements, none, appends, ending]
  · obtain ⟨s, rest, eq, shown⟩ : ∃ s rest, segments line = s :: rest ∧ s ≠ .text "" :=
      Segment.exists_first_of_scan (.inr (by simpa using empty))
    rw [statements, eq]
    cases s with
    | text text => exact kept text _ (fun none => shown (congrArg _ none))
    | generation expr => simp [appends]
    | emission expr =>
      cases deferred with
      | true =>
        refine kept _ _ fun empty => ?_
        have chars := congrArg String.toList empty
        simp at chars
      | false => simp [appends]

/-- A content line has nothing to defer, and its expressions can stand anywhere. -/
structure IsImmediate (limit : Nat) (line : String) : Prop where
  immediate : ∀ expr, .emission expr ∉ segments line
  quiet : ∀ expr ∈ (segments line).filterMap Segment.expr?, Append.IsQuiet limit expr

instance (limit : Nat) (line : String) : Decidable (IsImmediate limit line) :=
  decidable_of_iff ((∀ s ∈ segments line, s.isEmission = false) ∧
      ∀ expr ∈ (segments line).filterMap Segment.expr?, Append.IsQuiet limit expr)
    ⟨fun ⟨immediate, quiet⟩ => ⟨fun expr he => absurd (immediate _ he) (by simp [Segment.isEmission]),
        quiet⟩,
      fun h => ⟨fun s hs => by
        cases s with
        | emission expr => exact absurd hs (h.immediate expr)
        | _ => rfl, h.quiet⟩⟩

theorem rows_immediate (immediate : ∀ line ∈ run, IsImmediate limit line.1) :
    rows true run = rows false run := by
  refine List.flatMap_congr ?_
  intro line hl
  rw [statements, statements, appends_of_no_emission (immediate line hl).immediate]

theorem lexesInside_row {as : List Append} {tokens : Append → List Token}
    (h : ∀ a ∈ as, ∀ rest, LexesInside a.script.toList (tokens a) rest) {rest : List Char} :
    LexesInside (String.intercalate " " (as.map Append.script)).toList (as.flatMap tokens) rest := by
  induction as with
  | nil => exact .nil
  | cons a more ih =>
    have later := ih fun other ho => h other (List.mem_cons_of_mem a ho)
    cases more with
    | nil =>
      rw [List.map_singleton, String.intercalate_singleton, List.flatMap_singleton]
      exact h a List.mem_cons_self rest
    | cons next others =>
      rw [List.map_cons, List.map_cons, String.intercalate_cons_cons, String.toList_append,
        String.toList_append, List.append_assoc, List.flatMap_cons]
      exact .append (h a List.mem_cons_self _) (.blank (by decide) later)

theorem isBalanced_rows (immediate : ∀ line ∈ run, IsImmediate limit line.1) :
    IsBalanced ((rows deferred run).flatMap Append.spliced) := by
  have each : ∀ a ∈ rows deferred run, IsBalanced a.spliced := by
    intro a ha
    refine @Append.isBalanced_spliced limit a fun expr guarded => ?_
    obtain ⟨line, hl, he⟩ := mem_exprs_of_mem_rows (guarded ▸ ha)
    exact (immediate line hl).quiet expr he
  generalize rows deferred run = as at each
  induction as with
  | nil => rfl
  | cons a more ih =>
    obtain ⟨first, others⟩ := List.forall_mem_cons.1 each
    exact first.append (ih others)

theorem beginsActing_rows {line : String × Bool} {more : List (String × Bool)}
    (filled : line.1 ≠ "" ∨ line.2 = true) :
    BeginsActing ((rows deferred (line :: more)).flatMap Append.spliced) := by
  obtain ⟨a, as, eq⟩ := List.exists_cons_of_ne_nil (@statements_ne_nil deferred line.1 line.2 filled)
  rw [rows, List.flatMap_cons, eq, List.cons_append, List.flatMap_cons]
  exact Append.beginsActing_spliced a _

end Encoding

/-! ## Blocks -/

namespace Emitter

variable {limit : Nat} {deferred : Bool} {run : List SourceLine}

/-- The text of lines that stand behind another line. -/
def tail (lines : List EmitterLine) : List Char :=
  lines.flatMap fun line => '\n' :: line.code.toList

theorem tail_append (lines more : List EmitterLine) :
    tail (lines ++ more) = tail lines ++ tail more :=
  List.flatMap_append

theorem lexesInside_encoded (line : ∀ line ∈ run, OneLine line.text)
    (immediate : ∀ line ∈ run, Encoding.IsImmediate limit line.text) (rest : List Char) :
    LexesInside (tail (encoded deferred run))
      ((Encoding.rows deferred (run.map (·.content))).flatMap Append.spliced) rest := by
  induction run with
  | nil => exact .nil
  | cons source more ih =>
    obtain ⟨oneLine, lines⟩ := List.forall_mem_cons.1 line
    obtain ⟨own, others⟩ := List.forall_mem_cons.1 immediate
    have row : ∀ a ∈ Encoding.statements deferred source.text source.terminated, ∀ rest,
        LexesInside a.script.toList a.spliced rest := by
      intro a ha rest
      refine @Append.lexesInside_spliced limit a (fun expr he => ?_) rest
      have some_expr := Encoding.mem_exprs_of_mem_statements (he ▸ ha)
      obtain ⟨segment, hs, eq⟩ := List.mem_filterMap.1 some_expr
      exact ⟨Segment.oneLine_expr oneLine hs eq, own.quiet expr some_expr⟩
    rw [List.map_cons, Encoding.rows, List.flatMap_cons, List.flatMap_append]
    exact .append (.blank (by decide) (Encoding.lexesInside_row row)) (ih lines others)

/-- A run of content lines with nothing to defer, each of which adds something. -/
structure IsImmediateRun (limit : Nat) (run : List SourceLine) : Prop where
  oneLine : ∀ line ∈ run, OneLine line.text
  immediate : ∀ line ∈ run, Encoding.IsImmediate limit line.text
  filled : ∀ line ∈ run, isVoid line = false

theorem isImmediateRun_nil (limit : Nat) : IsImmediateRun limit [] :=
  ⟨List.forall_mem_nil _, List.forall_mem_nil _, List.forall_mem_nil _⟩

theorem forks_block {source : SourceLine} {more : List SourceLine}
    (h : IsImmediateRun limit (source :: more)) (rest : List Char) :
    Forks (tail (encoded true (source :: more) ++ plain "\x7d else \x7b" ::
      encoded false (source :: more) ++ [plain "\x7d"]) ++ rest) := by
  have filled : source.text ≠ "" ∨ source.terminated = true := by
    have adds := h.filled source List.mem_cons_self
    by_cases empty : source.text = ""
    · exact .inr (by simpa [isVoid, empty] using adds)
    · exact .inl empty
  have immediate :
      ∀ line ∈ (source :: more).map (·.content), Encoding.IsImmediate limit line.1 := by
    rw [List.forall_mem_map]
    exact h.immediate
  let ts : List Token :=
    (Encoding.rows true ((source :: more).map (·.content))).flatMap Append.spliced
  have isArm : IsArm ts :=
    ⟨(Encoding.isBalanced_rows immediate).closed, Encoding.beginsActing_rows filled⟩
  have newline (rest : List Char) : LexesInside ['\n'] [] rest := .blank (by decide) .nil
  have arm (deferred : Bool) (rest : List Char) :
      LexesInside (tail (encoded deferred (source :: more)) ++ ['\n']) ts ('\x7d' :: rest) := by
    have same :
        (Encoding.rows deferred ((source :: more).map (·.content))).flatMap Append.spliced = ts := by
      cases deferred with
      | true => rfl
      | false => rw [← Encoding.rows_immediate immediate]
    have whole := (@lexesInside_encoded limit deferred _ h.oneLine h.immediate _).append
      (newline ('\x7d' :: rest))
    rwa [List.append_nil, same] at whole
  have forks := Lexer.forks_of_arms isArm (arm true) (arm false rest)
  have text : tail (encoded true (source :: more) ++ plain "\x7d else \x7b" ::
      encoded false (source :: more) ++ [plain "\x7d"]) ++ rest =
      tail (encoded true (source :: more)) ++ ['\n'] ++ '\x7d' :: (" else \x7b".toList ++
        (tail (encoded false (source :: more)) ++ ['\n'] ++ '\x7d' :: rest)) := by
    simp [tail, plain]
  rwa [text]

/-! ## Masked emitters -/

/-- The line in front of the blocks of a conditional on a name. -/
def guardLine (name : String) : EmitterLine := plain ("if " ++ name ++ " \x7b")

def maskedLine (line : EmitterLine) : EmitterLine :=
  if line = guardLine modeName then guardLine mask else line

/-- The emitter with another name in the place of the mode, in front of the blocks of content. -/
def masked (emitter : Emitter) : Emitter :=
  { emitter with lines := emitter.lines.map maskedLine }

theorem toList_guardLine (name : String) : (guardLine name).code.toList = conditional name := by
  simp [guardLine, plain, conditional]

/-- The lines are masked, whatever stands behind them. -/
def Masks (lines : List EmitterLine) : Prop :=
  ∀ r r', Masked Forks false r r' →
    Masked Forks false (tail lines ++ r) (tail (lines.map maskedLine) ++ r')

namespace Masks

variable {lines more : List EmitterLine} {line : EmitterLine}

theorem nil : Masks [] := fun _ _ h => h

theorem append (h : Masks lines) (h' : Masks more) : Masks (lines ++ more) := by
  intro r r' behind
  rw [List.map_append, tail_append, tail_append, List.append_assoc, List.append_assoc]
  exact h _ _ (h' _ _ behind)

end Masks

theorem masked_append {fresh : Bool} {r r' : List Char} (text : List Char)
    (h : Masked Forks false r r') : Masked Forks fresh (text ++ r) (text ++ r') := by
  induction text generalizing fresh with
  | nil =>
    cases fresh with
    | false => exact h
    | true => exact h.weaken
  | cons c more ih => exact .char c ih

/-- Lines of which none guards a block. -/
def Unguarded (lines : List EmitterLine) : Prop := ∀ line ∈ lines, line ≠ guardLine modeName

theorem Unguarded.map {lines : List EmitterLine} (h : Unguarded lines) :
    lines.map maskedLine = lines :=
  (List.map_congr_left fun line hl => if_neg (h line hl)).trans (List.map_id _)

theorem Unguarded.masks {lines : List EmitterLine} (h : Unguarded lines) : Masks lines := by
  intro r r' behind
  rw [h.map]
  exact masked_append _ behind

theorem unguarded_of_origin {lines : List EmitterLine}
    (h : ∀ line ∈ lines, line.origin.isSome = true) : Unguarded lines := by
  rintro line hl rfl
  exact absurd (h _ hl) (by decide)

theorem unguarded_encoded (deferred : Bool) (run : List SourceLine) :
    Unguarded (encoded deferred run) :=
  unguarded_of_origin (List.forall_mem_map.2 fun _ _ => rfl)

/-- Behind its guard a block has no other one. -/
theorem unguarded_branches (run : List SourceLine) : Unguarded (encoded true run ++
    plain "\x7d else \x7b" :: encoded false run ++ [plain "\x7d"]) := by
  intro line hl
  simp only [List.mem_append, List.mem_cons, List.not_mem_nil, or_false] at hl
  rcases hl with (hl | rfl | hl) | rfl
  · exact unguarded_encoded true run line hl
  · decide
  · exact unguarded_encoded false run line hl
  · decide

theorem masks_block {run : List SourceLine} (h : IsImmediateRun limit run) : Masks (block run) := by
  cases run with
  | nil => exact .nil
  | cons source more =>
    let others : List EmitterLine := encoded true (source :: more) ++ plain "\x7d else \x7b" ::
      encoded false (source :: more) ++ [plain "\x7d"]
    have lines : block (source :: more) = guardLine modeName :: others := by
      simp [block, guardLine, others]
    have kept : others.map maskedLine = others := (unguarded_branches (source :: more)).map
    intro r r' behind
    have inside := forks_block h r
    have guarded : Masked Forks true (conditional modeName ++ (tail others ++ r))
        (conditional mask ++ (tail others ++ r')) := .guard inside (masked_append _ behind)
    have text (name : String) (r : List Char) : tail (guardLine name :: others) ++ r =
        '\n' :: (conditional name ++ (tail others ++ r)) := by
      rw [← toList_guardLine]
      simp [tail]
    have first : maskedLine (guardLine modeName) = guardLine mask := if_pos rfl
    rw [lines, List.map_cons, kept, first, text, text]
    exact .char '\n' (by simpa using guarded)

theorem masks_body {run : List SourceLine} {entries : List (SourceLine × Line)}
    (h : IsImmediateRun limit run)
    (immediate : ∀ entry ∈ entries, entry.2.code? = none →
      OneLine entry.1.text ∧ Encoding.IsImmediate limit entry.1.text) :
    Masks (body run entries) := by
  induction entries generalizing run with
  | nil => exact .nil
  | cons entry rest ih =>
    obtain ⟨line, kind⟩ := entry
    obtain ⟨own, others⟩ := List.forall_mem_cons.1 immediate
    rw [body]
    cases found : kind.code? with
    | some code =>
      have directive : Masks [⟨code, some line⟩] :=
        (unguarded_of_origin (List.forall_mem_singleton.2 rfl)).masks
      have behind := ih (isImmediateRun_nil limit) others
      exact (masks_block h).append (directive.append behind)
    | none =>
      obtain ⟨oneLine, immediate⟩ := own found
      dsimp only
      split
      · exact ih h others
      · rename_i filled
        refine ih ⟨?_, ?_, ?_⟩ others
        · exact List.forall_mem_append.2 ⟨h.oneLine, List.forall_mem_singleton.2 oneLine⟩
        · exact List.forall_mem_append.2 ⟨h.immediate, List.forall_mem_singleton.2 immediate⟩
        · exact List.forall_mem_append.2
            ⟨h.filled, List.forall_mem_singleton.2 (by simpa using filled)⟩

/-! ## Compiled emitters -/

theorem toList_source {emitter : Emitter} {first : EmitterLine} {others : List EmitterLine}
    (lines : emitter.lines = first :: others) :
    emitter.source.toList = first.code.toList ++ tail others := by
  rw [source, lines]
  clear lines
  induction others generalizing first with
  | nil => simp [tail]
  | cons next more ih =>
    rw [List.map_cons, List.map_cons, String.intercalate_cons_cons, ← List.map_cons,
      String.toList_append, String.toList_append, ih]
    simp [tail]

variable {tree : FileTree} {spec : Spec} {prelude : Option Prelude} {embed : Bool}
  {document : Document} {emitter : Emitter}

/-- The content lines of the expanded document have nothing to defer, and can stand anywhere. -/
def HasImmediateContent (limit : Nat) (tree : FileTree) (spec : Spec) (document : Document) : Prop :=
  ∀ e, Expansion.ofLines tree spec [tree.canonical document.path]
      (document.lines ++ [closing document]) = .ok e →
    ∀ entry ∈ e.lines, entry.2.isContent = true → Encoding.IsImmediate limit entry.1.text

theorem exists_masks (compiled : compile tree spec prelude embed document = .ok emitter)
    (content : HasImmediateContent limit tree spec document) :
    ∃ others, emitter.lines = plain ("// emitter program for " ++ document.path.text) :: others ∧
      Masks others := by
  obtain ⟨e, expanded, rfl⟩ := compile_eq_ok compiled
  have given : ∀ line ∈ document.lines ++ [closing document], OneLine line.text := by
    rw [List.forall_mem_append, List.forall_mem_singleton]
    refine ⟨fun line hl => Document.oneLine_of_mem_lines hl, ?_⟩
    change OneLine "//! "
    decide
  have entries := Expansion.forall_of_ofLines
    (fun _ _ _ hl => Document.oneLine_of_mem_splice hl) given expanded
  have middle : Masks (body [] e.lines) := by
    refine masks_body (isImmediateRun_nil limit) fun entry he none => ?_
    obtain ⟨line, -, kept⟩ := entries entry he
    exact ⟨line, content e expanded entry he ((Line.isContent_iff kept).2 none)⟩
  have opens : Unguarded (opening document prelude embed).tail := by
    have fixed : Unguarded (plain "let code = \"\";" ::
        if embed then [plain "code += _spec_header();"] else []) := by
      unfold Unguarded
      cases embed <;> decide
    change Unguarded ((plain "let code = \"\";" ::
      if embed then [plain "code += _spec_header();"] else []) ++ _)
    refine List.forall_mem_append.2 ⟨fixed, ?_⟩
    cases prelude with
    | none => exact List.forall_mem_nil _
    | some p => exact unguarded_of_origin (List.forall_mem_map.2 fun _ _ => rfl)
  have ends : Unguarded (ending embed) := by
    unfold Unguarded
    cases embed <;> decide
  refine ⟨(opening document prelude embed).tail ++ body [] e.lines ++ ending embed, ?_,
    (opens.masks.append middle).append ends.masks⟩
  rfl

/-- A script of which only the guards of the blocks name the mode depends on it in forks only. -/
theorem forked_source (compiled : compile tree spec prelude embed document = .ok emitter)
    (content : HasImmediateContent limit tree spec document)
    (unmentioned : ∀ p ∈ tokens emitter.masked.source, IsUnmentioned p.token) :
    Forked .ended (tokens emitter.source) := by
  obtain ⟨others, lines, masks⟩ := exists_masks compiled content
  have other : plain ("// emitter program for " ++ document.path.text) ≠ guardLine modeName := by
    intro same
    have first := congrArg (fun line : EmitterLine => line.code.toList.head?) same
    simp [plain, guardLine] at first
  have lines' : emitter.masked.lines =
      plain ("// emitter program for " ++ document.path.text) :: others.map maskedLine := by
    rw [masked, lines, List.map_cons, maskedLine, if_neg other]
  have whole := masks [] [] .nil
  rw [List.append_nil, List.append_nil] at whole
  rw [tokens, toList_source lines'] at unmentioned
  rw [tokens, toList_source lines]
  exact Lexer.forked_of_masked (@masked_append false _ _ _ whole)
    (Lexer.begun_of_filled List.not_mem_nil)
    unmentioned .ended

end Emitter

end Stencil
