import Mathlib.Data.List.Chain
import Stencil.Proofs.Lines
import Stencil.Proofs.Script.Lexing

/-!
# The normal form of an encoded line

A row of statements spells text and guarded expressions, and other rows may spell the same.  One of
them has its text in as few literals as can be: none is empty, and no two stand side by side.  It is
the one that a content line is encoded by.
-/

namespace Stencil

namespace Append

/-! ## Rows of statements -/

/-- The characters that a statement appends, or the expression that it guards. -/
def spelled : Append → List (Char ⊕ String)
  | .literal text => text.toList.map .inl
  | .guarded expr => [.inr expr]

def isLiteral : Append → Bool
  | .literal _ => true
  | .guarded _ => false

def expr? : Append → Option String
  | .literal _ => none
  | .guarded expr => some expr

/-- No literal is empty, and none stands beside another one. -/
structure IsNormal (row : List Append) : Prop where
  filled : ∀ text, .literal text ∈ row → text ≠ ""
  apart : row.IsChain fun a b => ¬ (a.isLiteral ∧ b.isLiteral)

variable {a : Append} {row other : List Append} {text : String}

namespace IsNormal

theorem nil : IsNormal [] := ⟨by simp, .nil⟩

theorem tail (h : IsNormal (a :: row)) : IsNormal row :=
  ⟨fun text ht => h.filled text (List.mem_cons_of_mem a ht), h.apart.tail⟩

theorem literal (filled : text ≠ "") : IsNormal [.literal text] :=
  ⟨fun other ho => by simp_all, .singleton _⟩

theorem guarded (expr : String) (h : IsNormal row) : IsNormal (.guarded expr :: row) := by
  refine ⟨fun text ht => h.filled text (by simpa using ht), ?_⟩
  exact List.isChain_cons.2 ⟨by simp [isLiteral], h.apart⟩

/-- Text in front of a row goes into its first literal, or makes one of its own. -/
theorem prepend (text : String) (h : IsNormal row) : IsNormal (Append.prepend text row) := by
  cases row with
  | nil =>
    by_cases empty : text = ""
    · simpa [Append.prepend, empty] using h
    · simpa [Append.prepend, empty] using literal empty
  | cons a rest =>
    cases a with
    | literal t =>
      refine ⟨fun other ho => ?_, ?_⟩
      · rcases List.mem_cons.1 ho with eq | ho
        · obtain rfl : other = text ++ t := by simpa using eq
          have filled := h.filled t List.mem_cons_self
          simp [filled]
        · exact h.filled other (List.mem_cons_of_mem _ ho)
      · obtain ⟨first, later⟩ := List.isChain_cons.1 h.apart
        exact List.isChain_cons.2 ⟨fun b hb => first b hb, later⟩
    | guarded expr =>
      by_cases empty : text = ""
      · simpa [Append.prepend, empty] using h
      · simp only [Append.prepend, if_neg empty]
        refine ⟨fun other ho => ?_, List.isChain_cons_cons.2 ⟨by simp [isLiteral], h.apart⟩⟩
        rcases List.mem_cons.1 ho with eq | ho
        · obtain rfl : other = text := by simpa using eq
          exact empty
        · exact h.filled other ho

/-- Behind a literal stands nothing or an expression. -/
theorem no_char (h : IsNormal (.literal text :: row)) (c : Char) :
    (row.flatMap spelled).head? ≠ some (.inl c) := by
  cases row with
  | nil => simp
  | cons b rest =>
    cases b with
    | literal t => exact absurd ⟨rfl, rfl⟩ (List.isChain_cons_cons.1 h.apart).1
    | guarded expr => simp [spelled]

end IsNormal

theorem spelled_prepend (text : String) (row : List Append) :
    (prepend text row).flatMap spelled = text.toList.map .inl ++ row.flatMap spelled := by
  unfold prepend
  split
  · simp [spelled]
  · split
    · rename_i empty
      simp [empty]
    · simp [spelled]

theorem expr?_prepend (text : String) (row : List Append) :
    (prepend text row).filterMap expr? = row.filterMap expr? := by
  unfold prepend
  split
  · rfl
  · split <;> rfl

/-- The characters in front of two rows can be told where no character comes next. -/
theorem map_inl_append_inj {cs ds : List Char} {xs ys : List (Char ⊕ String)}
    (hx : ∀ c, xs.head? ≠ some (.inl c)) (hy : ∀ c, ys.head? ≠ some (.inl c))
    (same : cs.map .inl ++ xs = ds.map .inl ++ ys) : cs = ds ∧ xs = ys := by
  induction cs generalizing ds with
  | nil =>
    cases ds with
    | nil => exact ⟨rfl, same⟩
    | cons d ds => exact absurd (congrArg List.head? same) (hx d)
  | cons c cs ih =>
    cases ds with
    | nil => exact absurd (congrArg List.head? same).symm (hy c)
    | cons d ds =>
      simp only [List.map_cons, List.cons_append, List.cons.injEq, Sum.inl.injEq] at same
      obtain ⟨rfl, rfl⟩ := ih same.2
      exact ⟨by rw [same.1], rfl⟩

theorem exists_spelled (h : IsNormal (a :: row)) :
    ∃ x xs, (a :: row).flatMap spelled = x :: xs ∧ (a.isLiteral ↔ x.isLeft) := by
  cases a with
  | guarded expr => exact ⟨_, _, rfl, by simp [isLiteral]⟩
  | literal text =>
    have filled := h.filled text List.mem_cons_self
    cases chars : text.toList with
    | nil => exact absurd (String.toList_eq_nil_iff.1 chars) filled
    | cons c cs =>
      refine ⟨.inl c, cs.map .inl ++ row.flatMap spelled, ?_, by simp [isLiteral]⟩
      rw [List.flatMap_cons, spelled, chars]
      rfl

/-- What a row in normal form spells tells the row. -/
theorem IsNormal.eq_of_spelled (h : IsNormal row) (h' : IsNormal other)
    (same : row.flatMap spelled = other.flatMap spelled) : row = other := by
  induction row generalizing other with
  | nil =>
    cases other with
    | nil => rfl
    | cons b more =>
      obtain ⟨x, xs, eq, -⟩ := exists_spelled h'
      rw [eq] at same
      cases same
  | cons a rest ih =>
    cases other with
    | nil =>
      obtain ⟨x, xs, eq, -⟩ := exists_spelled h
      rw [eq] at same
      cases same
    | cons b more =>
      obtain ⟨x, xs, eq, kind⟩ := exists_spelled h
      obtain ⟨y, ys, eq', kind'⟩ := exists_spelled h'
      obtain ⟨rfl, -⟩ : x = y ∧ xs = ys := by simpa [eq, eq'] using same
      have alike : a.isLiteral ↔ b.isLiteral := kind.trans kind'.symm
      cases a with
      | literal text =>
        cases b with
        | guarded expr => simp [isLiteral] at alike
        | literal text' =>
          obtain ⟨chars, behind⟩ := map_inl_append_inj h.no_char h'.no_char same
          rw [String.toList_inj.1 chars, ih h.tail h'.tail behind]
      | guarded expr =>
        cases b with
        | literal text => simp [isLiteral] at alike
        | guarded expr' =>
          simp only [List.flatMap_cons, spelled, List.cons_append, List.nil_append,
            List.cons.injEq, Sum.inr.injEq] at same
          rw [same.1, ih h.tail h'.tail same.2]

end Append

/-! ## Segments -/

namespace Segment

/-- What a segment appends in a mode of emission: characters, or an expression that is evaluated. -/
def spelled (deferred : Bool) : Segment → List (Char ⊕ String)
  | .text t => t.toList.map .inl
  | .generation expr => [.inr expr]
  | .emission expr =>
    if deferred then ("$\x7b" ++ expr ++ "\x7d").toList.map .inl else [.inr expr]

/-- The expression of a segment that is evaluated in a mode of emission. -/
def guarded? (deferred : Bool) : Segment → Option String
  | .text _ => none
  | .generation expr => some expr
  | .emission expr => if deferred then none else some expr

end Segment

namespace Encoding

variable {deferred : Bool} {tail : List Append}

def spelled (deferred : Bool) (line : String) (terminated : Bool) : List (Char ⊕ String) :=
  (segments line).flatMap (Segment.spelled deferred) ++ if terminated then [.inl '\n'] else []

theorem isNormal_ending (terminated : Bool) : Append.IsNormal (ending terminated) := by
  cases terminated with
  | false => exact .nil
  | true => exact .literal (by decide)

theorem isNormal_appends (h : Append.IsNormal tail) (row : List Segment) :
    Append.IsNormal (appends deferred tail row) := by
  induction row with
  | nil => exact h
  | cons s rest ih =>
    cases s with
    | text t => exact ih.prepend t
    | generation expr => exact ih.guarded expr
    | emission expr =>
      cases deferred with
      | true => exact ih.prepend _
      | false => exact ih.guarded expr

theorem spelled_appends (row : List Segment) :
    (appends deferred tail row).flatMap Append.spelled =
      row.flatMap (Segment.spelled deferred) ++ tail.flatMap Append.spelled := by
  induction row with
  | nil => rfl
  | cons s rest ih =>
    rw [List.flatMap_cons, List.append_assoc, ← ih]
    cases s with
    | text t => exact Append.spelled_prepend t _
    | generation expr => rfl
    | emission expr =>
      cases deferred with
      | true => exact Append.spelled_prepend _ _
      | false => rfl

theorem expr?_appends (row : List Segment) :
    (appends deferred tail row).filterMap Append.expr? =
      row.filterMap (Segment.guarded? deferred) ++ tail.filterMap Append.expr? := by
  induction row with
  | nil => rfl
  | cons s rest ih =>
    cases s with
    | text t => exact (Append.expr?_prepend t _).trans ih
    | generation expr => exact congrArg (expr :: ·) ih
    | emission expr =>
      cases deferred with
      | true => exact (Append.expr?_prepend _ _).trans ih
      | false => exact congrArg (expr :: ·) ih

theorem appends_of_no_emission {row : List Segment} (plain : ∀ expr, .emission expr ∉ row) :
    appends true tail row = appends false tail row := by
  induction row with
  | nil => rfl
  | cons s rest ih =>
    have later := ih fun expr he => plain expr (List.mem_cons_of_mem s he)
    cases s with
    | text t => rw [appends, appends, later]
    | generation expr => rw [appends, appends, later]
    | emission expr => exact absurd List.mem_cons_self (plain expr)

theorem spelled_statements (line : String) (terminated : Bool) :
    (statements deferred line terminated).flatMap Append.spelled =
      spelled deferred line terminated := by
  rw [statements, spelled_appends, spelled]
  cases terminated <;> rfl

theorem expr?_statements (line : String) (terminated : Bool) :
    (statements deferred line terminated).filterMap Append.expr? =
      (segments line).filterMap (Segment.guarded? deferred) := by
  rw [statements, expr?_appends]
  cases terminated <;> simp [ending, Append.expr?]

/--
A content line is encoded by a row of statements in normal form, and by the only one that spells the
segments of the line and its end.  Its expressions are those of the segments that are evaluated, and
its literals are read back as their texts.  The encoding of one line is one line, and without a
substitution that can wait the two modes have one encoding.
-/
theorem script_normal (line : String) (terminated : Bool) :
    (∀ deferred, ∃ row : List Append,
      script deferred line terminated = String.intercalate " " (row.map Append.script) ∧
      Append.IsNormal row ∧ row.flatMap Append.spelled = spelled deferred line terminated ∧
      (∀ other, Append.IsNormal other →
        other.flatMap Append.spelled = spelled deferred line terminated → other = row) ∧
      row.filterMap Append.expr? = (segments line).filterMap (Segment.guarded? deferred) ∧
      ∀ a ∈ row,
        (∃ text literal, a = .literal text ∧ a.script = "code += " ++ literal ++ ";" ∧
          (Script.tokens literal).map (·.token) = [.text text, .ended]) ∨
        ∃ expr, a = .guarded expr ∧ a.script = "try \x7b code += _render(" ++ expr ++
          "); \x7d catch \x7b code += " ++ Text.literal ("<UNDEFINED: " ++ expr ++ ">") ++
          "; \x7d") ∧
    (OneLine line → ∀ deferred, OneLine (script deferred line terminated)) ∧
    ((∀ expr, .emission expr ∉ segments line) →
      Encoding.deferred line terminated = Encoding.resolved line terminated) := by
  refine ⟨fun deferred => ?_, fun one_line deferred => oneLine_script one_line, fun plain => ?_⟩
  · have normal : Append.IsNormal (statements deferred line terminated) :=
      isNormal_appends (isNormal_ending terminated) _
    have spells := @spelled_statements deferred line terminated
    refine ⟨statements deferred line terminated, rfl, normal, spells,
      fun other h eq => h.eq_of_spelled normal (eq.trans spells.symm),
      expr?_statements line terminated, fun a _ => ?_⟩
    cases a with
    | literal text =>
      refine .inl ⟨text, Text.literal text, rfl, rfl, ?_⟩
      exact Script.Lexer.tokens_of_lexes (Script.Lexer.Lexes.literal text (by simp) false)
    | guarded expr => exact .inr ⟨expr, rfl, rfl⟩
  · rw [Encoding.deferred, Encoding.resolved, script, script, statements, statements,
      appends_of_no_emission plain]

end Encoding

end Stencil
