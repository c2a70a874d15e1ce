import Stencil.Script.Display
import Stencil.Script.Simplify

/-!
# Outlines of scripts

An outline is a script without its places: a row of texts and guarded substitutions that are
appended, conditionals and loops over them.  What it means is read off its names: the text that it
appends, the names that it misses, and whether its conditions and loops fit the values of the names.
-/

namespace Stencil.Script

inductive Outline where
  | done
  | append (text : String) (rest : Outline)
  /-- Appends the value of a variable, or the text `fallback` if there is no such variable. -/
  | guarded (name fallback : String) (rest : Outline)
  | branch (condition : String) (yes no rest : Outline)
  | each (item subject : String) (body rest : Outline)

namespace Outline

/-! ## Tokens -/

def tokens : Outline → List Token
  | .done => []
  | .append text rest => [.name "code", .sign "+=", .text text, .sign ";"] ++ rest.tokens
  | .guarded name fallback rest =>
    [.word "try", .sign "\x7b", .name "code", .sign "+=", .name "_render", .sign "(", .name name,
      .sign ")", .sign ";", .sign "\x7d", .word "catch", .sign "\x7b", .name "code", .sign "+=",
      .text fallback, .sign ";", .sign "\x7d"] ++ rest.tokens
  | .branch condition yes no rest =>
    [.word "if", .name condition, .sign "\x7b"] ++ yes.tokens ++
      [.sign "\x7d", .word "else", .sign "\x7b"] ++ no.tokens ++ [.sign "\x7d"] ++ rest.tokens
  | .each item subject body rest =>
    [.word "for", .name item, .word "in", .name subject, .sign "\x7b"] ++ body.tokens ++
      [.sign "\x7d"] ++ rest.tokens

def scriptTokens (o : Outline) : List Token :=
  .word "let" :: .name "code" :: .sign "=" :: .text "" :: .sign ";" ::
    (o.tokens ++ [.name "code"])

/-- How deep an outline is nested in the eyes of a reader. -/
def levels : Outline → Nat
  | .done => 0
  | .append _ rest => rest.levels
  | .guarded _ _ rest => max 3 rest.levels
  | .branch _ yes no rest => max (2 + max yes.levels no.levels) rest.levels
  | .each _ _ body rest => max (2 + body.levels) rest.levels

def Proper : Outline → Prop
  | .done => True
  | .append _ rest => rest.Proper
  | .guarded name _ rest => name ≠ "code" ∧ rest.Proper
  | .branch condition yes no rest =>
    condition ≠ "code" ∧ yes.Proper ∧ no.Proper ∧ rest.Proper
  | .each item subject body rest =>
    item ≠ "code" ∧ subject ≠ "code" ∧ body.Proper ∧ rest.Proper

end Outline

/-! ## Meaning -/

abbrev Names := String → Option Json

namespace Names

def shadow (names : Names) (name : String) (value : Json) : Names :=
  fun other => if other = name then some value else names other

def rendered (names : Names) (name fallback : String) : String :=
  match names name with
  | some v => (Value.ofJson v).render
  | none => fallback

def isTrue (names : Names) (name : String) : Bool :=
  match names name with
  | some (.bool b) => b
  | _ => false

def items (names : Names) (name : String) : List Json :=
  match names name with
  | some (.array items) => items
  | _ => []

end Names

namespace Outline

def text : Outline → Names → String
  | .done, _ => ""
  | .append text rest, names => text ++ rest.text names
  | .guarded name fallback rest, names => names.rendered name fallback ++ rest.text names
  | .branch condition yes no rest, names =>
    (if names.isTrue condition then yes.text names else no.text names) ++ rest.text names
  | .each item subject body rest, names =>
    String.join ((names.items subject).map fun v => body.text (names.shadow item v)) ++
      rest.text names

def missing : Outline → Names → List String
  | .done, _ => []
  | .append _ rest, names => rest.missing names
  | .guarded name _ rest, names =>
    (if (names name).isSome then [] else [name]) ++ rest.missing names
  | .branch condition yes no rest, names =>
    (if names.isTrue condition then yes.missing names else no.missing names) ++ rest.missing names
  | .each item subject body rest, names =>
    ((names.items subject).flatMap fun v => body.missing (names.shadow item v)) ++
      rest.missing names

/-- The conditions that an outline comes to are booleans, and the subjects of its loops arrays. -/
def Fits : Outline → Names → Prop
  | .done, _ => True
  | .append _ rest, names => rest.Fits names
  | .guarded _ _ rest, names => rest.Fits names
  | .branch condition yes no rest, names =>
    (∃ b, names condition = some (.bool b)) ∧
      (if names.isTrue condition then yes.Fits names else no.Fits names) ∧ rest.Fits names
  | .each item subject body rest, names =>
    (∃ items, names subject = some (.array items)) ∧
      (∀ v ∈ names.items subject, body.Fits (names.shadow item v)) ∧ rest.Fits names

/-! ## Statements -/

def appending (e : Expr) (p q : Pos) : Stmt := .assign (some "+") (.variable "code" p) e q

inductive Shape : Outline → List Stmt → Prop
  | done : Shape .done []
  | append {text rest ss} (p q u : Pos) (behind : Shape rest ss) :
      Shape (.append text rest) (appending (.const (.string text) u) p q :: ss)
  | guarded {name fallback rest ss} (body handler p q u v p' q' u' v' : Pos)
      (behind : Shape rest ss) :
      Shape (.guarded name fallback rest)
        (.attempt (.block [appending (.call "_render" [.variable name u] v) p q] body) none
          (.block [appending (.const (.string fallback) u') p' q'] handler) v' :: ss)
  | branch {condition yes no rest ys ns ss} (p q u v : Pos) (inside : Shape yes ys)
      (otherwise : Shape no ns) (behind : Shape rest ss) :
      Shape (.branch condition yes no rest)
        (.branch (.variable condition p) (.block ys q) (.block ns u) v :: ss)
  | each {item subject body rest bs ss} (p q u : Pos) (inside : Shape body bs)
      (behind : Shape rest ss) :
      Shape (.each item subject body rest)
        (.each item none (.variable subject p) (.block bs q) u :: ss)

def IsScript (o : Outline) (body : List Stmt) : Prop :=
  ∃ ss p q u, Shape o ss ∧
    body = .declare "code" (.const (.string "") p) false q :: (ss ++ [.expr (.variable "code" u)])

/-! ## Silent outlines -/

/-- Whether an outline consists of conditionals only. -/
def Silent : Outline → Prop
  | .done => True
  | .append .. | .guarded .. | .each .. => False
  | .branch _ yes no rest => yes.Silent ∧ no.Silent ∧ rest.Silent

theorem text_of_silent {o : Outline} (h : o.Silent) (names : Names) : o.text names = "" := by
  induction o with
  | done => rfl
  | append text rest ih => exact h.elim
  | guarded name fallback rest ih => exact h.elim
  | branch condition yes no rest ihy ihn ih =>
    obtain ⟨hy, hn, hr⟩ := h
    simp [text, ihy hy, ihn hn, ih hr]
  | each item subject body rest ihb ih => exact h.elim

theorem missing_of_silent {o : Outline} (h : o.Silent) (names : Names) : o.missing names = [] := by
  induction o with
  | done => rfl
  | append text rest ih => exact h.elim
  | guarded name fallback rest ih => exact h.elim
  | branch condition yes no rest ihy ihn ih =>
    obtain ⟨hy, hn, hr⟩ := h
    simp [missing, ihy hy, ihn hn, ih hr]
  | each item subject body rest ihb ih => exact h.elim

end Outline

namespace Simplify

theorem prune_cases (keep : Bool) (s : Stmt) (rest : List Stmt) :
    prune keep (s :: rest) = s :: prune keep rest ∨
      (pureStmt s = true ∧ prune keep (s :: rest) = prune keep rest) := by
  cases rest with
  | nil =>
    rw [prune, prune]
    by_cases h : (!keep && pureStmt s) = true
    · rw [if_pos h]
      rw [Bool.and_eq_true] at h
      exact .inr ⟨h.2, rfl⟩
    · rw [if_neg h]
      exact .inl rfl
  | cons next more =>
    rw [prune]
    · by_cases h : pureStmt s = true
      · exact .inr ⟨h, if_pos h⟩
      · exact .inl (if_neg h)
    · simp

theorem stmts_append (keep : Bool) (ss more : List Stmt) :
    stmts keep (ss ++ more) = stmts keep ss ++ stmts keep more := by
  induction ss with
  | nil => rw [stmts, List.nil_append, List.nil_append]
  | cons s rest ih => rw [List.cons_append, stmts, stmts, ih, List.cons_append]

/-- What has an effect stays. -/
theorem prune_eq_self {ss : List Stmt} (keep : Bool) (h : ∀ s ∈ ss, pureStmt s = false) :
    prune keep ss = ss := by
  induction ss with
  | nil => rfl
  | cons s rest ih =>
    rcases prune_cases keep s rest with eq | ⟨noEffect, -⟩
    · rw [eq, ih fun other ho => h other (List.mem_cons_of_mem _ ho)]
    · simp [h s] at noEffect

theorem prune_append (ss : List Stmt) (last : Stmt) :
    prune true (ss ++ [last]) = prune false ss ++ [last] := by
  induction ss with
  | nil => simp [prune]
  | cons s rest ih =>
    have front : prune true (s :: (rest ++ [last])) =
        if pureStmt s then prune true (rest ++ [last]) else s :: prune true (rest ++ [last]) := by
      rw [prune]
      simp
    have alone : prune false (s :: rest) =
        if pureStmt s then prune false rest else s :: prune false rest := by
      cases rest with
      | nil => simp [prune]
      | cons next more =>
        rw [prune]
        simp
    rw [List.cons_append, front, alone, ih]
    split <;> rfl

/-- Where no value is used, whatever has no effect is taken out. -/
theorem prune_false (ss : List Stmt) : prune false ss = ss.filter (!pureStmt ·) := by
  induction ss with
  | nil => rfl
  | cons s rest ih =>
    rw [List.filter_cons, ← ih]
    cases rest with
    | nil => cases h : pureStmt s <;> simp [prune, h]
    | cons next more =>
      rw [prune]
      · cases pureStmt s <;> rfl
      · simp

end Simplify

/-! ## Simplified outlines -/

namespace Outline

open Simplify

theorem stmt_appending (keep : Bool) (text : String) (u p q : Pos) :
    stmt keep (appending (.const (.string text) u) p q) =
      appending (.const (.string text) u) p q := rfl

theorem stmt_guarded (keep : Bool) (name fallback : String)
    (body handler p q u v p' q' u' v' : Pos) :
    stmt keep (.attempt (.block [appending (.call "_render" [.variable name u] v) p q] body) none
        (.block [appending (.const (.string fallback) u') p' q'] handler) v') =
      .attempt (.block [appending (.call "_render" [.variable name u] v) p q] body) none
        (.block [appending (.const (.string fallback) u') p' q'] handler) v' := by
  cases keep <;> rfl

theorem pureStmts_of_isEmpty {body : List Stmt} {p : Pos} (h : isEmpty (.block body p) = true) :
    pureStmts body = true := by
  cases body with
  | nil => rfl
  | cons s rest => simp [isEmpty] at h

theorem pureStmt_branch {keep : Bool} {c : Expr} {ys ns : List Stmt} {p q u : Pos}
    (h : pureStmt (Simplify.branch keep c (.block ys p) (.block ns q) u) = true) :
    pureStmts ys = true ∧ pureStmts ns = true := by
  unfold Simplify.branch at h
  split at h
  · rename_i empty
    rw [Bool.and_eq_true] at empty
    exact ⟨pureStmts_of_isEmpty empty.1, pureStmts_of_isEmpty empty.2⟩
  · simp only [pureStmt, Bool.and_eq_true] at h
    exact ⟨h.1.2, h.2⟩

/-- What is taken out of the statements of an outline means nothing. -/
theorem Shape.silent {o : Outline} {ss : List Stmt} (h : Shape o ss) {k keep : Bool}
    (noEffect : pureStmts (prune k (stmts keep ss)) = true) : o.Silent := by
  have split {s : Stmt} {rest : List Stmt} {k : Bool}
      (h : pureStmts (prune k (s :: rest)) = true) :
      pureStmt s = true ∧ pureStmts (prune k rest) = true := by
    rcases prune_cases k s rest with eq | ⟨hs, eq⟩
    · simpa [eq, pureStmts] using h
    · exact ⟨hs, eq ▸ h⟩
  induction h generalizing k keep with
  | done => trivial
  | append p q u behind ih =>
    have here := (split noEffect).1
    rw [stmt_appending] at here
    simp [appending, pureStmt] at here
  | guarded body handler p q u v p' q' u' v' behind ih =>
    have here := (split noEffect).1
    rw [stmt_guarded] at here
    simp [appending, pureStmt, pureStmts] at here
  | branch p q u v inside otherwise behind ihy ihn ih =>
    obtain ⟨here, rest⟩ := split noEffect
    obtain ⟨yes, no⟩ := pureStmt_branch here
    exact ⟨ihy yes, ihn no, ih rest⟩
  | each p q u inside behind ihb ih =>
    have here := (split noEffect).1
    simp [stmt, pureStmt] at here

theorem simplify_script (ss : List Stmt) (p q u : Pos) :
    Simplify.body (.declare "code" (.const (.string "") p) false q ::
        (ss ++ [.expr (.variable "code" u)])) =
      (.declare "code" (.const (.string "") p) false q :: prune false (stmts true ss)) ++
        [.expr (.variable "code" u)] := by
  have declared : prune false
      (.declare "code" (.const (.string "") p) false q :: stmts true ss) =
      .declare "code" (.const (.string "") p) false q :: prune false (stmts true ss) := by
    rcases prune_cases false (.declare "code" (.const (.string "") p) false q)
      (stmts true ss) with eq | ⟨noEffect, -⟩
    · exact eq
    · simp [pureStmt] at noEffect
  rw [← declared, ← prune_append, ← List.cons_append, Simplify.body, stmts_append]
  rfl

end Outline

end Stencil.Script
