import Stencil.Proofs.Script.Masking.Tokens
import Stencil.Proofs.Script.Inside

/-!
# Rows of tokens with a masked name

If the masked twin of a text names neither the mode nor what evaluates texts, the text itself names
the mode in the masked conditionals only.  Where forks stand behind these, the row of tokens names the
mode in forks only.
-/

namespace Stencil.Script

open Resolver (modeName)

theorem forked_nil (previous : Token) : Forked previous [] := trivial

theorem Forked.cons {p : Placed} {row : List Placed} (free : IsUnmentioned p.token)
    (behind : Forked p.token row) (previous : Token) : Forked previous (p :: row) := by
  refine ⟨free.2, fun mode => absurd ?_ free.1, behind⟩
  rw [mode]
  rfl

theorem IsUnmentioned.of_resembles {t t' : Token} (h : IsUnmentioned t')
    (resembles : Lexer.Resembles t t') : IsUnmentioned t := by
  unfold IsUnmentioned at *
  cases t <;> cases t' <;> simp_all [Lexer.Resembles, Token.named?]

namespace Lexer

/-- Wherever a statement may stand, a fork begins with the brace in front of `r`. -/
def Forks (r : List Char) : Prop :=
  ∀ (s : State) (p q : Pos), s.inText = false → Settled s.depths →
    Fork (⟨.sign "\x7b", p⟩ :: scan (s.behind (.sign "\x7b") q) r)

/-- Two texts with the same tokens, in braces one behind the other. -/
theorem forks_of_arms {cs cs' rest : List Char} {ts : List Token} (isArm : IsArm ts)
    (first : ∀ rest, LexesInside cs ts ('\x7d' :: rest))
    (second : LexesInside cs' ts ('\x7d' :: rest)) :
    Forks (cs ++ '\x7d' :: (" else \x7b".toList ++ (cs' ++ '\x7d' :: rest))) := by
  intro s p q outside settled
  let back : List Char := cs' ++ '\x7d' :: rest
  obtain ⟨arm, p₁, u, tokens, outside₁, same, eq⟩ :=
    (first (" else \x7b".toList ++ back)).behind_opening settled q
  have keyword : LexesInside "else".toList [.word "else"] (' ' :: '\x7b' :: back) :=
    .keyword (by decide) (Lexes.endsWord_cons (by decide))
  obtain ⟨placed, w, gap, outside₂, same', hg, word, eq'⟩ := LexesInside.blank
    (show Text.isBlank ' ' = true by decide) keyword u [] outside₁ (same ▸ settled) isGap_nil
  obtain ⟨⟨_, p₂⟩, rfl, rfl⟩ := List.map_eq_singleton_iff.1 word
  have space : IsGap (gap ++ [' ']) := hg.append (isGap_blank (by decide))
  obtain ⟨p₃, q', eq''⟩ := LexesInside.opening outside₂ space back
  obtain ⟨arm', p₄, v, tokens', -, -, eq₃⟩ :=
    second.behind_opening (same' ▸ same ▸ settled) q'
  have row : scan (s.behind (.sign "\x7b") q) (cs ++ '\x7d' :: (" else \x7b".toList ++ back)) =
      arm ++ ⟨.sign "\x7d", p₁⟩ :: ⟨.word "else", p₂⟩ :: ⟨.sign "\x7b", p₃⟩ ::
        (arm' ++ ⟨.sign "\x7d", p₄⟩ :: scan v rest) := by
    have text : " else \x7b".toList ++ back =
        [] ++ (' ' :: "else".toList ++ ' ' :: '\x7b' :: back) := by simp
    rw [List.append_assoc, List.singleton_append] at eq''
    rw [eq, text, eq', eq'', eq₃]
    rfl
  rw [row]
  exact .mk p p₁ p₂ p₃ p₄ arm arm' _ (tokens.trans tokens'.symm) (tokens.symm ▸ isArm)

/-! ## Masked conditionals -/

theorem scan_of_token {s : State} {cs r r' : List Char} {p q : Pos} {c : Char} {t : Token}
    (outside : s.inText = false) (skipped : skipGap .space s.pos cs = (p, c :: r))
    (read : token s.operand p c r = (⟨t, p⟩, q, r')) (good : ∀ reason, t ≠ .bad reason)
    (short : r'.length < cs.length) : scan s cs = ⟨t, p⟩ :: scan (s.behind t q) r' := by
  rw [scan, outside, if_neg (by decide), skipped]
  simp only [read]
  rw [if_pos short]

/-- A conditional on a name is read up to its brace, wherever the name ends. -/
theorem scan_conditional {s : State} {cs r : List Char} {p : Pos} {name : String}
    (isVariable : IsVariable name) (outside : s.inText = false)
    (skipped : skipGap .space s.pos cs = (p, conditional name ++ r))
    (long : (conditional name ++ r).length ≤ cs.length) :
    ∃ p₁ p₂, scan s cs = ⟨.word "if", p⟩ :: ⟨.name name, p₁⟩ :: ⟨.sign "\x7b", p₂⟩ ::
      scan (State.behind ⟨⟨p.line, p.column + 3 + name.toList.length⟩, true, s.depths, false⟩
        (.sign "\x7b") ⟨p.line, p.column + 5 + name.toList.length⟩) r := by
  obtain ⟨line, column⟩ := p
  have blank : Text.isBlank ' ' = true := by decide
  obtain ⟨c, w, chars⟩ : ∃ c w, name.toList = c :: w := by
    cases chars : name.toList with
    | nil => simpa [chars] using isVariable.start
    | cons c w => exact ⟨c, w, rfl⟩
  have first : isNameStart c = true := by simpa [chars] using isVariable.start
  have named : tokenOfWord (String.ofList (c :: w)) = .name name := by
    rw [← chars, String.ofList_toList, isVariable.token]
  have whole : conditional name ++ r = 'i' :: (['f'] ++ ' ' :: (c :: w ++ ' ' :: '\x7b' :: r)) := by
    simp [conditional, chars]
  rw [whole] at skipped long
  have word := @Lexes.token_word (' ' :: (c :: w ++ ' ' :: '\x7b' :: r)) 'i' ['f'] (by decide)
    (by decide) (Lexes.endsWord_cons (by decide)) s.operand ⟨line, column⟩
  rw [show tokenOfWord (String.ofList ['i', 'f']) = .word "if" by decide] at word
  have mode := Lexes.token_word first (chars ▸ isVariable.parts)
    (@Lexes.endsWord_cons ('\x7b' :: r) ' ' (by decide)) false ⟨line, column + 3⟩
  rw [named] at mode
  have brace (p : Pos) : token true p '\x7b' r = (⟨.sign "\x7b", p⟩, p.right, r) := by
    have width : advance p ('\x7b' :: r) r = p.right := by
      simp [advance, Pos.right]
    rw [← width]
    rfl
  have row := scan_of_token outside skipped word (by simp) (by simp at long ⊢; omega)
  have row' := @scan_of_token (s.behind (.word "if") ⟨line, column + 2⟩)
    (' ' :: (c :: w ++ ' ' :: '\x7b' :: r)) _ _ _ _ _ _ rfl
    ((skipGap_blank blank _ _).trans (skipGap_visible (Lexes.isBlank_eq_false_of_isNameStart first)
      (Lexes.ne_of_isNameStart first (by decide)) ⟨line, column + 3⟩ (w ++ ' ' :: '\x7b' :: r)))
    mode (by simp) (by simp; omega)
  have row'' := @scan_of_token
    (State.behind (s.behind (.word "if") ⟨line, column + 2⟩) (.name name)
      ⟨line, column + 3 + (c :: w).length⟩) (' ' :: '\x7b' :: r) _ _ _ _ _ _ rfl
    ((skipGap_blank blank _ _).trans (skipGap_visible (by decide) (by decide) _ r))
    (brace _) (by simp) (by simp)
  have width : column + 5 + name.toList.length = column + 3 + (c :: w).length + 1 + 1 := by
    rw [chars]
    omega
  dsimp only
  rw [width, chars]
  exact ⟨_, _, row.trans (congrArg _ (row'.trans (congrArg _ row'')))⟩

/-- A statement may stand where a conditional stands, since no brace is there. -/
theorem settled_of_conditional {s : State} {cs r : List Char} {p : Pos} {name : String}
    (begun : Begun s cs) (skipped : skipGap .space s.pos cs = (p, conditional name ++ r)) :
    Settled s.depths := by
  intro zero
  have brace := (begun.first zero).2
  cases cs with
  | nil => cases brace
  | cons d more =>
    obtain rfl : d = '\x7b' := Option.some.inj brace
    rw [skipGap_visible (by decide) (by decide), Prod.mk.injEq, conditional, List.cons_append,
      List.cons.injEq] at skipped
    exact absurd skipped.2.1 (by decide)

theorem forked_conditional {p p₁ p₂ : Pos} {row : List Placed}
    (fork : Fork (⟨.sign "\x7b", p₂⟩ :: row)) (behind : Forked (.sign "\x7b") row)
    (previous : Token) :
    Forked previous (⟨.word "if", p⟩ :: ⟨.name modeName, p₁⟩ :: ⟨.sign "\x7b", p₂⟩ :: row) := by
  have word : IsUnmentioned (.word "if") := by decide
  have brace : IsUnmentioned (.sign "\x7b") := by decide
  have evaluates : (Token.name modeName).named? ≠ some "eval" := by decide
  refine Forked.cons word ?_ previous
  exact ⟨evaluates, fun _ => ⟨rfl, fork⟩, Forked.cons brace behind _⟩

theorem skipGap_ne_newline (g : Gap) (p : Pos) (cs : List Char) :
    (skipGap g p cs).2.head? ≠ some '\n' := by
  fun_induction skipGap g p cs with
  | case1 => simp
  | case5 p d more no_line no_block visible =>
    rintro newline
    obtain rfl := Option.some.inj newline
    exact absurd visible (by decide)
  | case2 _ _ ih | case3 _ _ ih | case6 _ _ ih | case9 _ _ _ ih | case10 _ _ _ ih
  | case4 _ _ _ _ _ _ ih | case7 _ _ _ _ _ ih | case8 _ _ _ _ _ ih | case11 _ _ _ _ _ _ ih =>
    exact ih

/-! ## Rows -/

/-- What a reader finds in a text: a last token, or a token with more behind it. -/
theorem scan_text_cases {s : State} {cs r : List Char} {t : Placed} {q : Pos}
    (inText : s.inText = true) (read : ofQuote s.pos (verbatim s.pos s.pos cs) = (t, q, r)) :
    scan s cs = if r.length < cs.length then t :: scan (s.behind t.token q) r else [t] := by
  rw [scan, if_pos inText, read]

theorem scan_token_cases {s : State} {cs r r' : List Char} {c : Char} {t : Placed} {p q : Pos}
    (outside : s.inText = false) (skipped : skipGap .space s.pos cs = (p, c :: r))
    (read : token s.operand p c r = (t, q, r')) (good : ∀ reason, t.token ≠ .bad reason) :
    scan s cs = if r'.length < cs.length then t :: scan (s.behind t.token q) r' else [t] := by
  rw [scan, outside, if_neg (by decide), skipped]
  simp only [read]

theorem scan_bad {s : State} {cs r r' : List Char} {c : Char} {t : Placed} {p q : Pos}
    {reason : String} (outside : s.inText = false)
    (skipped : skipGap .space s.pos cs = (p, c :: r))
    (read : token s.operand p c r = (t, q, r')) (bad : t.token = .bad reason) :
    scan s cs = [t] := by
  rw [scan, outside, if_neg (by decide), skipped]
  simp only [read, bad]

theorem forked_of_masked {fresh : Bool} {s : State} {cs cs' : List Char}
    (h : Masked Forks fresh cs cs') (begun : Begun s cs)
    (free : ∀ p ∈ scan s cs', IsUnmentioned p.token) (previous : Token) :
    Forked previous (scan s cs) := by
  induction count : cs.length using Nat.strong_induction_on generalizing fresh s cs cs' previous with
  | _ n ih =>
  have single {t t' : Placed} (token : Resembles t.token t'.token) (eq : scan s cs = [t])
      (eq' : scan s cs' = [t']) : Forked previous (scan s cs) := by
    rw [eq'] at free
    rw [eq]
    exact Forked.cons ((free t' List.mem_cons_self).of_resembles token) (forked_nil _) previous
  have step {t t' : Placed} {q : Pos} {r r' : List Char} (token : Resembles t.token t'.token)
      (behind : Masked Forks false r r') (begun : Begun (s.behind t.token q) r)
      (eq : scan s cs = if r.length < cs.length then t :: scan (s.behind t.token q) r else [t])
      (eq' : scan s cs' =
        if r'.length < cs'.length then t' :: scan (s.behind t'.token q) r' else [t']) :
      Forked previous (scan s cs) := by
    rw [← behind.length_eq, ← h.length_eq, ← token.behind] at eq'
    split at eq
    · rename_i short
      rw [if_pos short] at eq'
      rw [eq'] at free
      obtain ⟨first, others⟩ := List.forall_mem_cons.1 free
      rw [eq]
      exact .cons (first.of_resembles token)
        (ih r.length (count ▸ short) behind begun others _ rfl) previous
    · rename_i long
      rw [if_neg long] at eq'
      exact single token eq eq'
  by_cases inText : s.inText = true
  · have taken := (h.verbatim s.pos s.pos).taken s.pos
    generalize read : ofQuote s.pos (verbatim s.pos s.pos cs) = found at taken
    generalize read' : ofQuote s.pos (verbatim s.pos s.pos cs') = found' at taken
    obtain ⟨t, q, r⟩ := found
    obtain ⟨t', q', r'⟩ := found'
    obtain rfl : q = q' := taken.pos
    exact step taken.token taken.behind (begun.text inText read).2 (scan_text_cases inText read)
      (scan_text_cases inText read')
  rw [Bool.not_eq_true] at inText
  obtain ⟨place, ahead⟩ := h.skipGap .space s.pos
  have visible := skipGap_ne_newline .space s.pos cs
  have suffix := rest_skipGap .space s.pos cs
  generalize skipped : skipGap .space s.pos cs = found at place ahead visible suffix
  generalize skipped' : skipGap .space s.pos cs' = found' at place ahead
  obtain ⟨p, cs₁⟩ := found
  obtain ⟨p', cs₁'⟩ := found'
  obtain rfl : p = p' := place
  have long := suffix.length_le
  have long' : cs₁'.length ≤ cs'.length := by
    rw [← ahead.length_eq, ← h.length_eq]
    exact long
  dsimp only at ahead visible long
  cases ahead with
  | nil =>
    have row : scan s cs = [⟨.ended, p⟩] := by
      rw [scan, inText, if_neg (by decide), skipped]
    have row' : scan s cs' = [⟨.ended, p⟩] := by
      rw [scan, inText, if_neg (by decide), skipped']
    exact single (.refl .ended) row row'
  | @char _ c r r' behind =>
    have line : c ≠ '\n' := fun newline => visible (congrArg some newline)
    have taken := Masked.token (by simpa [line] using behind) line s.operand p
    generalize read : token s.operand p c r = found at taken
    generalize read' : token s.operand p c r' = found' at taken
    obtain ⟨t, q, r₁⟩ := found
    obtain ⟨t', q', r₁'⟩ := found'
    obtain rfl : q = q' := taken.pos
    by_cases good : ∀ reason, t.token ≠ .bad reason
    · exact step taken.token taken.behind (begun.token skipped read).2
        (scan_token_cases inText skipped read good)
        (scan_token_cases inText skipped' read' (taken.token.isBad.1 good))
    · obtain ⟨reason, bad⟩ : ∃ reason, t.token = .bad reason := by simpa using good
      obtain ⟨reason', bad'⟩ : ∃ reason, t'.token = .bad reason := by
        simpa using fun good' => good (taken.token.isBad.2 good')
      exact single taken.token (scan_bad inText skipped read bad)
        (scan_bad inText skipped' read' bad')
  | @guard r r' inside behind =>
    have settled := settled_of_conditional begun skipped
    obtain ⟨p₁, p₂, row⟩ := scan_conditional (show IsVariable modeName by decide) inText skipped
      long
    obtain ⟨p₁', p₂', row'⟩ := scan_conditional (show IsVariable mask by decide) inText skipped'
      long'
    rw [row'] at free
    rw [row]
    have fork := inside ⟨⟨p.line, p.column + 3 + modeName.toList.length⟩, true, s.depths, false⟩ p₂
      ⟨p.line, p.column + 5 + modeName.toList.length⟩ rfl settled
    rw [show mask.toList.length = modeName.toList.length by decide] at free
    obtain ⟨-, -, -, others⟩ : _ ∧ _ ∧ _ ∧ _ := by
      simpa only [List.forall_mem_cons] using free
    have filled : 0 ∉ s.depths := begun.filled settled
    have begun' : Begun ⟨⟨p.line, p.column + 3 + modeName.toList.length⟩, true, s.depths, false⟩
        [] := begun_of_filled filled
    have short : r.length < n := by
      rw [List.length_append] at long
      exact Nat.lt_of_lt_of_le (Nat.lt_add_of_pos_left (by decide)) (count ▸ long)
    have more := ih r.length short behind (begun'.behind (fun zero => absurd zero settled)
      (fun text opening => Token.noConfusion opening) _) others (.sign "\x7b") rfl
    exact forked_conditional fork more previous

end Lexer

end Stencil.Script
