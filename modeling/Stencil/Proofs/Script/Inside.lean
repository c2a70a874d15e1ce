import Stencil.Proofs.Script.Levels

/-!
# Statements wherever they stand

Statements have the same tokens in the expression of a back-tick string as outside of strings, and
leave the braces around them as they were.  Such texts are put together from words, signs, literals,
blocks in braces and terminated expressions in parentheses.
-/

namespace Stencil.Script.Lexer

open Lexes (EndsWord endsWord_cons)

/-- The text `cs` before `rest` is read as the tokens `ts` wherever a statement may stand. -/
def LexesInside (cs : List Char) (ts : List Token) (rest : List Char) : Prop :=
  ∀ s gap, s.inText = false → Settled s.depths → IsGap gap → ∃ placed s' gap',
    s'.inText = false ∧ s'.depths = s.depths ∧ IsGap gap' ∧ placed.map (·.token) = ts ∧
    scan s (gap ++ (cs ++ rest)) = placed ++ scan s' (gap' ++ rest)

theorem visible {c : Char} (blank : Text.isBlank c = false) (slash : c ≠ '/') (rest : List Char)
    (p : Pos) : ∃ q, skipGap .space p (c :: rest) = (q, c :: rest) :=
  ⟨p, skipGap_visible blank slash p rest⟩

/-- Behind the closing brace of a block a reader stands where it stood in front of it. -/
theorem behind_closing {s u : State} (settled : Settled s.depths)
    (inside : u.depths = depthsBehind s.depths (.sign "\x7b")) (q : Pos) :
    (u.behind (.sign "\x7d") q).inText = false ∧
      (u.behind (.sign "\x7d") q).depths = s.depths := by
  refine ⟨?_, by rw [depths_behind, inside, depthsBehind_closing settled]⟩
  unfold State.behind
  rw [inside]
  cases depths : s.depths with
  | nil => rfl
  | cons d ds =>
    have open_ : d ≠ 0 := by simpa [Settled, depths] using settled
    simp [depthsBehind, State.behind, open_]

namespace LexesInside

variable {cs ds rest : List Char} {ts us : List Token}

theorem nil : LexesInside [] [] rest :=
  fun s gap outside _ hg => ⟨[], s, gap, outside, rfl, hg, rfl, rfl⟩

theorem append (first : LexesInside cs ts (ds ++ rest)) (second : LexesInside ds us rest) :
    LexesInside (cs ++ ds) (ts ++ us) rest := by
  intro s gap outside settled hg
  obtain ⟨placed, s', gap', outside', depths, hg', hp, eq⟩ := first s gap outside settled hg
  obtain ⟨placed', s'', gap'', outside'', depths', hg'', hp', eq'⟩ :=
    second s' gap' outside' (depths ▸ settled) hg'
  refine ⟨placed ++ placed', s'', gap'', outside'', depths'.trans depths, hg'',
    by simp [hp, hp'], ?_⟩
  rw [List.append_assoc, eq, eq', List.append_assoc]

theorem gap (h : IsGap cs) : LexesInside cs [] rest :=
  fun s front outside _ hg => ⟨[], s, front ++ cs, outside, rfl, hg.append h, rfl, by simp⟩

theorem blank {c : Char} (h : Text.isBlank c = true) (behind : LexesInside cs ts rest) :
    LexesInside (c :: cs) ts rest := by
  have first : LexesInside [c] [] (cs ++ rest) := gap (isGap_blank (by simp [h]))
  exact first.append behind

/-! ## Words, signs and literals -/

theorem token {c : Char} {r : List Char} {t : Token} (shown : Text.isBlank c = false)
    (slash : c ≠ '/') (plain : isBrace t = false) (good : ∀ reason, t ≠ .bad reason)
    (h : ∀ operand p, ∃ q, Lexer.token operand p c (r ++ rest) = (⟨t, p⟩, q, rest)) :
    LexesInside (c :: r) [t] rest := by
  intro s gap outside settled hg
  obtain ⟨u, q, eq, same⟩ := scan_cons (t := t) outside hg (visible shown slash (r ++ rest))
    (fun p => by obtain ⟨q, read⟩ := h s.operand p; exact ⟨_, q, read, rfl⟩) good
    (by simp; omega)
  refine ⟨[u], s.behind t q, [], inText_behind plain q, ?_, isGap_nil, by simp [same], eq⟩
  rw [depths_behind, depthsBehind_of_isBrace_eq_false plain]

theorem word_of_token {w : String} {t : Token} (start : (w.toList.head?.map isNameStart) = some true)
    (parts : w.toList.all isNamePart = true) (ht : tokenOfWord w = t) (plain : isBrace t = false)
    (good : ∀ reason, t ≠ .bad reason) (behind : EndsWord rest) :
    LexesInside w.toList [t] rest := by
  cases chars : w.toList with
  | nil => simp [chars] at start
  | cons c r =>
    have first : isNameStart c = true := by simpa [chars] using start
    have same : tokenOfWord (String.ofList (c :: r)) = t := by
      rw [← chars, String.ofList_toList, ht]
    refine token (Lexes.isBlank_eq_false_of_isNameStart first)
      (Lexes.ne_of_isNameStart first (by decide)) plain good ?_
    exact fun operand p => ⟨_, same ▸ Lexes.token_word first (chars ▸ parts) behind operand p⟩

theorem keyword {w : String} (hw : w ∈ grammarWords) (behind : EndsWord rest) :
    LexesInside w.toList [.word w] rest := by
  have table : ∀ w ∈ grammarWords, (w.toList.head?.map isNameStart) = some true ∧
      w.toList.all isNamePart = true ∧ tokenOfWord w = .word w := by decide
  obtain ⟨start, parts, token⟩ := table w hw
  exact word_of_token start parts token rfl (by simp) behind

theorem variable_name {name : String} (h : IsVariable name) (behind : EndsWord rest) :
    LexesInside name.toList [.name name] rest :=
  word_of_token h.start h.parts h.token rfl (by simp) behind

theorem semicolon : LexesInside [';'] [.sign ";"] rest :=
  token (by decide) (by decide) rfl (by simp) fun _ _ => ⟨_, rfl⟩

theorem plus_equals : LexesInside ['+', '='] [.sign "+="] rest :=
  token (by decide) (by decide) rfl (by simp) fun _ _ => ⟨_, rfl⟩

theorem literal (text : String) (behind : rest.head? ≠ some '"') :
    LexesInside (Text.literal text).toList [.text text] rest := by
  rw [Text.literal, String.toList_ofList, Text.literalChars]
  refine token (by decide) (by decide) rfl (by simp) fun operand p => ?_
  refine ⟨⟨p.line, p.column + (Text.literalChars text.toList).length⟩, ?_⟩
  rw [List.append_assoc, List.singleton_append,
    Lexes.token_literalChars text.toList operand p behind, String.ofList_toList]

/-! ## Braces and parentheses -/

/-- Behind its opening brace a block is read up to the closing one and left. -/
theorem behind_opening (inside : LexesInside cs ts ('\x7d' :: rest)) {s : State}
    (settled : Settled s.depths) (q : Pos) :
    ∃ placed p u, placed.map (·.token) = ts ∧ u.inText = false ∧ u.depths = s.depths ∧
      scan (s.behind (.sign "\x7b") q) (cs ++ '\x7d' :: rest) =
        placed ++ ⟨.sign "\x7d", p⟩ :: scan u rest := by
  have outside : (s.behind (.sign "\x7b") q).inText = false := by
    unfold State.behind
    split <;> simp_all
  obtain ⟨placed, u, gap, inText, depths, hg, tokens, eq⟩ :=
    inside (s.behind (.sign "\x7b") q) [] outside
      (depths_behind s _ q ▸ settled_opening s.depths) isGap_nil
  obtain ⟨⟨_, p⟩, q', eq', rfl⟩ := @scan_cons u gap _ _ rest '\x7d' (.sign "\x7d") inText hg
    (visible (by decide) (by decide) rest) (fun p => ⟨_, _, rfl, rfl⟩) (by simp) (by simp; omega)
  obtain ⟨behind, same⟩ := behind_closing settled (depths.trans (depths_behind s _ q)) q'
  exact ⟨placed, p, u.behind (.sign "\x7d") q', tokens, behind, same, by rw [← eq', ← eq]; rfl⟩

theorem opening {s : State} {gap : List Char} (outside : s.inText = false) (hg : IsGap gap)
    (rest : List Char) : ∃ p q, scan s (gap ++ '\x7b' :: rest) =
      ⟨.sign "\x7b", p⟩ :: scan (s.behind (.sign "\x7b") q) rest := by
  obtain ⟨⟨_, p⟩, q, eq, rfl⟩ := @scan_cons s gap _ _ rest '\x7b' (.sign "\x7b") outside hg
    (visible (by decide) (by decide) rest) (fun p => ⟨_, _, rfl, rfl⟩) (by simp) (by simp; omega)
  exact ⟨p, q, eq⟩

theorem braces (inside : LexesInside cs ts ('\x7d' :: rest)) :
    LexesInside ('\x7b' :: (cs ++ ['\x7d'])) (.sign "\x7b" :: (ts ++ [.sign "\x7d"])) rest := by
  intro s gap outside settled hg
  obtain ⟨p, q, eq⟩ := opening outside hg (cs ++ '\x7d' :: rest)
  obtain ⟨placed, p', u, tokens, behind, same, eq'⟩ := inside.behind_opening settled q
  have whole : '\x7b' :: (cs ++ ['\x7d']) ++ rest = '\x7b' :: (cs ++ '\x7d' :: rest) := by simp
  refine ⟨⟨.sign "\x7b", p⟩ :: (placed ++ [⟨.sign "\x7d", p'⟩]), u, [], behind, same, isGap_nil,
    by simp [tokens], ?_⟩
  rw [whole, eq, eq', List.nil_append, List.cons_append, List.append_assoc, List.singleton_append]

theorem terminated {text : String} (terminated : IsTerminated text) (line : '\n' ∉ text.toList)
    (balanced : IsBalanced (tokensOf text)) (closed : (tokensOf text).foldl depthsBehind [] = []) :
    LexesInside ('(' :: (text.toList ++ [')'])) (.sign "(" :: (tokensOf text ++ [.sign ")"]))
      rest := by
  intro s gap outside settled hg
  have start : Outside ⟨Pos.start, false, [], false⟩ := ⟨rfl, rfl⟩
  -- Both rows by which a terminated text is told are the same inside of braces.
  obtain ⟨alone, same⟩ := scan_inside start terminated.alone balanced closed settled
  have parenthesis (sign : String) (other : isBrace (.sign sign) = false) :
      IsBalanced [.sign sign] := by
    simp [IsBalanced, level?, levelBehind?_of_isBrace_eq_false other]
  have still : ([Token.sign "("] ++ (tokensOf text ++ [Token.sign ")"])).foldl depthsBehind [] =
      [] := by
    rw [List.foldl_append, List.foldl_append]
    change depthsBehind ((tokensOf text).foldl depthsBehind []) (.sign ")") = []
    rw [closed]
    rfl
  have row := terminated.enclosed_chars
  rw [show .sign "(" :: tokensOf text ++ [.sign ")", .ended] =
    ([.sign "("] ++ (tokensOf text ++ [.sign ")"])) ++ [.ended] by simp] at row
  obtain ⟨enclosed, -⟩ := scan_inside start row
    ((parenthesis "(" rfl).append (balanced.append (parenthesis ")" rfl))) still settled
  obtain ⟨placed, q, tokens, eq⟩ := scan_terminated line
    ((congrArg _ alone).trans terminated.alone) ((congrArg _ enclosed).trans
      terminated.enclosed_chars) outside rfl hg rest
  refine ⟨placed, ⟨q, true, (tokensOf text).foldl depthsBehind s.depths, false⟩, [], rfl, same,
    isGap_nil, tokens, ?_⟩
  have whole : '(' :: (text.toList ++ [')']) ++ rest = '(' :: (text.toList ++ ')' :: rest) := by
    simp
  rw [whole, eq]
  rfl

end LexesInside

end Stencil.Script.Lexer
