import Stencil.Proofs.Script.Splicing.Tokens

/-!
# Rows of tokens in front of a parenthesis

A text that ends by itself keeps its row of tokens wherever it is put in parentheses.  What tells it
apart can be computed: the rows of the text alone and in parentheses.
-/

namespace Stencil.Script.Lexer

variable {p q : Pos} {c : Char} {r r' : List Char} {t : Placed}

/-- Readers that read the same, at different places perhaps. -/
structure State.Agrees (s s' : State) : Prop where
  operand : s.operand = s'.operand
  depths : s.depths = s'.depths
  inText : s.inText = s'.inText

theorem State.Agrees.behind {s s' : State} (h : s.Agrees s') (t : Token) (p p' : Pos) :
    (s.behind t p).Agrees (s'.behind t p') := by
  unfold State.behind
  rw [← h.depths]
  split
  case h_3 => split <;> exact ⟨rfl, rfl, rfl⟩
  all_goals exact ⟨rfl, rfl, rfl⟩

theorem inText_behind {s : State} {t : Token} (plain : isBrace t = false) (p : Pos) :
    (s.behind t p).inText = false := by
  unfold State.behind
  split <;> simp_all [isBrace]

/-- One token further, behind a gap. -/
theorem scan_cons {s : State} {gap cs r r' : List Char} {c : Char} {t : Token}
    (outside : s.inText = false) (front : IsGap gap)
    (visible : ∀ p, ∃ q, skipGap .space p cs = (q, c :: r))
    (read : ∀ p, ∃ t' q, token s.operand p c r = (t', q, r') ∧ t'.token = t)
    (good : ∀ reason, t ≠ .bad reason) (short : r'.length < (gap ++ cs).length) :
    ∃ t' q, scan s (gap ++ cs) = t' :: scan (s.behind t q) r' ∧ t'.token = t := by
  obtain ⟨p, skipped⟩ := front s.pos cs
  obtain ⟨q, found⟩ := visible p
  obtain ⟨t', q', eq, same⟩ := read q
  refine ⟨t', q', ?_, same⟩
  rw [scan, outside, if_neg (by decide), skipped, found]
  simp only [eq]
  split
  · rename_i bad
    exact absurd (same.symm.trans bad) (good _)
  · rw [if_pos short, same]

theorem token_closing (operand : Bool) (p : Pos) (rest : List Char) :
    ∃ t q, token operand p ')' rest = (t, q, rest) ∧ t.token = .sign ")" :=
  ⟨_, _, rfl, rfl⟩

/-- The parenthesis behind a gap. -/
theorem scan_closing {s : State} {gap rest : List Char} (outside : s.inText = false)
    (front : IsGap gap) {cs : List Char}
    (visible : ∀ p, ∃ q, skipGap .space p cs = (q, ')' :: rest))
    (short : rest.length < (gap ++ cs).length) :
    ∃ t q, scan s (gap ++ cs) = t :: scan ⟨q, true, s.depths, false⟩ rest ∧
      t.token = .sign ")" :=
  scan_cons outside front visible (fun p => token_closing s.operand p rest) (by simp) short

theorem scan_nil {s : State} (outside : s.inText = false) :
    (scan s []).map (·.token) = [.ended] := by
  rw [scan, outside]
  rfl

theorem scan_ne_nil (s : State) (cs : List Char) : scan s cs ≠ [] := by
  unfold scan
  simp only
  repeat' split
  all_goals simp

theorem scan_visible {s : State} {cs : List Char} (outside : s.inText = false)
    (skipped : skipGap .space s.pos cs = (p, c :: r))
    (read : token s.operand p c r = (t, q, r')) :
    scan s cs = [t] ∨ scan s cs = t :: scan (s.behind t.token q) r' := by
  rw [scan, outside, if_neg (by decide), skipped]
  simp only [read]
  split
  · exact .inl rfl
  · split
    · exact .inr rfl
    · exact .inl rfl

theorem token_of_row {s : State} {cs : List Char} {u : Token} {us : List Token}
    (outside : s.inText = false) (skipped : skipGap .space s.pos cs = (p, c :: r))
    (row : (scan s cs).map (·.token) = u :: us) : (token s.operand p c r).1.token = u := by
  rcases scan_visible outside skipped rfl with eq | eq <;>
  · rw [eq, List.map_cons, List.cons.injEq] at row
    exact row.1

/-- A point that ends the text is no token in front of a parenthesis. -/
theorem not_isPointed {s s₁ : State} {cs : List Char} {ts : List Token}
    (outside : s.inText = false) (agrees : s.Agrees s₁)
    (skipped : skipGap .space s.pos cs = (p, c :: r))
    (alone : t.token :: (scan (s.behind t.token q) r').map (·.token) = ts ++ [.ended])
    (enclosed : (scan s₁ (cs ++ [')'])).map (·.token) = ts ++ [.sign ")", .ended]) :
    ¬IsPointed s.operand c r t.token r' := by
  rintro ⟨⟨rfl, plain⟩, inside⟩
  obtain ⟨p₁, skipped₁⟩ := skipGap_append_cons skipped s₁.pos []
  obtain ⟨rest₁, plain₁⟩ := inside p₁
  have outside₁ : s₁.inText = false := agrees.inText.symm.trans outside
  have point : (scan (s.behind t.token q) ['.']).length = 2 := by
    obtain ⟨t', q', eq, -⟩ := scan_cons (t := .sign ".") (inText_behind plain.1 q) isGap_nil
      (fun p => ⟨p, skipGap_visible (c := '.') (by decide) (by decide) p []⟩)
      (fun _ => ⟨_, _, rfl, rfl⟩) (by simp) (by decide)
    have behind := congrArg List.length (scan_nil (s := (s.behind t.token q).behind (.sign ".") q')
      (inText_behind rfl q'))
    rw [List.length_map] at behind
    exact (congrArg List.length eq).trans (congrArg (· + 1) behind)
  have few : (scan s₁ (cs ++ [')'])).length ≤ 3 := by
    rw [agrees.operand] at rest₁ plain₁
    generalize read : token s₁.operand p₁ c (r ++ [')']) = result at rest₁ plain₁
    obtain ⟨t₁, q₁, r₁⟩ := result
    obtain rfl : r₁ = [')'] := rest₁
    rcases scan_visible outside₁ skipped₁ read with eq | eq
    · simp [eq]
    · obtain ⟨t', q', eq', -⟩ := scan_closing (s := s₁.behind t₁.token q₁)
        (inText_behind plain₁.1 q₁) isGap_nil
        (fun p => ⟨p, skipGap_visible (by decide) (by decide) p []⟩) (by decide)
      have behind := congrArg List.length (scan_nil
        (s := ⟨q', true, (s₁.behind t₁.token q₁).depths, false⟩) rfl)
      rw [List.length_map] at behind
      rw [List.nil_append] at eq'
      simp [eq, eq', behind]
  have count := congrArg List.length alone
  have count₁ := congrArg List.length enclosed
  simp only [List.length_cons, List.length_map, List.length_append, List.length_nil] at count count₁
  omega

/-- A token with another one behind it is not the last one. -/
theorem exists_cons_of_alone {t : Token} {s : State} {cs : List Char} {ts : List Token}
    (alone : t :: (scan s cs).map (·.token) = ts ++ [.ended]) :
    ∃ us, ts = t :: us ∧ (scan s cs).map (·.token) = us ++ [.ended] := by
  cases ts with
  | nil =>
    rw [List.nil_append, List.cons.injEq] at alone
    exact absurd (List.map_eq_nil_iff.1 alone.2) (scan_ne_nil _ _)
  | cons u us =>
    rw [List.cons_append, List.cons.injEq] at alone
    exact ⟨us, by rw [alone.1], alone.2⟩

/-- Neither a parenthesis nor a star ends the text. -/
theorem not_mem_halves {s s₁ : State} {cs : List Char} {ts : List Token}
    (outside : s.inText = false) (agrees : s.Agrees s₁)
    (skipped : skipGap .space s.pos cs = (p, c :: r))
    (read : token s.operand p c r = (t, q, r'))
    (alone : t.token :: (scan (s.behind t.token q) r').map (·.token) = ts ++ [.ended])
    (enclosed : (scan s₁ (cs ++ [')'])).map (·.token) = ts ++ [.sign ")", .ended]) :
    c :: r ∉ halves := by
  intro half
  obtain ⟨p₁, skipped₁⟩ := skipGap_append_cons skipped s₁.pos []
  have outside₁ : s₁.inText = false := agrees.inText.symm.trans outside
  -- Both rows begin with the same token.
  have first : (token s.operand p c r).1.token = (token s₁.operand p₁ c (r ++ [')'])).1.token := by
    obtain ⟨us, rfl, -⟩ := exists_cons_of_alone alone
    rw [read, token_of_row outside₁ skipped₁ enclosed]
  simp only [halves, List.mem_cons, List.not_mem_nil, or_false, List.cons.injEq] at half
  rcases half with ⟨rfl, rfl⟩ | ⟨rfl, rfl⟩
  · exact absurd first (show Token.sign "(" ≠ .sign "()" by decide)
  · exact absurd first (show Token.sign "*" ≠ .bad (reservedSign "*)") by simp)

/-- One token further in a back-tick string. -/
theorem scan_text {s : State} {cs : List Char} (inText : s.inText = true)
    (read : ofQuote s.pos (verbatim s.pos s.pos cs) = (t, q, r')) (short : r'.length < cs.length) :
    scan s cs = t :: scan (s.behind t.token q) r' := by
  rw [scan, if_pos inText, read]
  exact if_pos short

theorem scan_text_or {s : State} {cs : List Char} (inText : s.inText = true)
    (read : ofQuote s.pos (verbatim s.pos s.pos cs) = (t, q, r')) :
    scan s cs = [t] ∨ scan s cs = t :: scan (s.behind t.token q) r' := by
  rw [scan, if_pos inText, read]
  by_cases short : r'.length < cs.length
  · exact .inr (if_pos short)
  · exact .inl (if_neg short)

/-- A back-tick string that is not closed swallows the parenthesis. -/
theorem ne_bad_of_text {s s₁ : State} {cs : List Char} {ts : List Token}
    (inText : s.inText = true) (agrees : s.Agrees s₁)
    (alone : t.token :: (scan (s.behind t.token q) r').map (·.token) = ts ++ [.ended])
    (enclosed : (scan s₁ (cs ++ [')'])).map (·.token) = ts ++ [.sign ")", .ended])
    (reason : String) : t.token ≠ .bad reason := by
  intro bad
  obtain ⟨us, rfl, -⟩ := exists_cons_of_alone alone
  have inText₁ : s₁.inText = true := agrees.inText.symm.trans inText
  have rows := @scan_text_or _ _ _ s₁ (cs ++ [')']) inText₁ rfl
  generalize verbatim s₁.pos s₁.pos (cs ++ [')']) = quote at rows
  cases quote with
  | closed text p r | opened text p r =>
    rcases rows with eq | eq <;> simp [eq, bad] at enclosed
  | broken reason p =>
    have behind := scan_nil (s := s₁.behind (.bad reason) p) (inText_behind rfl p)
    have single : (scan (s₁.behind (.bad reason) p) []).length = 1 := by
      simpa using congrArg List.length behind
    have count := congrArg List.length enclosed
    rcases rows with eq | eq <;> simp [eq, single] at count

theorem scan_append {s s₁ s' : State} {cs gap : List Char} {ts : List Token}
    (agrees : s.Agrees s₁) (agrees' : s.Agrees s') (line : '\n' ∉ cs)
    (alone : (scan s cs).map (·.token) = ts ++ [.ended])
    (enclosed : (scan s₁ (cs ++ [')'])).map (·.token) = ts ++ [.sign ")", .ended])
    (front : IsGap gap) (front_text : s.inText = true → gap = []) (rest : List Char) :
    ∃ placed q, placed.map (·.token) = ts ++ [.sign ")"] ∧
      scan s' (gap ++ (cs ++ ')' :: rest)) =
        placed ++ scan ⟨q, true, ts.foldl depthsBehind s.depths, false⟩ rest := by
  fun_induction scan s cs generalizing s₁ s' gap ts with
  | case1 s cs inText t q r' read short ih =>
    have good := ne_bad_of_text inText agrees alone enclosed
    obtain ⟨us, rfl, others⟩ := exists_cons_of_alone alone
    have line' : '\n' ∉ r' := by
      have suffix := rest_verbatim s.pos s.pos cs
      rw [← rest_ofQuote s.pos, read] at suffix
      exact fun h => line (suffix.subset h)
    have step {u : State} (agrees : s.Agrees u) (rest : List Char) :
        ∃ t' q', scan u (cs ++ ')' :: rest) =
          t' :: scan (u.behind t.token q') (r' ++ ')' :: rest) ∧ t'.token = t.token := by
      obtain ⟨t', q', read', same⟩ := ofQuote_of_extends u.pos
        (extends_verbatim s.pos u.pos s.pos u.pos cs rest) read good
      refine ⟨t', q', ?_, same⟩
      rw [← same]
      exact scan_text (agrees.inText.symm.trans inText) read' (by simp; omega)
    obtain ⟨t₁, q₁, eq₁, same₁⟩ := step agrees []
    obtain ⟨t', q', eq', same'⟩ := step agrees' rest
    rw [eq₁, List.map_cons, List.cons_append, List.cons.injEq] at enclosed
    obtain ⟨placed, p', tokens, behind⟩ := ih (agrees.behind t.token q q₁)
      (agrees'.behind t.token q q') line' others enclosed.2 isGap_nil (fun _ => rfl)
    rw [List.nil_append, depths_behind] at behind
    exact ⟨t' :: placed, p', by simp [tokens, same'], by
      rw [front_text inText, List.nil_append, eq', behind]; rfl⟩
  | case2 s cs inText t p r' read long =>
    have other := ofQuote_ne_ended s.pos (verbatim s.pos s.pos cs)
    rw [read] at other
    have last := congrArg List.getLast? alone
    simp [other] at last
  | case3 s cs outside p skipped =>
    obtain rfl : ts = [] := by simpa using alone
    rw [Bool.not_eq_true] at outside
    have outside₁ : s₁.inText = false := agrees.inText.symm.trans outside
    have outside' : s'.inText = false := agrees'.inText.symm.trans outside
    -- A comment that is still open would swallow the parenthesis.
    have visible (p : Pos) : ∃ q, skipGap .space p (cs ++ ')' :: rest) = (q, ')' :: rest) := by
      cases seen : skipGap .space s₁.pos (cs ++ [')']) with
      | mk q r =>
        cases r with
        | nil =>
          rw [scan, outside₁, if_neg (by decide), seen] at enclosed
          simp at enclosed
        | cons c r => exact skipGap_append_nil skipped seen p rest
    obtain ⟨t, q, eq, same⟩ := scan_closing outside' front visible (by simp; omega)
    exact ⟨[t], q, by simp [same], by rw [eq, ← agrees'.depths]; rfl⟩
  | case4 s cs outside p c r skipped t q r' read reason bad =>
    have last := congrArg List.getLast? alone
    simp [bad] at last
  | case5 s cs outside p c r skipped t q r' read short good ih =>
    rw [Bool.not_eq_true] at outside
    have outside₁ : s₁.inText = false := agrees.inText.symm.trans outside
    have outside' : s'.inText = false := agrees'.inText.symm.trans outside
    have line' : '\n' ∉ c :: r := by
      have suffix := rest_skipGap .space s.pos cs
      rw [skipped] at suffix
      exact fun h => line (suffix.subset h)
    have line'' : '\n' ∉ r' := by
      have suffix := (rest_token s.operand p c r).1
      rw [read] at suffix
      exact fun h => line' (suffix.subset h)
    obtain isLocal | pointed | half := token_append line' read good
    · obtain ⟨us, rfl, others⟩ := exists_cons_of_alone alone
      have step {u : State} {gap : List Char} (agrees : s.Agrees u) (front : IsGap gap)
          (rest : List Char) : ∃ t' q', scan u (gap ++ (cs ++ ')' :: rest)) =
            t' :: scan (u.behind t.token q') (r' ++ ')' :: rest) ∧ t'.token = t.token :=
        scan_cons (agrees.inText.symm.trans outside) front
          (fun p => skipGap_append_cons skipped p rest)
          (fun p => agrees.operand ▸ isLocal p rest) good (by simp; omega)
      obtain ⟨t₁, q₁, eq₁, same₁⟩ := step agrees isGap_nil []
      obtain ⟨t', q', eq', same'⟩ := step agrees' front rest
      rw [List.nil_append] at eq₁
      rw [eq₁, List.map_cons, List.cons_append, List.cons.injEq] at enclosed
      obtain ⟨placed, p', tokens, behind⟩ := ih (agrees.behind t.token q q₁)
        (agrees'.behind t.token q q') line'' others enclosed.2 isGap_nil (fun _ => rfl)
      rw [List.nil_append, depths_behind] at behind
      exact ⟨t' :: placed, p', by simp [tokens, same'], by rw [eq', behind]; rfl⟩
    · exact absurd pointed (not_isPointed outside agrees skipped alone enclosed)
    · exact absurd half (not_mem_halves outside agrees skipped read alone enclosed)
  | case6 s cs outside p c r skipped t q r' read long good =>
    have other := (rest_token s.operand p c r).2
    rw [read] at other
    have last := congrArg List.getLast? alone
    simp [other] at last

/-! ## Terminated texts -/

/-- The tokens of a text without its end. -/
def tokensOf (text : String) : List Token := ((tokens text).map (·.token)).dropLast

/--
A text that ends by itself: a parenthesis that is put behind it stands behind its tokens, neither in a
comment nor joined with the last one, and is not taken for the beginning of something.
-/
structure IsTerminated (text : String) : Prop where
  alone : (tokens text).map (·.token) = tokensOf text ++ [.ended]
  enclosed : (tokens ("(" ++ text ++ ")")).map (·.token) =
    .sign "(" :: tokensOf text ++ [.sign ")", .ended]
  last : ∀ t ∈ (tokensOf text).getLast?, t ∉ openers

instance (text : String) : Decidable (IsTerminated text) :=
  decidable_of_iff ((tokens text).map (·.token) = tokensOf text ++ [.ended] ∧
      (tokens ("(" ++ text ++ ")")).map (·.token) =
        .sign "(" :: tokensOf text ++ [.sign ")", .ended] ∧
      ∀ t ∈ (tokensOf text).getLast?, t ∉ openers)
    ⟨fun ⟨alone, enclosed, last⟩ => ⟨alone, enclosed, last⟩,
      fun h => ⟨h.alone, h.enclosed, h.last⟩⟩

/-- A text in parentheses, for a reader that finds in it the tokens that it has by itself. -/
theorem scan_terminated {text : List Char} {ts : List Token} {depths : List Nat}
    (line : '\n' ∉ text)
    (alone : (scan ⟨Pos.start, false, depths, false⟩ text).map (·.token) = ts ++ [.ended])
    (enclosed : (scan ⟨Pos.start, false, depths, false⟩ ('(' :: (text ++ [')']))).map (·.token) =
      .sign "(" :: ts ++ [.sign ")", .ended])
    {s : State} (outside : s.inText = false) (same : s.depths = depths) {gap : List Char}
    (front : IsGap gap) (rest : List Char) :
    ∃ placed q, placed.map (·.token) = .sign "(" :: (ts ++ [.sign ")"]) ∧
      scan s (gap ++ ('(' :: (text ++ ')' :: rest))) =
        placed ++ scan ⟨q, true, ts.foldl depthsBehind depths, false⟩ rest := by
  let start : State := ⟨Pos.start, false, depths, false⟩
  have visible (more : List Char) (p : Pos) :
      ∃ q, skipGap .space p ('(' :: more) = (q, '(' :: more) :=
    ⟨p, skipGap_visible (by decide) (by decide) p more⟩
  have opening (more : List Char) (operand : Bool) (p : Pos) : ∃ t q,
      token operand p '(' (text ++ ')' :: more) = (t, q, text ++ ')' :: more) ∧
        t.token = .sign "(" := by
    -- The row in parentheses begins with a parenthesis alone, whatever comes behind it.
    have head := token_of_row (s := start) rfl
      (skipGap_visible (by decide) (by decide) _ (text ++ [')'])) enclosed
    cases chars : text with
    | nil =>
      rw [chars] at head
      exact absurd head (show Token.sign "()" ≠ .sign "(" by decide)
    | cons c cs =>
      rw [chars] at head
      have star : c ≠ '*' := by
        rintro rfl
        exact absurd head (show Token.bad (reservedSign "(*") ≠ .sign "(" by simp)
      have closing : c ≠ ')' := by
        rintro rfl
        exact absurd head (show Token.sign "()" ≠ .sign "(" by decide)
      obtain ⟨q, eq⟩ := Lexes.token_opening_parenthesis star closing operand p
      exact ⟨_, q, eq, rfl⟩
  obtain ⟨t₁, q₁, eq₁, -⟩ := scan_cons (s := start) rfl isGap_nil (visible (text ++ [')']))
    (opening [] start.operand) (by simp) (by simp)
  rw [List.nil_append] at eq₁
  rw [eq₁, List.map_cons, List.cons_append, List.cons.injEq] at enclosed
  obtain ⟨t, q, eq, head⟩ := scan_cons outside front (visible (text ++ ')' :: rest))
    (opening rest s.operand) (by simp) (by simp; omega)
  have agrees (u : State) (same : u.depths = depths) (q : Pos) :
      start.Agrees (u.behind (.sign "(") q) := by
    obtain ⟨_, _, D, _⟩ := u
    obtain rfl : D = depths := same
    cases D <;> exact ⟨rfl, rfl, rfl⟩
  obtain ⟨placed, q', read, eq'⟩ := scan_append (agrees start rfl q₁) (agrees s same q) line alone
    enclosed.2 isGap_nil (fun _ => rfl) rest
  rw [List.nil_append] at eq'
  exact ⟨t :: placed, q', by simp [read, head], by rw [eq, eq', List.cons_append]⟩

theorem IsTerminated.enclosed_chars {text : String} (terminated : IsTerminated text) :
    (scan ⟨Pos.start, false, [], false⟩ ('(' :: (text.toList ++ [')']))).map (·.token) =
      .sign "(" :: tokensOf text ++ [.sign ")", .ended] := by
  have row := terminated.enclosed
  have chars : ("(" ++ text ++ ")").toList = '(' :: (text.toList ++ [')']) := by simp
  rwa [tokens, chars] at row

theorem lexes_terminated {text : String} (terminated : IsTerminated text)
    (line : '\n' ∉ text.toList) (settled : (tokensOf text).foldl depthsBehind [] = [])
    (rest : List Char) :
    Lexes ('(' :: (text.toList ++ [')'])) (.sign "(" :: (tokensOf text ++ [.sign ")"])) rest := by
  rintro operand s gap ⟨depths, inText⟩ - hg
  obtain ⟨placed, q, read, eq⟩ := scan_terminated line terminated.alone terminated.enclosed_chars
    inText depths hg rest
  refine ⟨placed, ⟨q, true, (tokensOf text).foldl depthsBehind [], false⟩, [], ⟨settled, rfl⟩, ?_,
    isGap_nil, read, ?_⟩
  · rw [endsOperand, ← List.cons_append, List.foldl_append]
    rfl
  · have whole : '(' :: (text.toList ++ [')']) ++ rest = '(' :: (text.toList ++ ')' :: rest) := by
      simp
    rw [whole, eq]
    rfl

end Stencil.Script.Lexer
