import Stencil.Script.Lexer
import Stencil.Text.Quoted

/-!
# Texts and their tokens

A text lexes to a row of tokens if a reader that stands before it, outside of back-tick strings,
comes behind it with these tokens, whatever their places.  A word, a sign and a string literal lex to
one token each, provided that the next character does not prolong it; white space and comments lex to
nothing.  Texts that stand one behind the other lex to one row of tokens.
-/

namespace Stencil.Script.Lexer

structure IsVariable (name : String) : Prop where
  start : (name.toList.head?.map isNameStart) = some true
  parts : name.toList.all isNamePart = true
  token : tokenOfWord name = .name name

instance (name : String) : Decidable (IsVariable name) :=
  decidable_of_iff ((name.toList.head?.map isNameStart) = some true ∧
      name.toList.all isNamePart = true ∧ tokenOfWord name = .name name)
    ⟨fun ⟨start, parts, token⟩ => ⟨start, parts, token⟩, fun h => ⟨h.start, h.parts, h.token⟩⟩

/-! ## Gaps -/

def IsGap (gap : List Char) : Prop :=
  ∀ p rest, ∃ q, skipGap .space p (gap ++ rest) = skipGap .space q rest

theorem isGap_nil : IsGap [] := fun p _ => ⟨p, rfl⟩

theorem IsGap.append {gap more : List Char} (h : IsGap gap) (h' : IsGap more) :
    IsGap (gap ++ more) := by
  intro p rest
  obtain ⟨q, hq⟩ := h p (more ++ rest)
  obtain ⟨q', hq'⟩ := h' q rest
  exact ⟨q', by rw [List.append_assoc, hq, hq']⟩

theorem skipGap_blank {c : Char} (h : Text.isBlank c = true) (p : Pos) (rest : List Char) :
    skipGap .space p (c :: rest) = skipGap .space (p.past c) rest := by
  have hc : c ≠ '/' := by
    rintro rfl
    revert h
    decide
  rw [skipGap.eq_def]
  simp [h, hc]

theorem skipGap_visible {c : Char} (h : Text.isBlank c = false) (hc : c ≠ '/') (p : Pos)
    (rest : List Char) : skipGap .space p (c :: rest) = (p, c :: rest) := by
  rw [skipGap.eq_def]
  simp [h, hc]

theorem isGap_blank {gap : List Char} (h : gap.all Text.isBlank = true) : IsGap gap := by
  induction gap with
  | nil => exact isGap_nil
  | cons c rest ih =>
    rw [List.all_cons, Bool.and_eq_true] at h
    have first : IsGap [c] := fun p more => ⟨p.past c, skipGap_blank h.1 p more⟩
    exact first.append (ih h.2)

theorem skipGap_line {text : List Char} (h : ∀ c ∈ text, c ≠ '\n' ∧ c ≠ '\r') (p : Pos)
    (rest : List Char) :
    ∃ q, skipGap .line p (text ++ '\n' :: rest) = skipGap .space q rest := by
  induction text generalizing p with
  | nil => exact ⟨p.down, by rw [List.nil_append, skipGap.eq_def]; simp⟩
  | cons c more ih =>
    obtain ⟨hn, hr⟩ := h c (by simp)
    obtain ⟨q, hq⟩ := ih (fun d hd => h d (by simp [hd])) p.right
    refine ⟨q, ?_⟩
    rw [← hq, List.cons_append, skipGap.eq_def]
    simp [hn, hr]

theorem isGap_comment {text : List Char} (h : ∀ c ∈ text, c ≠ '\n' ∧ c ≠ '\r') :
    IsGap ('/' :: '/' :: (text ++ ['\n'])) := by
  intro p rest
  obtain ⟨q, hq⟩ := skipGap_line h p.right.right rest
  refine ⟨q, ?_⟩
  rw [← hq, List.cons_append, List.cons_append, skipGap.eq_def, List.append_assoc]
  rfl

/-! ## Lexing -/

/-- A reader outside of back-tick strings. -/
structure Outside (s : State) : Prop where
  depths : s.depths = []
  inText : s.inText = false

/-- Whether an operand ends behind the tokens `ts`, if that is so in front of them or not. -/
def endsOperand (before : Bool) (ts : List Token) : Bool :=
  ts.foldl (fun _ t => t.endsOperand) before

/-- Behind an operand, or else in front of one, the text `cs` before `rest` is read as `ts`. -/
def LexesFrom (operand : Bool) (cs : List Char) (ts : List Token) (rest : List Char) : Prop :=
  ∀ s gap, Outside s → s.operand = operand → IsGap gap → ∃ placed s' gap', Outside s' ∧
    s'.operand = endsOperand operand ts ∧ IsGap gap' ∧ placed.map (·.token) = ts ∧
    scan s (gap ++ (cs ++ rest)) = placed ++ scan s' (gap' ++ rest)

/-- The text `cs` before `rest` is read as the tokens `ts`. -/
def Lexes (cs : List Char) (ts : List Token) (rest : List Char) : Prop :=
  ∀ operand, LexesFrom operand cs ts rest

def IsClosed (t : Token) : Prop := (∀ s, t ≠ .opening s) ∧ ∀ reason, t ≠ .bad reason

theorem outside_behind {s : State} (hs : Outside s) {t : Token} (ht : IsClosed t) (p : Pos) :
    Outside (s.behind t p) ∧ (s.behind t p).operand = t.endsOperand := by
  obtain ⟨pos, operand, depths, inText⟩ := s
  obtain ⟨rfl, rfl⟩ : depths = [] ∧ inText = false := ⟨hs.depths, hs.inText⟩
  unfold State.behind
  split
  · simp_all
  · simp_all
  · simp_all
  · exact absurd rfl (ht.1 _)
  · exact ⟨⟨rfl, rfl⟩, rfl⟩

namespace LexesFrom

variable {operand : Bool} {cs ds rest : List Char} {ts us : List Token}

theorem append (first : LexesFrom operand cs ts (ds ++ rest))
    (second : LexesFrom (endsOperand operand ts) ds us rest) :
    LexesFrom operand (cs ++ ds) (ts ++ us) rest := by
  intro s gap hs ho hg
  obtain ⟨placed, s', gap', hs', ho', hg', hp, eq⟩ := first s gap hs ho hg
  obtain ⟨placed', s'', gap'', hs'', ho'', hg'', hp', eq'⟩ := second s' gap' hs' ho' hg'
  refine ⟨placed ++ placed', s'', gap'', hs'', ?_, hg'', by simp [hp, hp'], ?_⟩
  · rw [ho'', endsOperand, endsOperand, endsOperand, List.foldl_append]
  · rw [List.append_assoc, eq, eq', List.append_assoc]

theorem token {c : Char} {r : List Char} {t : Token} (visible : Text.isBlank c = false)
    (slash : c ≠ '/') (closed : IsClosed t)
    (h : ∀ p, ∃ q, Lexer.token operand p c (r ++ rest) = (⟨t, p⟩, q, rest)) :
    LexesFrom operand (c :: r) [t] rest := by
  intro s gap hs ho hg
  obtain ⟨p, hp⟩ := hg s.pos (c :: (r ++ rest))
  obtain ⟨q, hq⟩ := h p
  obtain ⟨outside, ends⟩ := outside_behind hs closed q
  refine ⟨[⟨t, p⟩], s.behind t q, [], outside, ends, isGap_nil, rfl, ?_⟩
  have short : rest.length < (gap ++ (c :: (r ++ rest))).length := by simp; omega
  rw [List.cons_append, scan, hs.inText, if_neg (by decide), hp, skipGap_visible visible slash, ho]
  simp only [hq]
  cases t with
  | bad reason => exact absurd rfl (closed.2 reason)
  | _ => rw [if_pos short, List.nil_append, List.singleton_append]

end LexesFrom

namespace Lexes

variable {cs ds rest : List Char} {ts us : List Token}

theorem nil : Lexes [] [] rest :=
  fun _ s gap hs ho hg => ⟨[], s, gap, hs, ho, hg, rfl, rfl⟩

theorem append (first : Lexes cs ts (ds ++ rest)) (second : Lexes ds us rest) :
    Lexes (cs ++ ds) (ts ++ us) rest :=
  fun operand => (first operand).append (second _)

theorem gap (h : IsGap cs) : Lexes cs [] rest := by
  intro operand s gap hs ho hg
  exact ⟨[], s, gap ++ cs, hs, ho, hg.append h, rfl, by simp⟩

theorem blank {c : Char} (h : Text.isBlank c = true) (behind : Lexes cs ts rest) :
    Lexes (c :: cs) ts rest := by
  have first : Lexes [c] [] (cs ++ rest) := gap (isGap_blank (by simp [h]))
  exact first.append behind

theorem token {c : Char} {r : List Char} {t : Token} (visible : Text.isBlank c = false)
    (slash : c ≠ '/') (closed : IsClosed t)
    (h : ∀ operand p, ∃ q, Lexer.token operand p c (r ++ rest) = (⟨t, p⟩, q, rest)) :
    Lexes (c :: r) [t] rest :=
  fun operand => LexesFrom.token visible slash closed (h operand)

/-! ## Words -/

def EndsWord (rest : List Char) : Prop := ∀ c, rest.head? = some c → isNamePart c = false

theorem toNat_of_isUpper {c : Char} (h : c.isUpper = true) : 65 ≤ c.toNat ∧ c.toNat ≤ 90 := by
  obtain ⟨least, greatest⟩ := of_decide_eq_true h
  exact ⟨least, greatest⟩

theorem toNat_of_isLower {c : Char} (h : c.isLower = true) : 97 ≤ c.toNat ∧ c.toNat ≤ 122 := by
  obtain ⟨least, greatest⟩ := Bool.and_eq_true_iff.1 h
  exact ⟨of_decide_eq_true least, of_decide_eq_true greatest⟩

theorem toNat_of_isDigit {c : Char} (h : c.isDigit = true) : 48 ≤ c.toNat ∧ c.toNat ≤ 57 := by
  obtain ⟨least, greatest⟩ := Bool.and_eq_true_iff.1 h
  exact ⟨of_decide_eq_true least, of_decide_eq_true greatest⟩

theorem toNat_of_isAlpha {c : Char} (h : c.isAlpha = true) :
    (65 ≤ c.toNat ∧ c.toNat ≤ 90) ∨ (97 ≤ c.toNat ∧ c.toNat ≤ 122) := by
  cases Bool.or_eq_true_iff.1 h with
  | inl upper => exact .inl (toNat_of_isUpper upper)
  | inr lower => exact .inr (toNat_of_isLower lower)

theorem toNat_of_isNameStart {c : Char} (h : isNameStart c = true) :
    (65 ≤ c.toNat ∧ c.toNat ≤ 90) ∨ (97 ≤ c.toNat ∧ c.toNat ≤ 122) ∨ c.toNat = 95 := by
  simp only [isNameStart, Bool.or_eq_true, decide_eq_true_eq] at h
  rcases h with letter | rfl
  · have := toNat_of_isAlpha letter
    omega
  · exact .inr (.inr rfl)

theorem isBlank_eq_false_of_isNameStart {c : Char} (h : isNameStart c = true) :
    Text.isBlank c = false := by
  have := toNat_of_isNameStart h
  simp only [Text.isBlank, Bool.or_eq_false_iff, Bool.and_eq_false_iff, decide_eq_false_iff_not,
    beq_eq_false_iff_ne]
  omega

theorem ne_of_isNameStart {c d : Char} (h : isNameStart c = true)
    (hd : isNameStart d = false) : c ≠ d := by
  rintro rfl
  simp [h] at hd

theorem takeWhile_isNamePart {w : List Char} (hw : w.all isNamePart = true)
    (behind : EndsWord rest) :
    (w ++ rest).takeWhile isNamePart = w ∧ (w ++ rest).dropWhile isNamePart = rest := by
  have hw' : ∀ c ∈ w, isNamePart c = true := by simpa using hw
  rw [List.takeWhile_append_of_pos hw', List.dropWhile_append_of_pos hw']
  cases rest with
  | nil => simp
  | cons c more =>
    have hc := behind c rfl
    simp [hc]

theorem token_word {c : Char} {r : List Char} (start : isNameStart c = true)
    (parts : (c :: r).all isNamePart = true) (behind : EndsWord rest) (operand : Bool) (p : Pos) :
    Lexer.token operand p c (r ++ rest) = (⟨tokenOfWord (String.ofList (c :: r)), p⟩,
      ⟨p.line, p.column + (c :: r).length⟩, rest) := by
  obtain ⟨taken, dropped⟩ := takeWhile_isNamePart parts behind
  rw [List.cons_append] at taken dropped
  have width : advance p (c :: (r ++ rest)) rest = ⟨p.line, p.column + (c :: r).length⟩ := by
    rw [advance, ← List.cons_append, List.length_append, Nat.add_sub_cancel]
  rw [← width, Lexer.token]
  simp only [ne_of_isNameStart start (show isNameStart '"' = false by decide),
    ne_of_isNameStart start (show isNameStart '`' = false by decide),
    ne_of_isNameStart start (show isNameStart '\'' = false by decide), start, if_true, if_false,
    taken, dropped]

theorem word {c : Char} {r : List Char} (start : isNameStart c = true)
    (parts : (c :: r).all isNamePart = true)
    (closed : IsClosed (tokenOfWord (String.ofList (c :: r)))) (behind : EndsWord rest) :
    Lexes (c :: r) [tokenOfWord (String.ofList (c :: r))] rest :=
  token (isBlank_eq_false_of_isNameStart start) (ne_of_isNameStart start (by decide))
    closed fun operand p => ⟨_, token_word start parts behind operand p⟩

theorem toNat_of_isNamePart {c : Char} (h : isNamePart c = true) :
    (48 ≤ c.toNat ∧ c.toNat ≤ 57) ∨ (65 ≤ c.toNat ∧ c.toNat ≤ 90) ∨
      (97 ≤ c.toNat ∧ c.toNat ≤ 122) ∨ c.toNat = 95 := by
  simp only [isNamePart, Bool.or_eq_true, decide_eq_true_eq] at h
  rcases h with part | rfl
  · cases Bool.or_eq_true_iff.1 part with
    | inl letter =>
      have := toNat_of_isAlpha letter
      omega
    | inr digit => exact .inl (toNat_of_isDigit digit)
  · exact .inr (.inr (.inr rfl))

theorem isNamePart_eq_false_of_isBlank {c : Char} (h : Text.isBlank c = true) :
    isNamePart c = false := by
  simp only [Text.isBlank, Bool.or_eq_true, Bool.and_eq_true, decide_eq_true_eq,
    beq_iff_eq] at h
  rw [Bool.eq_false_iff]
  intro part
  have := toNat_of_isNamePart part
  omega

theorem endsWord_cons {c : Char} (h : isNamePart c = false) : EndsWord (c :: rest) := by
  intro d hd
  simp only [List.head?_cons, Option.some.injEq] at hd
  rw [← hd, h]

theorem word_of_token {w : String} {t : Token} (start : (w.toList.head?.map isNameStart) = some true)
    (parts : w.toList.all isNamePart = true) (ht : tokenOfWord w = t) (closed : IsClosed t)
    (behind : EndsWord rest) : Lexes w.toList [t] rest := by
  cases chars : w.toList with
  | nil => simp [chars] at start
  | cons c r =>
    have same : tokenOfWord (String.ofList (c :: r)) = t := by
      rw [← chars, String.ofList_toList, ht]
    rw [← same]
    have first : isNameStart c = true := by simpa [chars] using start
    exact word first (chars ▸ parts) (same ▸ closed) behind

theorem keyword {w : String} (hw : w ∈ grammarWords) (behind : EndsWord rest) :
    Lexes w.toList [.word w] rest := by
  have table : ∀ w ∈ grammarWords, (w.toList.head?.map isNameStart) = some true ∧
      w.toList.all isNamePart = true ∧ tokenOfWord w = .word w := by decide
  obtain ⟨start, parts, token⟩ := table w hw
  exact word_of_token start parts token ⟨by simp, by simp⟩ behind

theorem variable_name {name : String} (h : IsVariable name) (behind : EndsWord rest) :
    Lexes name.toList [.name name] rest :=
  word_of_token h.start h.parts h.token ⟨by simp, by simp⟩ behind

/-! ## Signs -/

theorem opening_brace : Lexes ['\x7b'] [.sign "\x7b"] rest :=
  token (by decide) (by decide) ⟨by simp, by simp⟩ fun _ _ => ⟨_, rfl⟩

theorem closing_brace : Lexes ['\x7d'] [.sign "\x7d"] rest :=
  token (by decide) (by decide) ⟨by simp, by simp⟩ fun _ _ => ⟨_, rfl⟩

theorem semicolon : Lexes [';'] [.sign ";"] rest :=
  token (by decide) (by decide) ⟨by simp, by simp⟩ fun _ _ => ⟨_, rfl⟩

theorem closing_parenthesis : Lexes [')'] [.sign ")"] rest :=
  token (by decide) (by decide) ⟨by simp, by simp⟩ fun _ _ => ⟨_, rfl⟩

theorem plus_equals : Lexes ['+', '='] [.sign "+="] rest :=
  token (by decide) (by decide) ⟨by simp, by simp⟩ fun _ _ => ⟨_, rfl⟩

theorem equals {c : Char} (h : c = ' ' ∨ c = '\n') : Lexes ['='] [.sign "="] (c :: rest) := by
  rcases h with rfl | rfl
  · exact token (by decide) (by decide) ⟨by simp, by simp⟩ fun _ _ => ⟨_, rfl⟩
  · exact token (by decide) (by decide) ⟨by simp, by simp⟩ fun _ _ => ⟨_, rfl⟩

theorem empty_parentheses : Lexes ['(', ')'] [.sign "()"] rest :=
  token (by decide) (by decide) ⟨by simp, by simp⟩ fun _ _ => ⟨_, rfl⟩

theorem opening_bracket : Lexes ['['] [.sign "["] rest :=
  token (by decide) (by decide) ⟨by simp, by simp⟩ fun _ _ => ⟨_, rfl⟩

theorem closing_bracket : Lexes [']'] [.sign "]"] rest :=
  token (by decide) (by decide) ⟨by simp, by simp⟩ fun _ _ => ⟨_, rfl⟩

theorem opening_map : Lexes ['#', '\x7b'] [.sign "#\x7b"] rest :=
  token (by decide) (by decide) ⟨by simp, by simp⟩ fun _ _ => ⟨_, rfl⟩

theorem comma : Lexes [','] [.sign ","] rest :=
  token (by decide) (by decide) ⟨by simp, by simp⟩ fun _ _ => ⟨_, rfl⟩

theorem colon : Lexes [':'] [.sign ":"] (' ' :: rest) :=
  token (by decide) (by decide) ⟨by simp, by simp⟩ fun _ _ => ⟨_, rfl⟩

theorem firstSign_append {cs : List Char} {before after : List String} {sign : String}
    (skipped : ∀ other ∈ before, other.toList.isPrefixOf cs = false)
    (found : sign.toList.isPrefixOf cs = true) :
    firstSign cs (before ++ sign :: after) = some (sign, cs.drop sign.length) := by
  induction before with
  | nil => rw [List.nil_append, firstSign, if_pos found]
  | cons other more ih =>
    rw [List.cons_append, firstSign, skipped other (by simp), if_neg (by decide)]
    exact ih fun another h => skipped another (by simp [h])

/-- A sign of one character is the first sign if the next character begins none of the longer ones. -/
theorem firstSign_alone {c d : Char} (seconds : List Char) {before after : List String}
    {sign : String} (single : sign.toList = [d])
    (longer : ∀ other ∈ before, other ≠ "" ∧
      (other.toList.head? = some d → other.toList[1]?.any (seconds.contains ·) = true))
    (behind : c ∉ seconds) :
    firstSign (d :: c :: rest) (before ++ sign :: after) = some (sign, c :: rest) := by
  have skipped : ∀ other ∈ before, other.toList.isPrefixOf (d :: c :: rest) = false := by
    intro other ho
    obtain ⟨filled, second⟩ := longer other ho
    cases chars : other.toList with
    | nil => exact absurd (String.toList_eq_nil_iff.1 chars) filled
    | cons e more =>
      rw [chars] at second
      by_cases he : e = d
      · have at_one := second (by rw [he, List.head?_cons])
        cases more with
        | nil => simp at at_one
        | cons f more =>
          have known : f ∈ seconds := by simpa using at_one
          have other_second : f ≠ c := fun eq => behind (eq ▸ known)
          simp [List.isPrefixOf, other_second]
      · simp [List.isPrefixOf, he]
  have length : sign.length = 1 := by rw [← String.length_toList, single, List.length_singleton]
  rw [firstSign_append skipped (by simp [single]), length, List.drop_one, List.tail_cons]

/-- A parenthesis is read alone if neither a comment nor an empty pair begins with it. -/
theorem token_opening_parenthesis {c : Char} (star : c ≠ '*') (closing : c ≠ ')')
    (operand : Bool) (p : Pos) :
    ∃ q, Lexer.token operand p '(' (c :: rest) = (⟨.sign "(", p⟩, q, c :: rest) := by
  have sign : firstSign ('(' :: c :: rest) (signs.take 47 ++ "(" :: signs.drop 48) =
      some ("(", c :: rest) :=
    firstSign_alone ['*', ')'] rfl (by decide) (by simp [star, closing])
  change firstSign ('(' :: c :: rest) signs = some ("(", c :: rest) at sign
  refine ⟨advance p ('(' :: c :: rest) (c :: rest), ?_⟩
  simp only [Lexer.token, sign]
  rfl

theorem opening_parenthesis {c : Char} (behind : rest.head? = some c) (star : c ≠ '*')
    (closing : c ≠ ')') : Lexes ['('] [.sign "("] rest := by
  obtain ⟨more, rfl⟩ := List.head?_eq_some_iff.1 behind
  exact token (by decide) (by decide) ⟨by simp, by simp⟩ (token_opening_parenthesis star closing)

/-- A dot is read alone if no range begins with it. -/
theorem token_dot {c : Char} (range : c ≠ '.') (operand : Bool) (p : Pos) :
    ∃ q, Lexer.token operand p '.' (c :: rest) = (⟨.sign ".", p⟩, q, c :: rest) := by
  have sign : firstSign ('.' :: c :: rest) (signs.take 58 ++ "." :: signs.drop 59) =
      some (".", c :: rest) :=
    firstSign_alone ['.'] rfl (by decide) (by simp [range])
  change firstSign ('.' :: c :: rest) signs = some (".", c :: rest) at sign
  refine ⟨advance p ('.' :: c :: rest) (c :: rest), ?_⟩
  simp only [Lexer.token, sign]
  rfl

theorem dot {c : Char} (behind : rest.head? = some c) (range : c ≠ '.') :
    Lexes ['.'] [.sign "."] rest := by
  obtain ⟨more, rfl⟩ := List.head?_eq_some_iff.1 behind
  exact token (by decide) (by decide) ⟨by simp, by simp⟩ (token_dot range)

theorem exclamation (behind : rest.head? = some 'c') : Lexes ['!'] [.sign "!"] rest := by
  obtain ⟨more, rfl⟩ := List.head?_eq_some_iff.1 behind
  exact token (by decide) (by decide) ⟨by simp, by simp⟩ fun _ _ => ⟨_, rfl⟩

/-- The opening of a declaration. -/
theorem declaration {name : String} {c : Char} (h : IsVariable name) (behind : c = ' ' ∨ c = '\n') :
    Lexes ("let " ++ name ++ " =").toList [.word "let", .name name, .sign "="] (c :: rest) := by
  have word : "let" ∈ grammarWords := by decide
  have space : Text.isBlank ' ' = true := by decide
  have text : ("let " ++ name ++ " =").toList =
      "let".toList ++ ((' ' :: name.toList) ++ (' ' :: ['='])) := by
    simp
  rw [text]
  apply append (keyword word (endsWord_cons (by decide)))
  apply append (blank space (variable_name h (endsWord_cons (by decide))))
  exact blank space (equals behind)

/-! ## String literals -/

theorem hexValue?_upperHexDigit {k : Nat} (h : k < 16) :
    Text.hexValue? (Text.upperHexDigit k) = some k := by
  revert k
  decide

theorem hexNumber?_append {k : Nat} (h : k < 16) (digits : List Char) :
    Text.hexNumber? (digits ++ [Text.upperHexDigit k]) =
      (Text.hexNumber? digits).map fun n => 16 * n + k := by
  rw [Text.hexNumber?, List.foldl_append, ← Text.hexNumber?]
  cases Text.hexNumber? digits with
  | none => rfl
  | some n => simp [hexValue?_upperHexDigit h]

theorem hexNumber?_hexDigits {n : Nat} (h : n < 65536) :
    Text.hexNumber? (Text.hexDigits Text.upperHexDigit 4 n) = some n := by
  have digit (n : Nat) : n % 16 < 16 := Nat.mod_lt n (by decide)
  have nothing : Text.hexNumber? [] = some 0 := rfl
  simp only [Text.hexDigits, hexNumber?_append (digit _), nothing, Option.map_some,
    Option.some.injEq]
  omega

theorem length_hexDigits (digit : Nat → Char) (width n : Nat) :
    (Text.hexDigits digit width n).length = width := by
  induction width generalizing n with
  | zero => rfl
  | succ width ih => simp [Text.hexDigits, ih]

theorem escaped?_hexDigits {c : Char} (h : Text.isControl c = true) (cs : List Char) :
    escaped? 4 (Text.hexDigits Text.upperHexDigit 4 c.toNat ++ cs) = some c ∧
      (Text.hexDigits Text.upperHexDigit 4 c.toNat ++ cs).drop 4 = cs := by
  have width := length_hexDigits Text.upperHexDigit 4 c.toNat
  have below : c.toNat < 0xD800 := by
    simp only [Text.isControl, Bool.or_eq_true, Bool.and_eq_true, decide_eq_true_eq] at h
    omega
  have small : c.toNat < 65536 := by omega
  refine ⟨?_, List.drop_left' width⟩
  rw [escaped?, List.take_left' width, width, hexNumber?_hexDigits small]
  simp [below]

/-- A character stands in a literal behind a backslash, by its number, or for itself. -/
theorem literalChar_cases (c : Char) :
    (∃ e, Text.literalChar c = ['\\', e] ∧ e ≠ '\n' ∧ escapeWidth? e = none ∧
      shortEscape? '"' e = some c) ∨
    (Text.isControl c = true ∧
      Text.literalChar c = '\\' :: 'u' :: Text.hexDigits Text.upperHexDigit 4 c.toNat) ∨
    (Text.literalChar c = [c] ∧ c ≠ '"' ∧ c ≠ '\\' ∧ c ≠ '\n' ∧ c ≠ '\r') := by
  unfold Text.literalChar
  by_cases hq : c = '"'
  · exact .inl ⟨'"', by simp [hq], by decide, by decide, by rw [hq]; decide⟩
  by_cases hb : c = '\\'
  · exact .inl ⟨'\\', by simp [hb], by decide, by decide, by rw [hb]; decide⟩
  by_cases hn : c = '\n'
  · exact .inl ⟨'n', by simp [hn], by decide, by decide, by rw [hn]; decide⟩
  by_cases hr : c = '\r'
  · exact .inl ⟨'r', by simp [hr], by decide, by decide, by rw [hr]; decide⟩
  by_cases ht : c = '\t'
  · exact .inl ⟨'t', by simp [ht], by decide, by decide, by rw [ht]; decide⟩
  by_cases hc : Text.isControl c = true
  · exact .inr (.inl ⟨hc, by simp [hq, hb, hn, hr, ht, hc]⟩)
  · exact .inr (.inr ⟨by simp [hq, hb, hn, hr, ht, hc], hq, hb, hn, hr⟩)

theorem quoted_literalChars (text : List Char) (start p : Pos)
    (behind : rest.head? ≠ some '"') :
    quoted '"' true start 0 p (text.flatMap Text.literalChar ++ '"' :: rest) =
      .closed text ⟨p.line, p.column + (text.flatMap Text.literalChar).length + 1⟩ rest := by
  induction text generalizing p with
  | nil =>
    rw [List.flatMap_nil, List.nil_append, quoted.eq_def]
    cases rest with
    | nil => rfl
    | cons d more =>
      have hd : d ≠ '"' := by simpa using behind
      simp [hd, Pos.right]
  | cons c more ih =>
    rw [List.flatMap_cons, List.append_assoc, List.length_append]
    generalize more.flatMap Text.literalChar ++ '"' :: rest = tail at ih ⊢
    generalize (more.flatMap Text.literalChar).length = width at ih ⊢
    rcases literalChar_cases c with
      ⟨e, eq, he, unnumbered, short⟩ | ⟨control, eq⟩ | ⟨eq, hq, hb, hn, hr⟩
    · rw [eq, List.cons_append, List.singleton_append, quoted.eq_def]
      simp [he, unnumbered, short, ih, Quote.cons, Pos.right]
      omega
    · obtain ⟨escape, drop⟩ := escaped?_hexDigits control tail
      rw [eq, List.cons_append, List.cons_append, quoted.eq_def]
      simp [escapeWidth?, escape, drop, ih, Quote.cons, length_hexDigits]
      omega
    · rw [eq, List.singleton_append, quoted.eq_def]
      simp [hq, hb, hn, hr, ih, Quote.cons, Pos.right]
      omega

/-- A literal is one token, which ends where its characters do. -/
theorem token_literalChars (text : List Char) (operand : Bool) (p : Pos)
    (behind : rest.head? ≠ some '"') :
    Lexer.token operand p '"' (text.flatMap Text.literalChar ++ '"' :: rest) =
      (⟨.text (String.ofList text), p⟩,
        ⟨p.line, p.column + (Text.literalChars text).length⟩, rest) := by
  have width : (Text.literalChars text).length =
      1 + (text.flatMap Text.literalChar).length + 1 := by
    simp [Text.literalChars]
    omega
  rw [Lexer.token, if_pos rfl, quoted_literalChars text p p.right behind, ofQuote, width, Pos.right]
  simp only [Prod.mk.injEq, Pos.mk.injEq, true_and, and_true]
  omega

theorem literal (text : String) (behind : rest.head? ≠ some '"') :
    Lexes (Text.literal text).toList [.text text] rest := by
  rw [Text.literal, String.toList_ofList, Text.literalChars]
  refine token (by decide) (by decide) ⟨by simp, by simp⟩ fun operand p => ?_
  refine ⟨⟨p.line, p.column + (Text.literalChars text.toList).length⟩, ?_⟩
  rw [List.append_assoc, List.singleton_append, token_literalChars text.toList operand p behind,
    String.ofList_toList]

end Lexes

/-! ## Lines -/

/-- Lines of a script that are read as tokens, whatever lines come behind them. -/
def LexesLines (lines : List String) (ts : List Token) : Prop :=
  ∀ rest, Lexes (lines.flatMap fun line => line.toList ++ ['\n']) ts rest

namespace LexesLines

variable {lines more : List String} {ts us : List Token}

theorem nil : LexesLines [] [] := fun _ => Lexes.nil

theorem append (first : LexesLines lines ts) (second : LexesLines more us) :
    LexesLines (lines ++ more) (ts ++ us) := by
  intro rest
  rw [List.flatMap_append]
  exact (first _).append (second rest)

theorem line {line : String} (h : ∀ rest, Lexes line.toList ts ('\n' :: rest)) :
    LexesLines [line] ts := by
  intro rest
  have newline : Lexes ['\n'] [] rest := Lexes.gap (isGap_blank (by decide))
  have whole := (h rest).append newline
  rw [List.append_nil] at whole
  simpa using whole

theorem cons {line : String} (h : ∀ rest, Lexes line.toList ts ('\n' :: rest))
    (behind : LexesLines more us) : LexesLines (line :: more) (ts ++ us) :=
  (LexesLines.line h).append behind

end LexesLines

/-! ## Whole scripts -/

/-- What is read of a whole script are its tokens and its end. -/
theorem scan_of_lexes {s : State} {cs : List Char} {ts : List Token} (outside : Outside s)
    (h : LexesFrom s.operand cs ts []) : (scan s cs).map (·.token) = ts ++ [.ended] := by
  obtain ⟨placed, s', gap, hs, -, hg, hp, eq⟩ := h s [] outside rfl isGap_nil
  rw [List.nil_append, List.append_nil] at eq
  obtain ⟨q, hq⟩ := hg s'.pos []
  have last : scan s' (gap ++ []) = [⟨.ended, q⟩] := by
    rw [scan, hs.inText, if_neg (by decide), hq]
    rfl
  rw [eq, last, List.map_append, hp]
  rfl

theorem tokens_of_lexes {script : String} {ts : List Token}
    (h : LexesFrom false script.toList ts []) :
    (tokens script).map (·.token) = ts ++ [.ended] :=
  scan_of_lexes ⟨rfl, rfl⟩ h

end Stencil.Script.Lexer
