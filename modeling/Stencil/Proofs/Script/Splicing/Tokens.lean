import Stencil.Proofs.Script.Lexing
import Stencil.Proofs.Script.Following

/-!
# Tokens in front of a parenthesis

A token at the end of a text is the same token if a parenthesis is put behind the text, but for three
cases: a parenthesis and a star make another sign of it, and a point behind a number becomes a part of
the number.  White space and comments go on up to the parenthesis if they are at their end.  In the
text there is no line break; so no string depends on the place where it stands.
-/

namespace Stencil.Script.Lexer

/-! ## Gaps -/

/-- In front of a parenthesis a gap ends where it ended, or goes on if the text was at its end. -/
theorem skipGap_append {g : Gap} {p q : Pos} {cs r : List Char} (h : skipGap g p cs = (q, r)) :
    ∃ g', ∀ p' rest, ∃ q', skipGap g p' (cs ++ ')' :: rest) =
      if r = [] then skipGap g' q' (')' :: rest) else (q', r ++ ')' :: rest) := by
  fun_induction skipGap g p cs with
  | case1 g p =>
    obtain ⟨-, rfl⟩ : p = q ∧ r = [] := by simpa [eq_comm] using h
    exact ⟨g, fun p' rest => ⟨p', rfl⟩⟩
  | case2 _ _ ih | case3 _ _ ih | case6 _ _ ih | case9 _ _ _ ih | case10 _ _ _ ih =>
    obtain ⟨g', behind⟩ := ih h
    refine ⟨g', fun p' rest => ?_⟩
    rw [List.cons_append, List.cons_append, skipGap.eq_def]
    exact behind _ rest
  | case4 p d more no_line no_block blank ih =>
    obtain ⟨g', behind⟩ := ih h
    refine ⟨g', fun p' rest => ?_⟩
    rw [List.cons_append, skipGap_blank blank]
    exact behind _ rest
  | case5 p d more no_line no_block visible =>
    obtain ⟨-, rfl⟩ : p = q ∧ d :: more = r := by simpa using h
    refine ⟨.space, fun p' rest => ⟨p', ?_⟩⟩
    rw [List.cons_append, skipGap.eq_def]
    cases more <;> simp_all
  | case7 p d more no_pair breaks ih =>
    obtain ⟨g', behind⟩ := ih h
    refine ⟨g', fun p' rest => ?_⟩
    obtain ⟨q', eq⟩ := behind p'.down rest
    refine ⟨q', eq ▸ ?_⟩
    rw [List.cons_append, skipGap.eq_def]
    cases more <;> simp_all
  | case8 p d more no_pair breaks ih =>
    obtain ⟨g', behind⟩ := ih h
    refine ⟨g', fun p' rest => ?_⟩
    obtain ⟨q', eq⟩ := behind p'.right rest
    refine ⟨q', eq ▸ ?_⟩
    rw [List.cons_append, skipGap.eq_def]
    cases more <;> simp_all
  | case11 p depth d more no_open no_close ih =>
    obtain ⟨g', behind⟩ := ih h
    refine ⟨g', fun p' rest => ?_⟩
    obtain ⟨q', eq⟩ := behind (p'.past d) rest
    refine ⟨q', eq ▸ ?_⟩
    rw [List.cons_append, skipGap.eq_def]
    cases more <;> simp_all

theorem skipGap_closing {g : Gap} {p q : Pos} {r : List Char} {c : Char}
    (h : skipGap g p [')'] = (q, c :: r)) : g = .space := by
  cases g with
  | space => rfl
  | line => simp [skipGap] at h
  | block depth => simp [skipGap] at h

/-- A text of white space and closed comments leaves the parenthesis behind it visible. -/
theorem skipGap_append_nil {p q p₁ q₁ : Pos} {cs r : List Char} {c : Char}
    (h : skipGap .space p cs = (q, []))
    (visible : skipGap .space p₁ (cs ++ [')']) = (q₁, c :: r)) (p' : Pos) (rest : List Char) :
    ∃ q', skipGap .space p' (cs ++ ')' :: rest) = (q', ')' :: rest) := by
  obtain ⟨g', behind⟩ := skipGap_append h
  obtain ⟨q₂, eq⟩ := behind p₁ []
  rw [visible, if_pos rfl] at eq
  obtain rfl := skipGap_closing eq.symm
  obtain ⟨q', eq'⟩ := behind p' rest
  rw [if_pos rfl, skipGap_visible (by decide) (by decide)] at eq'
  exact ⟨q', eq'⟩

theorem skipGap_append_cons {p q : Pos} {cs r : List Char} {c : Char}
    (h : skipGap .space p cs = (q, c :: r)) (p' : Pos) (rest : List Char) :
    ∃ q', skipGap .space p' (cs ++ ')' :: rest) = (q', c :: (r ++ ')' :: rest)) := by
  obtain ⟨g', behind⟩ := skipGap_append h
  exact behind p' rest

/-! ## What is left of a text -/

variable {operand : Bool} {p q : Pos} {c : Char} {r r' : List Char} {t : Placed}

def Quote.rest : Quote → List Char
  | .closed _ _ r | .opened _ _ r => r
  | .broken _ _ => []

@[simp] theorem Quote.rest_cons (c : Char) (quote : Quote) :
    (quote.cons c).rest = quote.rest := by
  cases quote <;> rfl

theorem suffix_cons {cs ds : List Char} (c : Char) (h : ds <:+ cs) : ds <:+ c :: cs :=
  h.trans (List.suffix_cons c cs)

theorem rest_quoted (closing : Char) (continues : Bool) (start p : Pos) (margin : Nat)
    (cs : List Char) : (quoted closing continues start margin p cs).rest <:+ cs := by
  fun_induction quoted closing continues start margin p cs with
  | case1 | case5 | case7 | case9 | case11 | case12 => exact List.nil_suffix
  | case3 => exact List.suffix_cons _ _
  | case4 => exact List.nil_suffix
  | case2 _ _ _ ih | case10 _ _ _ _ _ _ _ _ _ ih =>
    rw [Quote.rest_cons]
    exact suffix_cons _ (suffix_cons _ ih)
  | case6 _ _ _ _ _ ih => exact suffix_cons _ (suffix_cons _ ih)
  | case8 _ _ _ _ _ _ _ _ _ _ ih =>
    rw [Quote.rest_cons]
    exact suffix_cons _ (suffix_cons _ (ih.trans (List.drop_suffix _ _)))
  | case13 _ _ _ _ _ _ _ _ ih | case14 _ _ _ _ _ _ _ _ _ ih => exact suffix_cons _ ih
  | case15 _ _ _ _ _ _ _ _ _ ih =>
    rw [Quote.rest_cons]
    exact suffix_cons _ ih

theorem rest_verbatim (start p : Pos) (cs : List Char) : (verbatim start p cs).rest <:+ cs := by
  fun_induction verbatim start p cs with
  | case1 => exact List.nil_suffix
  | case2 _ _ ih | case5 _ _ ih =>
    rw [Quote.rest_cons]
    exact suffix_cons _ (suffix_cons _ ih)
  | case3 => exact List.suffix_cons _ _
  | case4 => exact List.suffix_cons _ _
  | case6 _ _ _ _ _ _ _ ih =>
    rw [Quote.rest_cons]
    exact suffix_cons _ ih

theorem rest_raw (count : Nat) (start p : Pos) (cs : List Char) :
    (raw count start p cs).rest <:+ cs := by
  fun_induction raw count start p cs with
  | case1 => exact List.nil_suffix
  | case2 => exact suffix_cons _ (List.drop_suffix _ _)
  | case3 _ _ _ _ ih =>
    rw [Quote.rest_cons]
    exact suffix_cons _ ih

theorem rest_ofQuote (start : Pos) (quote : Quote) : (ofQuote start quote).2.2 = quote.rest := by
  cases quote <;> rfl

theorem rest_skipFirstBreak (p : Pos) (cs : List Char) : (skipFirstBreak p cs).2 <:+ cs := by
  unfold skipFirstBreak
  split
  · exact suffix_cons _ (List.suffix_cons _ _)
  · exact List.suffix_cons _ _
  · exact List.suffix_cons _ _
  · exact List.suffix_rfl

theorem rest_digits (valid : Char → Bool) (cs : List Char) : (digits valid cs).2 <:+ cs :=
  List.dropWhile_suffix _

theorem rest_fractionPart (cs : List Char) : (fractionPart cs).2 <:+ cs := by
  unfold fractionPart fraction
  split
  · rename_i found
    split at found
    · split at found
      · cases found
        exact suffix_cons _ (rest_digits _ _)
      · split at found
        · cases found
        · cases found
          exact List.suffix_cons _ _
    · cases found
  · exact List.suffix_rfl

theorem rest_exponentPart (cs : List Char) : (exponentPart cs).2 <:+ cs := by
  unfold exponentPart exponent
  split
  · split
    · exact suffix_cons _ (rest_digits _ _)
    · split
      · exact suffix_cons _ (suffix_cons _ (rest_digits _ _))
      · exact List.suffix_rfl
  · exact List.suffix_rfl

/-- A reader behind this token is not in a back-tick string. -/
def IsPlain (t : Token) : Prop := isBrace t = false ∧ t ≠ .ended

theorem rest_decimal (negative : Bool) (cs : List Char) :
    (decimal negative cs).2 <:+ cs ∧ IsPlain (decimal negative cs).1 := by
  have read := (rest_exponentPart (fractionPart (digits Char.isDigit cs).2).2).trans
    ((rest_fractionPart (digits Char.isDigit cs).2).trans (rest_digits Char.isDigit cs))
  simp only [decimal]
  split
  · exact ⟨read, rfl, by simp⟩
  · split <;> exact ⟨read, rfl, by simp⟩

theorem rest_number (negative : Bool) (cs : List Char) :
    (number negative cs).2 <:+ cs ∧ IsPlain (number negative cs).1 := by
  unfold number
  split
  · split
    · simp only
      split <;> exact ⟨suffix_cons _ (suffix_cons _ (rest_digits _ _)), rfl, by simp⟩
    · exact rest_decimal _ _
  · exact rest_decimal _ _

theorem rest_firstSign {cs r : List Char} {known : List String} {sign : String}
    (h : firstSign cs known = some (sign, r)) : r <:+ cs := by
  induction known with
  | nil => cases h
  | cons other more ih =>
    rw [firstSign] at h
    split at h
    · cases h
      exact List.drop_suffix _ _
    · exact ih h

theorem ofQuote_ne_ended (start : Pos) (quote : Quote) :
    (ofQuote start quote).1.token ≠ .ended := by
  cases quote <;> simp [ofQuote]

theorem tokenOfWord_ne_ended (w : String) : tokenOfWord w ≠ .ended := by
  unfold tokenOfWord
  repeat' split
  all_goals simp

theorem rest_token (operand : Bool) (p : Pos) (c : Char) (r : List Char) :
    (token operand p c r).2.2 <:+ c :: r ∧ (token operand p c r).1.token ≠ .ended := by
  simp only [token]
  split
  · rw [rest_ofQuote]
    exact ⟨suffix_cons _ (rest_quoted _ _ _ _ _ _), ofQuote_ne_ended _ _⟩
  split
  · rw [rest_ofQuote]
    exact ⟨suffix_cons _ ((rest_verbatim _ _ _).trans (rest_skipFirstBreak _ _)),
      ofQuote_ne_ended _ _⟩
  split
  · split
    · exact ⟨List.suffix_cons _ _, by simp⟩
    · have read := rest_quoted '\'' false p p.right 0 r
      split
      · rename_i found
        rw [found] at read
        exact ⟨suffix_cons _ read, by simp⟩
      · exact ⟨List.nil_suffix, by simp⟩
      · exact ⟨List.suffix_cons _ _, by simp⟩
  split
  · exact ⟨List.dropWhile_suffix _, tokenOfWord_ne_ended _⟩
  split
  · obtain ⟨suffix, plain⟩ := rest_number false (c :: r)
    exact ⟨suffix, plain.2⟩
  split
  · obtain ⟨suffix, plain⟩ := rest_number true r
    exact ⟨suffix_cons _ suffix, plain.2⟩
  split
  · rw [rest_ofQuote]
    exact ⟨suffix_cons _ ((rest_raw _ _ _ _).trans (List.drop_suffix _ _)), ofQuote_ne_ended _ _⟩
  split
  · exact ⟨List.drop_suffix _ _, by simp⟩
  split
  · rename_i found
    split <;> exact ⟨rest_firstSign found, by simp⟩
  · exact ⟨List.suffix_cons _ _, by simp⟩

theorem rest_skipGap (g : Gap) (p : Pos) (cs : List Char) : (skipGap g p cs).2 <:+ cs := by
  fun_induction skipGap g p cs with
  | case1 => exact List.suffix_rfl
  | case2 _ _ ih | case3 _ _ ih | case6 _ _ ih | case9 _ _ _ ih | case10 _ _ _ ih =>
    exact suffix_cons _ (suffix_cons _ ih)
  | case5 => exact List.suffix_rfl
  | case4 _ _ _ _ _ _ ih | case7 _ _ _ _ _ ih | case8 _ _ _ _ _ ih | case11 _ _ _ _ _ _ ih =>
    exact suffix_cons _ ih

/-! ## Strings -/

/-- A string that is read in front of a parenthesis as it is read alone. -/
def Quote.Extends (rest : List Char) : Quote → Quote → Prop
  | .closed text _ r, .closed text' _ r' => text = text' ∧ r' = r ++ rest
  | .opened text _ r, .opened text' _ r' => text = text' ∧ r' = r ++ rest
  | .broken _ _, _ => True
  | _, _ => False

theorem Quote.Extends.cons {rest : List Char} {c : Char} : ∀ {q q' : Quote},
    q.Extends rest q' → (q.cons c).Extends rest (q'.cons c)
  | .closed .., .closed .., ⟨h, h'⟩ => ⟨congrArg _ h, h'⟩
  | .opened .., .opened .., ⟨h, h'⟩ => ⟨congrArg _ h, h'⟩
  | .broken .., _, _ => trivial

theorem extends_verbatim (start start' p p' : Pos) (cs rest : List Char) :
    (verbatim start p cs).Extends (')' :: rest) (verbatim start' p' (cs ++ ')' :: rest)) := by
  fun_induction verbatim start p cs generalizing p' with
  | case1 => trivial
  | case2 p r ih => exact (ih _).cons
  | case3 p r no_pair =>
    rw [List.cons_append, verbatim.eq_def]
    cases r <;> simp_all [Quote.Extends]
  | case4 p r => exact ⟨rfl, rfl⟩
  | case5 p r ih => exact (ih _).cons
  | case6 p c r h₁ h₂ h₃ h₄ ih =>
    have step : verbatim start' p' (c :: r ++ ')' :: rest) =
        (verbatim start' (p'.past c) (r ++ ')' :: rest)).cons c := by
      rw [List.cons_append, verbatim.eq_def]
      cases r <;> simp_all
    rw [step]
    exact (ih _).cons

theorem extends_raw (count : Nat) (start start' p p' : Pos) (cs rest : List Char) :
    (raw count start p cs).Extends (')' :: rest) (raw count start' p' (cs ++ ')' :: rest)) := by
  induction cs generalizing p p' with
  | nil => trivial
  | cons c r ih =>
    -- The hash signs behind a closing mark are those in front of the parenthesis.
    have marks : (((r ++ ')' :: rest).take count) == List.replicate count '#') =
        ((r.take count) == List.replicate count '#') ∧
        (((r.take count) == List.replicate count '#') = true →
          (r ++ ')' :: rest).drop count = r.drop count ++ ')' :: rest) := by
      by_cases long : count ≤ r.length
      · rw [List.take_append_of_le_length long, List.drop_append_of_le_length long]
        exact ⟨rfl, fun _ => rfl⟩
      · have short : ((r.take count) == List.replicate count '#') = false := by
          rw [beq_eq_false_iff_ne]
          intro same
          have := congrArg List.length same
          simp at this
          omega
        have longer : (((r ++ ')' :: rest).take count) == List.replicate count '#') = false := by
          rw [beq_eq_false_iff_ne]
          intro same
          have closing : ')' ∈ (r ++ ')' :: rest).take count := by
            rw [List.take_append, List.mem_append]
            right
            obtain ⟨k, hk⟩ : ∃ k, count - r.length = k + 1 := ⟨count - r.length - 1, by omega⟩
            simp [hk]
          rw [same, List.mem_replicate] at closing
          exact absurd closing.2 (by decide)
        rw [short, longer]
        exact ⟨rfl, nofun⟩
    rw [List.cons_append, raw, raw, marks.1]
    split
    · rename_i closing
      rw [Bool.and_eq_true] at closing
      rw [marks.2 closing.2]
      exact ⟨rfl, rfl⟩
    · exact (ih _ _).cons

theorem escaped?_append {width : Nat} {cs : List Char} {c : Char} (more : List Char)
    (h : escaped? width cs = some c) :
    escaped? width (cs ++ more) = some c ∧ width ≤ cs.length := by
  unfold escaped? at h
  dsimp only at h
  split at h
  · cases h
  · rename_i long
    have enough : width ≤ cs.length := by
      simp only [List.length_take] at long
      omega
    refine ⟨?_, enough⟩
    rw [escaped?, List.take_append_of_le_length enough, if_neg long]
    exact h

theorem extends_quoted (closing : Char) (continues : Bool) (start start' p p' : Pos)
    {cs : List Char} (rest : List Char) (line : '\n' ∉ cs) (h : closing ≠ ')') :
    (quoted closing continues start 0 p cs).Extends (')' :: rest)
      (quoted closing continues start' 0 p' (cs ++ ')' :: rest)) := by
  generalize margin : 0 = m
  fun_induction quoted closing continues start m p cs generalizing p' with
  | case1 | case5 | case7 | case9 | case11 | case12 => trivial
  | case2 m p r ih =>
    simp only [List.mem_cons, not_or] at line
    rw [List.cons_append, List.cons_append, quoted, if_pos rfl, if_pos rfl]
    exact (ih _ line.2.2 rfl).cons
  | case3 m p d r other =>
    rw [List.cons_append, List.cons_append, quoted, if_pos rfl, if_neg other]
    exact ⟨rfl, rfl⟩
  | case4 m p =>
    rw [List.singleton_append, quoted.eq_def]
    dsimp only
    rw [if_pos rfl, if_neg (Ne.symm h)]
    exact ⟨rfl, rfl⟩
  | case6 => simp at line
  | case8 m p e r other width hw x hx open_ ih =>
    simp only [List.mem_cons, not_or] at line
    obtain ⟨same, long⟩ := escaped?_append (')' :: rest) hx
    rw [List.cons_append, List.cons_append, quoted, if_neg open_, if_pos rfl, if_neg other, hw]
    simp only [same, List.drop_append_of_le_length long]
    exact (ih _ (fun h => line.2.2 (List.mem_of_mem_drop h)) rfl).cons
  | case10 m p e r other hw x hx open_ ih =>
    simp only [List.mem_cons, not_or] at line
    rw [List.cons_append, List.cons_append, quoted, if_neg open_, if_pos rfl, if_neg other, hw]
    simp only [hx]
    exact (ih _ line.2.2 rfl).cons
  | case13 m p e r h₁ h₂ h₃ pair =>
    simp only [Bool.and_eq_true, decide_eq_true_eq] at pair
    exact absurd (List.mem_cons_of_mem _ (List.mem_of_mem_head? pair.2)) line
  | case14 m p e r h₁ h₂ h₃ pair before => simp [← margin] at before
  | case15 m p e r h₁ h₂ h₃ pair before ih =>
    simp only [List.mem_cons, not_or] at line
    have pair' : ¬(decide (e = '\r') && decide ((r ++ ')' :: rest).head? = some '\n')) = true := by
      cases r <;> simp_all
    subst margin
    have step : quoted closing continues start' 0 p' (e :: (r ++ ')' :: rest)) =
        (quoted closing continues start' 0 p'.right (r ++ ')' :: rest)).cons e := by
      rw [quoted.eq_def]
      simp only [h₁, h₂, h₃, if_false]
      rw [if_neg pair']
      simp
    rw [List.cons_append, step]
    exact (ih _ line.2 rfl).cons

/-! ## Numbers -/

theorem takeWhile_append_closing {f : Char → Bool} (closing : f ')' = false)
    (cs rest : List Char) : (cs ++ ')' :: rest).takeWhile f = cs.takeWhile f := by
  induction cs with
  | nil => simp [closing]
  | cons c r ih => simp only [List.cons_append, List.takeWhile_cons, ih]

theorem dropWhile_append_closing {f : Char → Bool} (closing : f ')' = false)
    (cs rest : List Char) :
    (cs ++ ')' :: rest).dropWhile f = cs.dropWhile f ++ ')' :: rest := by
  induction cs with
  | nil => simp [closing]
  | cons c r ih =>
    simp only [List.cons_append, List.dropWhile_cons, ih]
    split <;> rfl

theorem digits_append_closing (valid : Char → Bool) (closing : valid ')' = false)
    (cs rest : List Char) : digits valid (cs ++ ')' :: rest) =
      ((digits valid cs).1, (digits valid cs).2 ++ ')' :: rest) := by
  have stop : (valid ')' || decide (')' = '_')) = false := by rw [closing]; decide
  simp only [digits, takeWhile_append_closing (f := fun c => valid c || c = '_') stop,
    dropWhile_append_closing (f := fun c => valid c || c = '_') stop]

theorem fraction_append {cs : List Char} (rest : List Char) (h : cs ≠ ['.']) :
    fraction (cs ++ ')' :: rest) =
      (fraction cs).map fun (ds, r) => (ds, r ++ ')' :: rest) := by
  match cs with
  | [] => simp [fraction]
  | [c] =>
    have other : c ≠ '.' := fun same => h (by rw [same])
    simp [fraction, other]
  | c :: d :: r =>
    by_cases point : c = '.'
    · subst point
      have more := digits_append_closing Char.isDigit (by decide) (d :: r) rest
      simp only [List.cons_append] at more ⊢
      simp only [fraction, more]
      split
      · rfl
      · split <;> rfl
    · simp [fraction, point]

theorem exponent_append (cs rest : List Char) :
    exponent (cs ++ ')' :: rest) =
      (exponent cs).map fun (ds, r) => (ds, r ++ ')' :: rest) := by
  match cs with
  | [] => simp [exponent]
  | [c] =>
    by_cases mark : c = 'e'
    · subst mark
      simp [exponent]
    · simp [exponent, mark]
  | c :: d :: r =>
    by_cases mark : c = 'e'
    · subst mark
      have more := digits_append_closing Char.isDigit (by decide) (d :: r) rest
      have behind := digits_append_closing Char.isDigit (by decide) r rest
      simp only [List.cons_append] at more ⊢
      simp only [exponent, more, behind]
      split
      · rfl
      · split <;> rfl
    · simp [exponent, mark]

theorem noNumber_append {cs r : List Char} (more : List Char) :
    noNumber (cs ++ more) (r ++ more) = noNumber cs r := by
  have count : (cs ++ more).length - (r ++ more).length = cs.length - r.length := by
    simp only [List.length_append]
    omega
  have taken : (cs ++ more).take (cs.length - r.length) = cs.take (cs.length - r.length) :=
    List.take_append_of_le_length (Nat.sub_le _ _)
  unfold noNumber
  rw [count, taken]

/-- A number is read to the same end, unless a point that has ended the text belongs to it then. -/
theorem decimal_append (negative : Bool) (cs : List Char) :
    (∀ rest, decimal negative (cs ++ ')' :: rest) =
      ((decimal negative cs).1, (decimal negative cs).2 ++ ')' :: rest)) ∨
    (decimal negative cs).2 = ['.'] ∧ (decimal negative (cs ++ [')'])).2 = [')'] := by
  have whole (rest : List Char) := digits_append_closing Char.isDigit (by decide) cs rest
  by_cases point : (digits Char.isDigit cs).2 = ['.']
  · right
    have longer := whole []
    rw [point] at longer
    have part : fractionPart ['.'] = ([], ['.']) := by decide
    have part' : fractionPart (['.'] ++ [')']) = (['.', '0'], [')']) := by decide
    have power : exponentPart ['.'] = ([], ['.']) := by decide
    have power' : exponentPart [')'] = ([], [')']) := by decide
    unfold decimal
    simp only [longer, point, part, part', power, power']
    constructor
    · split
      · rfl
      · split <;> rfl
    · split
      · rfl
      · split <;> rfl
  · left
    intro rest
    have part : fractionPart ((digits Char.isDigit cs).2 ++ ')' :: rest) =
        ((fractionPart (digits Char.isDigit cs).2).1,
          (fractionPart (digits Char.isDigit cs).2).2 ++ ')' :: rest) := by
      rw [fractionPart, fractionPart, fraction_append rest point]
      cases fraction (digits Char.isDigit cs).2 <;> rfl
    have power (r : List Char) : exponentPart (r ++ ')' :: rest) =
        ((exponentPart r).1, (exponentPart r).2 ++ ')' :: rest) := by
      rw [exponentPart, exponentPart, exponent_append]
      cases exponent r <;> rfl
    simp only [decimal, whole, part, power, noNumber_append]
    split
    · rfl
    · split <;> rfl

theorem number_append_closing (negative : Bool) (cs : List Char) :
    (∀ rest, number negative (cs ++ ')' :: rest) =
      ((number negative cs).1, (number negative cs).2 ++ ')' :: rest)) ∨
    (number negative cs).2 = ['.'] ∧ (number negative (cs ++ [')'])).2 = [')'] := by
  have other := decimal_append negative cs
  match cs with
  | [] => simpa [number] using other
  | [c] =>
    have longer (rest : List Char) : number negative ([c] ++ ')' :: rest) =
        decimal negative ([c] ++ ')' :: rest) := by
      by_cases zero : c = '0'
      · subst zero
        rfl
      · simp [number, zero]
    have alone : number negative [c] = decimal negative [c] := by simp [number]
    simpa only [longer, alone] using other
  | c :: d :: r =>
    by_cases zero : c = '0'
    · subst zero
      cases hd : radix? d with
      | none =>
        have longer (more : List Char) : number negative ('0' :: d :: (r ++ more)) =
            decimal negative ('0' :: d :: (r ++ more)) := by simp [number, hd]
        have alone : number negative ('0' :: d :: r) = decimal negative ('0' :: d :: r) := by
          simp [number, hd]
        simpa only [List.cons_append, longer, alone] using other
      | some radix =>
        have closing : isRadixDigit radix ')' = false := rfl
        have same (rest : List Char) := @noNumber_append ('0' :: d :: r)
          (digits (isRadixDigit radix) r).2 (')' :: rest)
        left
        intro rest
        simp only [List.cons_append] at same ⊢
        simp only [number, hd, digits_append_closing _ closing, same]
        split <;> rfl
    · have longer (more : List Char) : number negative (c :: d :: (r ++ more)) =
          decimal negative (c :: d :: (r ++ more)) := by simp [number, zero]
      have alone : number negative (c :: d :: r) = decimal negative (c :: d :: r) := by
        simp [number, zero]
      simpa only [List.cons_append, longer, alone] using other

/-! ## Signs -/

/-- The texts that a parenthesis behind them makes another sign of. -/
def halves : List (List Char) := [['('], ['*']]

theorem isPrefixOf_append {w cs : List Char} (rest : List Char) (h : ¬cs ++ [')'] <+: w) :
    w.isPrefixOf (cs ++ ')' :: rest) = w.isPrefixOf cs := by
  rw [Bool.eq_iff_iff, List.isPrefixOf_iff_prefix, List.isPrefixOf_iff_prefix]
  refine ⟨fun longer => ?_, fun shorter => shorter.trans (List.prefix_append _ _)⟩
  have whole : cs ++ [')'] <+: cs ++ ')' :: rest := ⟨rest, by simp⟩
  rcases List.prefix_or_prefix_of_prefix longer whole with shorter | beyond
  · rcases List.prefix_concat_iff.1 shorter with same | shorter
    · exact absurd (same ▸ List.prefix_rfl) h
    · exact shorter
  · exact absurd beyond h

theorem mem_halves {sign : String} {cs : List Char} (known : sign ∈ signs) (filled : cs ≠ [])
    (h : cs ++ [')'] <+: sign.toList) : cs ∈ halves := by
  have table : ∀ sign ∈ signs, ')' ∈ sign.toList →
      sign.toList = [')'] ∨ sign.toList = ['(', ')'] ∨ sign.toList = ['*', ')'] := by decide
  rcases table sign known (h.subset (by simp)) with same | same | same
  all_goals
    rw [same] at h
    match cs with
    | [] => exact absurd rfl filled
    | [c] => simp_all [halves]
    | c :: c' :: cs => exact absurd h.length_le (by simp)

theorem firstSign_append_closing {cs : List Char} (rest : List Char) {known : List String}
    (sub : ∀ sign ∈ known, sign ∈ signs) (filled : cs ≠ []) (whole : cs ∉ halves) :
    firstSign (cs ++ ')' :: rest) known =
      (firstSign cs known).map fun (sign, r) => (sign, r ++ ')' :: rest) := by
  induction known with
  | nil => rfl
  | cons sign more ih =>
    have later := ih fun other h => sub other (List.mem_cons_of_mem _ h)
    have same := isPrefixOf_append (w := sign.toList) rest
      (mt (mem_halves (sub sign List.mem_cons_self) filled) whole)
    rw [firstSign, firstSign, same]
    split
    · rename_i found
      have short : sign.length ≤ cs.length := by
        rw [← String.length_toList]
        exact (List.isPrefixOf_iff_prefix.1 found).length_le
      simp [List.drop_append_of_le_length short]
    · exact later

/-! ## Tokens -/

/-- In front of a parenthesis the same token is read as at the end of the text. -/
def IsLocal (operand : Bool) (c : Char) (r : List Char) (t : Token) (r' : List Char) : Prop :=
  ∀ p rest, ∃ t' q, token operand p c (r ++ ')' :: rest) = (t', q, r' ++ ')' :: rest) ∧ t'.token = t

theorem ofQuote_of_extends {rest : List Char} {quote quote' : Quote} (start : Pos)
    (h : quote.Extends rest quote') (read : ofQuote p quote = (t, q, r'))
    (good : ∀ reason, t.token ≠ .bad reason) :
    ∃ t' q', ofQuote start quote' = (t', q', r' ++ rest) ∧ t'.token = t.token := by
  match quote, quote', h with
  | .closed .., .closed .., ⟨rfl, rfl⟩ | .opened .., .opened .., ⟨rfl, rfl⟩ =>
    obtain ⟨rfl, rfl, rfl⟩ : _ ∧ _ ∧ _ := by simpa [ofQuote, eq_comm] using read
    exact ⟨_, _, rfl, rfl⟩
  | .broken .., _, _ =>
    obtain ⟨rfl, rfl, rfl⟩ : _ ∧ _ ∧ _ := by simpa [ofQuote, eq_comm] using read
    exact absurd rfl (good _)

theorem isLocal_text (line : '\n' ∉ r) (read : token operand p '"' r = (t, q, r'))
    (good : ∀ reason, t.token ≠ .bad reason) : IsLocal operand '"' r t.token r' := by
  intro p' rest
  rw [token, if_pos rfl] at read ⊢
  exact ofQuote_of_extends _ (extends_quoted _ _ _ _ _ _ _ line (by decide)) read good

theorem skipFirstBreak_append (p p' : Pos) (line : '\n' ∉ r) (rest : List Char) :
    ∃ q, skipFirstBreak p' (r ++ ')' :: rest) = (q, (skipFirstBreak p r).2 ++ ')' :: rest) := by
  unfold skipFirstBreak
  match r with
  | [] => exact ⟨_, rfl⟩
  | c :: r =>
    by_cases ret : c = '\r'
    · subst ret
      cases r with
      | nil => exact ⟨_, rfl⟩
      | cons d r =>
        have other : d ≠ '\n' := by
          rintro rfl
          simp at line
        simp [other]
    · have other : c ≠ '\n' := by
        rintro rfl
        simp at line
      simp [ret, other]

theorem isLocal_verbatim (line : '\n' ∉ r) (read : token operand p '`' r = (t, q, r'))
    (good : ∀ reason, t.token ≠ .bad reason) : IsLocal operand '`' r t.token r' := by
  intro p' rest
  obtain ⟨q', eq⟩ := skipFirstBreak_append p.right p'.right line rest
  rw [token, if_neg (by decide), if_pos rfl] at read ⊢
  rw [eq]
  exact ofQuote_of_extends _ (extends_verbatim _ _ _ _ _ _) read good

theorem isLocal_char (line : '\n' ∉ r) (read : token operand p '\'' r = (t, q, r'))
    (good : ∀ reason, t.token ≠ .bad reason) : IsLocal operand '\'' r t.token r' := by
  intro p' rest
  have same := extends_quoted '\'' false p p' p.right p'.right rest line (by decide)
  rw [token, if_neg (by decide), if_neg (by decide), if_pos rfl] at read ⊢
  by_cases empty : r.head? = some '\''
  · rw [if_pos empty] at read
    cases read
    exact absurd rfl (good _)
  · have empty' : ¬(r ++ ')' :: rest).head? = some '\'' := by
      cases r <;> simp_all
    rw [if_neg empty] at read
    rw [if_neg empty']
    generalize quoted '\'' false p 0 p.right r = quote at read same
    generalize quoted '\'' false p' 0 p'.right (r ++ ')' :: rest) = quote' at same
    split at read
    · cases quote' with
      | closed text q' r₁ =>
        obtain ⟨rfl, rfl⟩ := same
        cases read
        exact ⟨_, _, rfl, rfl⟩
      | _ => exact absurd same id
    · cases read
      exact absurd rfl (good _)
    · cases read
      exact absurd rfl (good _)

theorem isLocal_word (start : isNameStart c = true) (read : token operand p c r = (t, q, r')) :
    IsLocal operand c r t.token r' := by
  intro p' rest
  have first {d : Char} (hd : isNameStart d = false) : c ≠ d := by
    rintro rfl
    simp [start] at hd
  have mark : ¬c = '"' := first (by decide)
  have tick : ¬c = '`' := first (by decide)
  have single : ¬c = '\'' := first (by decide)
  have taken := takeWhile_append_closing (f := isNamePart) (by decide) (c :: r) rest
  have dropped := dropWhile_append_closing (f := isNamePart) (by decide) (c :: r) rest
  simp only [List.cons_append] at taken dropped
  rw [token, if_neg mark, if_neg tick, if_neg single, if_pos start] at read ⊢
  cases read
  rw [taken, dropped]
  exact ⟨_, _, rfl, rfl⟩

/-- A point that ends the text behind a number belongs to the number in front of a parenthesis. -/
structure IsPointed (operand : Bool) (c : Char) (r : List Char) (t : Token) (r' : List Char) :
    Prop where
  alone : r' = ['.'] ∧ IsPlain t
  inside : ∀ p, (token operand p c (r ++ [')'])).2.2 = [')'] ∧
    IsPlain (token operand p c (r ++ [')'])).1.token

theorem isLocal_hashes (mark : c = '#') (hashes : (r.dropWhile (· = '#')).head? = some '"')
    (read : token operand p c r = (t, q, r')) (good : ∀ reason, t.token ≠ .bad reason) :
    IsLocal operand c r t.token r' := by
  subst mark
  intro p' rest
  have closing : decide (')' = '#') = false := by decide
  have taken := takeWhile_append_closing (f := (· = '#')) closing r rest
  have dropped := dropWhile_append_closing (f := (· = '#')) closing r rest
  have hashes' : ((r ++ ')' :: rest).dropWhile (· = '#')).head? = some '"' := by
    rw [dropped, List.head?_append, hashes]
    rfl
  have short : 1 + (r.takeWhile (· = '#')).length ≤ r.length := by
    have whole := congrArg List.length (List.takeWhile_append_dropWhile (p := (· = '#')) (l := r))
    have filled : 0 < (r.dropWhile (· = '#')).length := by
      rw [List.length_pos_iff]
      rintro empty
      rw [empty] at hashes
      cases hashes
    rw [List.length_append] at whole
    omega
  rw [token, if_neg (by decide), if_neg (by decide), if_neg (by decide), if_neg (by decide),
    if_neg (by decide), if_neg (by simp), if_pos (by simp [*])] at read ⊢
  simp only [taken, List.drop_append_of_le_length short]
  exact ofQuote_of_extends _ (extends_raw _ _ _ _ _ _ _) read good

/-- Whether a text begins with the operator that excludes an element from a container. -/
def excludes (c : Char) (r : List Char) : Bool :=
  ['!', 'i', 'n'].isPrefixOf (c :: r) && !(((c :: r).drop 3).head?.map isNamePart).getD false

theorem excludes_append (c : Char) (r rest : List Char) :
    excludes c (r ++ ')' :: rest) = excludes c r ∧ (excludes c r = true →
      (c :: (r ++ ')' :: rest)).drop 3 = (c :: r).drop 3 ++ ')' :: rest) := by
  have word : ['!', 'i', 'n'].isPrefixOf (c :: (r ++ ')' :: rest)) =
      ['!', 'i', 'n'].isPrefixOf (c :: r) :=
    @isPrefixOf_append _ (c :: r) rest fun longer =>
      absurd (longer.subset (show ')' ∈ c :: r ++ [')'] by simp)) (by decide)
  unfold excludes
  rw [word]
  by_cases found : ['!', 'i', 'n'].isPrefixOf (c :: r) = true
  · have long : 3 ≤ (c :: r).length := (List.isPrefixOf_iff_prefix.1 found).length_le
    have behind : (c :: (r ++ ')' :: rest)).drop 3 = (c :: r).drop 3 ++ ')' :: rest := by
      rw [← List.cons_append, List.drop_append_of_le_length long]
    refine ⟨?_, fun _ => behind⟩
    rw [behind]
    cases (c :: r).drop 3 <;> rfl
  · simp [found]

/-- What is neither a string nor a word nor a number is a sign. -/
theorem isLocal_sign (mark : c ≠ '"') (tick : c ≠ '`') (single : c ≠ '\'')
    (start : ¬isNameStart c = true) (digit : ¬c.isDigit = true)
    (minus : ¬(c = '-' && !operand && (r.head?.map Char.isDigit).getD false) = true)
    (hash : ¬(c = '#' && (r.dropWhile (· = '#')).head? = some '"') = true)
    (whole : c :: r ∉ halves) (read : token operand p c r = (t, q, r'))
    (good : ∀ reason, t.token ≠ .bad reason) : IsLocal operand c r t.token r' := by
  intro p' rest
  have minus' : ¬(c = '-' && !operand &&
      ((r ++ ')' :: rest).head?.map Char.isDigit).getD false) = true := by
    cases r <;> simp_all
  have hash' : ¬(c = '#' && ((r ++ ')' :: rest).dropWhile (· = '#')).head? = some '"') = true := by
    rw [dropWhile_append_closing (by decide)]
    cases h : r.dropWhile (· = '#') <;> simp_all
  have signed := firstSign_append_closing rest (fun _ h => h) (List.cons_ne_nil c r) whole
  obtain ⟨same, behind⟩ := excludes_append c r rest
  unfold excludes at same behind
  rw [List.cons_append] at signed
  rw [token, if_neg mark, if_neg tick, if_neg single, if_neg start, if_neg digit, if_neg minus,
    if_neg hash] at read
  rw [token, if_neg mark, if_neg tick, if_neg single, if_neg start, if_neg digit, if_neg minus',
    if_neg hash', same, signed]
  split at read
  · rename_i excluded
    cases read
    rw [if_pos excluded, behind excluded]
    exact ⟨_, _, rfl, rfl⟩
  · rename_i included
    rw [if_neg included]
    cases found : firstSign (c :: r) signs with
    | none =>
      rw [found] at read
      cases read
      exact absurd rfl (good _)
    | some sign =>
      simp only [found, Option.map_some] at read ⊢
      split at read
      · cases read
        exact absurd rfl (good _)
      · rename_i free
        cases read
        rw [if_neg free]
        exact ⟨_, _, rfl, rfl⟩

theorem token_append (line : '\n' ∉ c :: r) (read : token operand p c r = (t, q, r'))
    (good : ∀ reason, t.token ≠ .bad reason) :
    IsLocal operand c r t.token r' ∨ IsPointed operand c r t.token r' ∨ c :: r ∈ halves := by
  have line' : '\n' ∉ r := fun h => line (List.mem_cons_of_mem c h)
  by_cases mark : c = '"'
  · subst mark
    exact .inl (isLocal_text line' read good)
  by_cases tick : c = '`'
  · subst tick
    exact .inl (isLocal_verbatim line' read good)
  by_cases single : c = '\''
  · subst single
    exact .inl (isLocal_char line' read good)
  by_cases start : isNameStart c = true
  · exact .inl (isLocal_word start read)
  by_cases digit : c.isDigit = true
  · have read' (p : Pos) (r : List Char) : token operand p c r = (⟨(number false (c :: r)).1, p⟩,
        advance p (c :: r) (number false (c :: r)).2, (number false (c :: r)).2) := by
      rw [token, if_neg mark, if_neg tick, if_neg single, if_neg start, if_pos digit]
    rw [read'] at read
    cases read
    rcases number_append_closing false (c :: r) with same | pointed
    · refine .inl fun p' rest => ?_
      rw [read', ← List.cons_append, same]
      exact ⟨_, _, rfl, rfl⟩
    · refine .inr (.inl ⟨⟨pointed.1, (rest_number _ _).2⟩, fun p' => ?_⟩)
      rw [read']
      exact ⟨pointed.2, (rest_number _ _).2⟩
  by_cases minus : (c = '-' && !operand && (r.head?.map Char.isDigit).getD false) = true
  · have minus' (rest : List Char) : (c = '-' && !operand &&
        ((r ++ ')' :: rest).head?.map Char.isDigit).getD false) = true := by
      cases r <;> simp_all
    have read' (p : Pos) (r : List Char)
        (minus : (c = '-' && !operand && (r.head?.map Char.isDigit).getD false) = true) :
        token operand p c r = (⟨(number true r).1, p⟩, advance p (c :: r) (number true r).2,
          (number true r).2) := by
      rw [token, if_neg mark, if_neg tick, if_neg single, if_neg start, if_neg digit, if_pos minus]
    rw [read' _ _ minus] at read
    cases read
    rcases number_append_closing true r with same | pointed
    · refine .inl fun p' rest => ?_
      rw [read' _ _ (minus' rest), same]
      exact ⟨_, _, rfl, rfl⟩
    · refine .inr (.inl ⟨⟨pointed.1, (rest_number _ _).2⟩, fun p' => ?_⟩)
      rw [read' _ _ (minus' [])]
      exact ⟨pointed.2, (rest_number _ _).2⟩
  by_cases hash : (c = '#' && (r.dropWhile (· = '#')).head? = some '"') = true
  · simp only [Bool.and_eq_true, decide_eq_true_eq] at hash
    exact .inl (isLocal_hashes hash.1 hash.2 read good)
  by_cases whole : c :: r ∈ halves
  · exact .inr (.inr whole)
  · exact .inl (isLocal_sign mark tick single start digit minus hash whole read good)

end Stencil.Script.Lexer
