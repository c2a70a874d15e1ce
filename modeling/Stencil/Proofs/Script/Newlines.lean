import Stencil.Proofs.Relocation
import Stencil.Proofs.Script.Splicing.Rows

/-!
# The lines of tokens

A reader counts the newlines that it passes, whatever it passes them in.  It counts a carriage return
too where one ends a comment or stands first in a back-tick string; in a text whose carriage returns all
belong to newlines, the line of a token is told by the newlines in front of it.
-/

namespace Stencil.Script

namespace Lexer

/-- Every carriage return stands in front of a newline. -/
def IsPaired : List Char → Prop
  | [] => True
  | c :: r => (c = '\r' → r.head? = some '\n') ∧ IsPaired r

def decidableIsPaired : (cs : List Char) → Decidable (IsPaired cs)
  | [] => .isTrue trivial
  | c :: r =>
    have := decidableIsPaired r
    inferInstanceAs (Decidable ((c = '\r' → r.head? = some '\n') ∧ IsPaired r))

instance (cs : List Char) : Decidable (IsPaired cs) := decidableIsPaired cs

theorem IsPaired.of_suffix {cs rest : List Char} (h : IsPaired cs) (suffix : rest <:+ cs) :
    IsPaired rest := by
  obtain ⟨front, rfl⟩ := suffix
  induction front with
  | nil => exact h
  | cons c more ih => exact ih h.2

theorem isPaired_of_not_mem {cs : List Char} (h : '\r' ∉ cs) : IsPaired cs := by
  induction cs with
  | nil => trivial
  | cons c r ih =>
    rw [List.mem_cons, not_or] at h
    exact ⟨fun eq => absurd eq.symm h.1, ih h.2⟩

theorem IsPaired.append {cs more : List Char} (h : IsPaired (cs ++ ['\n'])) (h' : IsPaired more) :
    IsPaired (cs ++ '\n' :: more) := by
  induction cs with
  | nil => exact ⟨by simp, h'⟩
  | cons c r ih =>
    refine ⟨fun eq => ?_, ih h.2⟩
    have next := h.1 eq
    cases r with
    | nil => rfl
    | cons d more => exact next

/-! ## Newlines ahead -/

/-- The line that a reader comes to at the end of the text. -/
def lastLine (p : Pos) (cs : List Char) : Nat := p.line + cs.count '\n'

@[simp] theorem lastLine_right (p : Pos) (cs : List Char) : lastLine p.right cs = lastLine p cs := rfl

theorem lastLine_newline (p : Pos) (r : List Char) : lastLine p ('\n' :: r) = lastLine p.down r := by
  simp [lastLine, Pos.down]
  omega

theorem lastLine_cons {c : Char} (p : Pos) (r : List Char) (h : c ≠ '\n') :
    lastLine p (c :: r) = lastLine p r := by
  simp [lastLine, h]

theorem lastLine_past (p : Pos) (c : Char) (r : List Char) :
    lastLine (p.past c) r = lastLine p (c :: r) := by
  unfold Pos.past
  split
  · rename_i newline
    rw [newline, lastLine_newline]
  · rename_i other
    rw [lastLine_right, lastLine_cons p r other]

/-- What is passed without a newline leaves the newlines ahead. -/
theorem count_newline_append {front rest : List Char} (h : '\n' ∉ front) :
    (front ++ rest).count '\n' = rest.count '\n' := by
  rw [List.count_append, List.count_eq_zero.2 h, Nat.zero_add]

theorem count_newline_drop {cs : List Char} {n : Nat} (h : '\n' ∉ cs.take n) :
    (cs.drop n).count '\n' = cs.count '\n' := by
  rw [← @count_newline_append (cs.take n) _ h, List.take_append_drop]

theorem count_newline_dropWhile {cs : List Char} {f : Char → Bool} (h : f '\n' = false) :
    (cs.dropWhile f).count '\n' = cs.count '\n' := by
  have passed : '\n' ∉ cs.takeWhile f := fun mem => by
    have passes := List.all_eq_true.1 (@List.all_takeWhile _ f cs) _ mem
    rw [h] at passes
    cases passes
  rw [← @count_newline_append (cs.takeWhile f) _ passed, List.takeWhile_append_dropWhile]

/-! ## Gaps -/

theorem lastLine_skipGap (g : Gap) (p : Pos) (cs : List Char) (paired : IsPaired cs) :
    lastLine (skipGap g p cs).1 (skipGap g p cs).2 = lastLine p cs := by
  fun_induction skipGap g p cs with
  | case1 => rfl
  | case2 p r ih | case3 p r ih | case9 p r depth ih | case10 p r depth ih =>
    rw [ih paired.2.2]
    simp [lastLine_cons]
  | case4 p c r _ _ _ ih | case11 p depth c r _ _ ih =>
    rw [ih paired.2, lastLine_past]
  | case5 => rfl
  | case6 p r ih =>
    rw [ih paired.2.2, lastLine_cons _ _ (by decide), lastLine_newline]
  | case7 p c r no_pair breaks ih =>
    have newline : c = '\n' := by
      refine Decidable.byContradiction fun other => ?_
      have carriage : c = '\r' := by simpa [other] using breaks
      have next := paired.1 carriage
      cases r with
      | nil => simp at next
      | cons d more =>
        simp only [List.head?_cons, Option.some.injEq] at next
        exact no_pair more carriage (by rw [next])
    rw [ih paired.2, newline, lastLine_newline]
  | case8 p c r _ breaks ih =>
    have other : c ≠ '\n' := by
      rintro rfl
      simp at breaks
    rw [ih paired.2, lastLine_right, lastLine_cons _ _ other]

/-! ## Strings -/

/-- Behind a string the reader comes to the same line at the end of the text, `n`. -/
def Quote.ComesTo (n : Nat) : Quote → Prop
  | .closed _ p r | .opened _ p r => lastLine p r = n
  | .broken _ _ => True

theorem Quote.ComesTo.cons {n : Nat} {quote : Quote} {c : Char} (h : quote.ComesTo n) :
    (quote.cons c).ComesTo n := by
  cases quote <;> exact h

theorem newline_not_mem_of_hexNumber? {digits : List Char} {n : Nat}
    (h : Text.hexNumber? digits = some n) : '\n' ∉ digits := by
  intro mem
  obtain ⟨front, back, rfl⟩ := List.append_of_mem mem
  have stays (ds : List Char) : ds.foldl (fun (acc : Option Nat) c => do
      return 16 * (← acc) + (← Text.hexValue? c)) none = none := by
    induction ds with
    | nil => rfl
    | cons d more ih => exact ih
  have newline (acc : Option Nat) : (do
      return 16 * (← acc) + (← Text.hexValue? '\n') : Option Nat) = none := by
    cases acc <;> rfl
  rw [Text.hexNumber?, List.foldl_append, List.foldl_cons, newline, stays] at h
  cases h

theorem newline_not_mem_of_escaped? {width : Nat} {cs : List Char} {x : Char}
    (h : escaped? width cs = some x) : '\n' ∉ cs.take width := by
  rw [escaped?] at h
  split at h
  · cases h
  · split at h
    · rename_i number
      exact newline_not_mem_of_hexNumber? number
    · cases h

theorem comesTo_quoted (closing : Char) (continues : Bool) (start p : Pos) (margin : Nat)
    (cs : List Char) (other : closing ≠ '\n') :
    (quoted closing continues start margin p cs).ComesTo (lastLine p cs) := by
  fun_induction quoted closing continues start margin p cs with
  | case1 | case5 | case7 | case9 | case11 | case12 => trivial
  | case2 margin p r ih =>
    rw [lastLine_cons _ _ other, lastLine_cons _ _ other]
    exact ih.cons
  | case3 margin p d r ne => exact (lastLine_cons p (d :: r) other).symm
  | case4 margin p => exact (lastLine_cons p [] other).symm
  | case6 margin p r continues _ ih =>
    rw [lastLine_cons _ _ (by decide), lastLine_newline]
    exact ih
  | case8 margin p e r newline width _ x escaped _ ih =>
    rw [lastLine_cons _ _ (by decide), lastLine_cons _ _ newline]
    rw [lastLine, count_newline_drop (newline_not_mem_of_escaped? escaped)] at ih
    exact ih.cons
  | case10 margin p e r newline _ x _ _ ih =>
    rw [lastLine_cons _ _ (by decide), lastLine_cons _ _ newline]
    exact ih.cons
  | case13 margin p c r _ _ newline _ ih =>
    rw [lastLine_cons _ _ newline]
    exact ih
  | case14 margin p c r _ _ newline _ _ ih =>
    rw [lastLine_cons _ _ newline]
    exact ih
  | case15 margin p c r _ _ newline _ _ ih =>
    rw [lastLine_cons _ _ newline]
    exact ih.cons

theorem comesTo_verbatim (start p : Pos) (cs : List Char) :
    (verbatim start p cs).ComesTo (lastLine p cs) := by
  fun_induction verbatim start p cs with
  | case1 => trivial
  | case2 p r ih =>
    rw [lastLine_cons _ _ (by decide), lastLine_cons _ _ (by decide)]
    exact ih.cons
  | case3 p r => exact (lastLine_cons p r (by decide)).symm
  | case4 p r => exact (lastLine_cons p _ (by decide)).symm
  | case5 p r ih =>
    rw [lastLine_cons _ _ (by decide), lastLine_newline]
    exact ih.cons
  | case6 p c r _ _ _ _ ih =>
    rw [← lastLine_past]
    exact ih.cons

theorem comesTo_raw (count : Nat) (start p : Pos) (cs : List Char) :
    (raw count start p cs).ComesTo (lastLine p cs) := by
  fun_induction raw count start p cs with
  | case1 => trivial
  | case2 p c r closes =>
    rw [Bool.and_eq_true, decide_eq_true_eq, beq_iff_eq] at closes
    have marks : '\n' ∉ r.take count := by
      rw [closes.2, List.mem_replicate]
      rintro ⟨-, h⟩
      revert h
      decide
    rw [closes.1, lastLine_cons _ _ (by decide), Quote.ComesTo, lastLine, count_newline_drop marks]
    rfl
  | case3 p c r _ ih =>
    rw [← lastLine_past]
    exact ih.cons

theorem lastLine_skipFirstBreak (p : Pos) (cs : List Char) (paired : IsPaired cs) :
    lastLine (skipFirstBreak p cs).1 (skipFirstBreak p cs).2 = lastLine p cs := by
  unfold skipFirstBreak
  split
  · rw [lastLine_cons _ _ (by decide), lastLine_newline]
  · rename_i r no_pair
    have next := paired.1 rfl
    cases r with
    | nil => simp at next
    | cons d more =>
      simp only [List.head?_cons, Option.some.injEq] at next
      exact absurd (by rw [next]) (no_pair more)
  · rw [lastLine_newline]
  · rfl

/-! ## Numbers and signs -/

theorem count_newline_digits {valid : Char → Bool} (h : valid '\n' = false) (cs : List Char) :
    (digits valid cs).2.count '\n' = cs.count '\n' :=
  count_newline_dropWhile (by simp [h])

theorem count_newline_cons {c : Char} (h : c ≠ '\n') (r : List Char) :
    (c :: r).count '\n' = r.count '\n' := List.count_cons_of_ne h

theorem count_newline_fractionPart (cs : List Char) :
    (fractionPart cs).2.count '\n' = cs.count '\n' := by
  unfold fractionPart fraction
  split
  · rename_i found
    split at found
    · split at found
      · cases found
        exact (count_newline_digits (by decide) _).trans (count_newline_cons (by decide) _).symm
      · split at found
        · cases found
        · cases found
          exact (count_newline_cons (by decide) _).symm
    · cases found
  · rfl

theorem count_newline_exponentPart (cs : List Char) :
    (exponentPart cs).2.count '\n' = cs.count '\n' := by
  unfold exponentPart exponent
  split
  · rename_i c r
    rw [count_newline_cons (c := 'e') (by decide)]
    split
    · exact count_newline_digits (by decide) _
    · split
      · rename_i sign
        have other : c ≠ '\n' := by
          rintro rfl
          simp at sign
        rw [count_newline_cons other]
        exact count_newline_digits (by decide) _
      · exact count_newline_cons (by decide) _
  · rfl

theorem count_newline_decimal (negative : Bool) (cs : List Char) :
    (decimal negative cs).2.count '\n' = cs.count '\n' := by
  have read := (count_newline_exponentPart (fractionPart (digits Char.isDigit cs).2).2).trans
    ((count_newline_fractionPart (digits Char.isDigit cs).2).trans
      (count_newline_digits (by decide) cs))
  simp only [decimal]
  split
  · exact read
  · split <;> exact read

theorem isRadixDigit_newline (radix : Nat) : isRadixDigit radix '\n' = false := rfl

theorem count_newline_number (negative : Bool) (cs : List Char) :
    (number negative cs).2.count '\n' = cs.count '\n' := by
  unfold number
  split
  · rename_i c r
    split
    · rename_i radix named
      have other : c ≠ '\n' := by
        rintro rfl
        cases named
      rw [count_newline_cons (c := '0') (by decide), count_newline_cons other]
      simp only
      split <;> exact count_newline_digits (isRadixDigit_newline _) _
    · exact count_newline_decimal _ _
  · exact count_newline_decimal _ _

theorem count_newline_firstSign {cs r : List Char} {known : List String} {sign : String}
    (named : ∀ s ∈ known, '\n' ∉ s.toList) (h : firstSign cs known = some (sign, r)) :
    r.count '\n' = cs.count '\n' := by
  induction known with
  | nil => cases h
  | cons other more ih =>
    rw [firstSign] at h
    split at h
    · rename_i front
      cases h
      obtain ⟨rest, rfl⟩ := List.isPrefixOf_iff_prefix.1 front
      rw [← String.length_toList, List.drop_left]
      exact (count_newline_append (named _ List.mem_cons_self)).symm
    · exact ih (fun s hs => named s (List.mem_cons_of_mem _ hs)) h

/-! ## Tokens -/

/-- Behind a token that is none of the bad ones the reader comes to the line `n` at the end. -/
def LeadsTo (n : Nat) (taken : Placed × Pos × List Char) : Prop :=
  (∀ reason, taken.1.token ≠ .bad reason) → lastLine taken.2.1 taken.2.2 = n

theorem leadsTo_advance {t : Token} {p : Pos} {cs rest : List Char}
    (h : rest.count '\n' = cs.count '\n') :
    LeadsTo (lastLine p cs) (⟨t, p⟩, advance p cs rest, rest) := by
  intro _
  rw [lastLine, lastLine, h]
  rfl

theorem leadsTo_bad {n : Nat} {reason : String} {p q : Pos} {rest : List Char} :
    LeadsTo n (⟨.bad reason, p⟩, q, rest) :=
  fun good => absurd rfl (good reason)

theorem leadsTo_ofQuote {n : Nat} {quote : Quote} (start : Pos) (h : quote.ComesTo n) :
    LeadsTo n (ofQuote start quote) := by
  cases quote with
  | broken reason p => exact leadsTo_bad
  | _ => exact fun _ => h

/-- The marks in front of a string in which nothing is escaped. -/
theorem newline_not_mem_marks {r : List Char}
    (h : (r.dropWhile (· = '#')).head? = some '"') :
    '\n' ∉ r.take (1 + (r.takeWhile (· = '#')).length) := by
  have marks : '\n' ∉ r.takeWhile (· = '#') := fun mem => by
    have passes := List.all_eq_true.1 (@List.all_takeWhile _ (· = '#') r) _ mem
    revert passes
    decide
  cases behind : r.dropWhile (· = '#') with
  | nil => simp [behind] at h
  | cons d more =>
    rw [behind, List.head?_cons, Option.some.injEq] at h
    have front : r.take (1 + (r.takeWhile (· = '#')).length) = r.takeWhile (· = '#') ++ [d] := by
      have split := @List.takeWhile_append_dropWhile _ (· = '#') r
      rw [behind] at split
      generalize r.takeWhile (· = '#') = signs at split
      rw [← split, Nat.add_comm, List.take_length_add_append]
      rfl
    rw [front, h, List.mem_append]
    simpa using marks

theorem leadsTo_token (operand : Bool) (p : Pos) (c : Char) (r : List Char)
    (paired : IsPaired (c :: r)) : LeadsTo (lastLine p (c :: r)) (token operand p c r) := by
  unfold token
  dsimp only
  split
  · rename_i quote
    rw [lastLine_cons p r (by rw [quote]; decide)]
    exact leadsTo_ofQuote p (comesTo_quoted '"' true p p.right 0 r (by decide))
  split
  · rename_i tick
    rw [lastLine_cons p r (by rw [tick]; decide), ← lastLine_right,
      ← lastLine_skipFirstBreak p.right r paired.2]
    exact leadsTo_ofQuote p (comesTo_verbatim p _ _)
  split
  · rename_i apostrophe
    split
    · exact leadsTo_bad
    · have read := comesTo_quoted '\'' false p p.right 0 r (by decide)
      rw [lastLine_cons p r (by rw [apostrophe]; decide)]
      split
      · rename_i found
        rw [found] at read
        exact fun _ => read
      · exact leadsTo_bad
      · exact leadsTo_bad
  split
  · exact leadsTo_advance (count_newline_dropWhile (by decide))
  split
  · exact leadsTo_advance (count_newline_number _ _)
  split
  · rename_i minus
    have other : c ≠ '\n' := by
      rintro rfl
      simp at minus
    exact leadsTo_advance ((count_newline_number _ _).trans (count_newline_cons other r).symm)
  split
  · rename_i hash
    rw [Bool.and_eq_true, decide_eq_true_eq, decide_eq_true_eq] at hash
    rw [hash.1, lastLine_cons p r (by decide)]
    have read := comesTo_raw (1 + (r.takeWhile (· = '#')).length) p
      ⟨p.line, p.column + (1 + (r.takeWhile (· = '#')).length) + 1⟩
      (r.drop (1 + (r.takeWhile (· = '#')).length))
    rw [lastLine, count_newline_drop (newline_not_mem_marks hash.2)] at read
    exact leadsTo_ofQuote p read
  split
  · rename_i sign
    rw [Bool.and_eq_true] at sign
    obtain ⟨rest, eq⟩ := List.isPrefixOf_iff_prefix.1 sign.1
    rw [← eq]
    exact leadsTo_advance rfl
  split
  · rename_i found
    have sign := count_newline_firstSign (show ∀ s ∈ signs, '\n' ∉ s.toList by decide) found
    split <;> exact leadsTo_advance sign
  · exact leadsTo_bad

theorem pos_behind (s : State) (t : Token) (p : Pos) : (s.behind t p).pos = p := by
  unfold State.behind
  repeat' split
  all_goals rfl

theorem getLast?_cons_scan (t : Placed) (s : State) (cs : List Char) :
    (t :: scan s cs).getLast? = (scan s cs).getLast? := by
  cases eq : scan s cs with
  | nil => exact absurd eq (scan_ne_nil s cs)
  | cons u us => rfl

theorem length_behind_of_singleton {t u : Placed} {front back : List Placed}
    (h : [t] = front ++ u :: back) : back.length ≤ 1 := by
  have count := congrArg List.length h
  simp only [List.length_append, List.length_cons, List.length_nil] at count
  omega

/-- Behind a bad token a row is at its end. -/
theorem length_behind_bad {s : State} {cs : List Char} {front back : List Placed} {reason : String}
    {p : Pos} (h : scan s cs = front ++ ⟨.bad reason, p⟩ :: back) : back.length ≤ 1 := by
  fun_induction scan s cs generalizing front with
  | case1 s cs inText t q rest read short ih =>
    cases front with
    | cons f more => exact ih (List.cons.inj h).2
    | nil =>
      obtain ⟨rfl, rfl⟩ := List.cons.inj h
      -- Nothing is left behind a string that is not closed.
      have nothing : rest = [] := by
        cases text : verbatim s.pos s.pos cs with
        | broken _ _ =>
          rw [text] at read
          cases read
          rfl
        | _ =>
          rw [text] at read
          cases read
      have one := congrArg List.length (@scan_nil (s.behind (.bad reason) q) rfl)
      rw [List.length_map, List.length_singleton] at one
      rw [nothing]
      exact Nat.le_of_eq one
  | case2 | case3 | case4 | case6 => exact length_behind_of_singleton h
  | case5 s cs outside q c r skipped t q' rest read short good ih =>
    cases front with
    | cons f more => exact ih (List.cons.inj h).2
    | nil =>
      obtain ⟨rfl, -⟩ := List.cons.inj h
      exact absurd rfl (good reason)

/-- The end of a script that is read to its end is in the line that the newlines tell. -/
theorem line_of_scan {s : State} {cs : List Char} {p : Pos} (paired : IsPaired cs)
    (good : ∀ t ∈ scan s cs, ∀ reason, t.token ≠ .bad reason)
    (ends : (scan s cs).getLast? = some ⟨.ended, p⟩) : p.line = lastLine s.pos cs := by
  fun_induction scan s cs with
  | case1 s cs inText t q rest read short ih =>
    have leads := leadsTo_ofQuote s.pos (comesTo_verbatim s.pos s.pos cs)
    have suffix := rest_verbatim s.pos s.pos cs
    rw [← rest_ofQuote s.pos, read] at suffix
    rw [read] at leads
    rw [getLast?_cons_scan] at ends
    rw [ih (paired.of_suffix suffix) (fun u hu => good u (List.mem_cons_of_mem _ hu)) ends,
      pos_behind]
    exact leads (good t List.mem_cons_self)
  | case2 s cs inText t q rest read =>
    have other := ofQuote_ne_ended s.pos (verbatim s.pos s.pos cs)
    cases ends
    exact absurd (by rw [read]) other
  | case3 s cs outside q skipped =>
    have leads := lastLine_skipGap .space s.pos cs paired
    rw [skipped] at leads
    cases ends
    exact leads
  | case4 s cs outside q c r skipped t q' rest read reason bad =>
    exact absurd bad (good t List.mem_cons_self reason)
  | case5 s cs outside q c r skipped t q' rest read short _ ih =>
    have gap := lastLine_skipGap .space s.pos cs paired
    have suffix := rest_skipGap .space s.pos cs
    rw [skipped] at gap suffix
    have leads := leadsTo_token s.operand q c r (paired.of_suffix suffix)
    have suffix' := (rest_token s.operand q c r).1
    rw [read] at leads suffix'
    rw [getLast?_cons_scan] at ends
    rw [ih (paired.of_suffix (suffix'.trans suffix))
      (fun u hu => good u (List.mem_cons_of_mem _ hu)) ends, pos_behind, ← gap]
    exact leads (good t List.mem_cons_self)
  | case6 s cs outside q c r skipped t q' rest read =>
    have other := (rest_token s.operand q c r).2
    cases ends
    exact absurd (by rw [read]) other

/-- A script whose last two tokens are known has no bad token. -/
theorem good_of_last {s : State} {cs : List Char} {ts : List Token} {t : Token}
    (row : (scan s cs).map (·.token) = ts ++ [t, .ended]) (last : ∀ reason, t ≠ .bad reason) :
    ∀ u ∈ scan s cs, ∀ reason, u.token ≠ .bad reason := by
  rintro u hu reason bad
  obtain ⟨front, back, split⟩ := List.append_of_mem hu
  have near : back.length ≤ 1 :=
    @length_behind_bad s cs front back reason u.pos (by rw [split, ← bad])
  rw [split, List.map_append, List.map_cons, bad] at row
  match back, near with
  | [], _ =>
    have ended : ts ++ [t, .ended] = (ts ++ [t]) ++ [.ended] := by simp
    rw [ended] at row
    simpa using (List.append_inj' row rfl).2
  | [v], _ =>
    have same := (List.append_inj' row rfl).2
    simp only [List.map_cons, List.map_nil, List.cons.injEq] at same
    exact last reason same.1.symm

/--
Where a text is read in front of another, the first token behind it stands in the line that the
newlines of the text tell.
-/
theorem exists_place {s : State} {front r : List Char} {c : Char} {ts us : List Token} {t : Token}
    (outside : Outside s) (paired : IsPaired (front ++ c :: r))
    (read : LexesFrom s.operand front ts (c :: r)) (visible : Text.isBlank c = false)
    (slash : c ≠ '/')
    (short : ∀ operand p, (token operand p c r).2.2.length < (c :: r).length)
    (row : (scan s (front ++ c :: r)).map (·.token) = us ++ [t, .ended])
    (last : ∀ reason, t ≠ .bad reason) :
    ∃ placed operand q, scan s (front ++ c :: r) = placed ++ scan ⟨q, operand, [], false⟩ (c :: r) ∧
      placed.map (·.token) = ts ∧ q.line = s.pos.line + front.count '\n' := by
  obtain ⟨placed, s', gap, outside', -, hg, tokens, eq⟩ := read s [] outside rfl isGap_nil
  obtain ⟨q, skipped⟩ := hg s'.pos (c :: r)
  rw [skipGap_visible visible slash] at skipped
  rw [List.nil_append, scan_of_skipGap outside'.inText visible slash skipped (by simp)
    (short _ _)] at eq
  have state : { s' with pos := q } = ⟨q, s'.operand, [], false⟩ := by
    rw [← outside'.depths, ← outside'.inText]
  rw [state] at eq
  refine ⟨placed, s'.operand, q, eq, tokens, ?_⟩
  -- Both scripts come to the same end, in front of which there are as many newlines more.
  have good := good_of_last row last
  obtain ⟨p, ends⟩ : ∃ p, (scan s (front ++ c :: r)).getLast? = some ⟨.ended, p⟩ := by
    have token := congrArg List.getLast? row
    rw [List.getLast?_map, List.getLast?_append] at token
    obtain ⟨⟨u, p⟩, found, rfl⟩ := Option.map_eq_some_iff.1 token
    exact ⟨p, found⟩
  have whole := line_of_scan paired good ends
  have behind : (scan ⟨q, s'.operand, [], false⟩ (c :: r)).getLast? = some ⟨.ended, p⟩ := by
    rw [eq, List.getLast?_append] at ends
    cases rest : (scan ⟨q, s'.operand, [], false⟩ (c :: r)).getLast? with
    | none => exact absurd (List.getLast?_eq_none_iff.1 rest) (scan_ne_nil _ _)
    | some u => rwa [rest] at ends
  have part := line_of_scan (paired.of_suffix (List.suffix_append front _))
    (fun u hu => good u (by rw [eq]; exact List.mem_append_right _ hu)) behind
  rw [whole, lastLine, lastLine, List.count_append] at part
  dsimp only at part
  omega

end Lexer

end Stencil.Script
