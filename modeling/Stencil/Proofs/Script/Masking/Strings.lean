import Stencil.Resolver
import Stencil.Proofs.Script.Newlines

/-!
# Texts with a masked name

The conditionals on the mode of emission that stand at the beginning of a line are masked: the mode
has another name there, which is as long.  A reader goes through a text and its masked twin in step.
It comes to the beginning of a masked conditional or passes it as a whole, in a comment or a string,
and never stops in the middle.
-/

namespace Stencil.Script.Lexer

open Resolver (modeName)

/-! ## Conditionals at the beginning of a line -/

/-- The name that stands for the mode where it is masked. -/
def mask : String := "_resolved"

/-- The text of a conditional up to its block. -/
def conditional (name : String) : List Char := 'i' :: 'f' :: ' ' :: (name.toList ++ [' ', '\x7b'])

/-- Characters that mean nothing to a reader of a comment or of a string. -/
def IsCalm (c : Char) : Prop := c ∉ ['/', '*', '\n', '\r', '"', '\'', '`', '\\', '$']

theorem isCalm_mode : ∀ c ∈ conditional modeName, IsCalm c := by
  simp [conditional, IsCalm, modeName]

theorem isCalm_mask : ∀ c ∈ conditional mask, IsCalm c := by
  simp [conditional, IsCalm, mask]

theorem length_conditional : (conditional modeName).length = (conditional mask).length := by
  decide

/--
The second text is the first one with masked conditionals; `fresh` tells whether a line may begin.
What stands behind a masked conditional has the property `G`.
-/
inductive Masked (G : List Char → Prop) : Bool → List Char → List Char → Prop
  | nil {fresh : Bool} : Masked G fresh [] []
  | char {fresh : Bool} (c : Char) {r r' : List Char} (h : Masked G (c = '\n') r r') :
      Masked G fresh (c :: r) (c :: r')
  | guard {r r' : List Char} (inside : G r) (h : Masked G false r r') :
      Masked G true (conditional modeName ++ r) (conditional mask ++ r')

namespace Masked

variable {G : List Char → Prop} {fresh : Bool} {cs cs' r r' : List Char} {c : Char}

theorem weaken (h : Masked G false cs cs') : Masked G true cs cs' := by
  cases h with
  | nil => exact .nil
  | char c h => exact .char c h

theorem fresher (h : Masked G fresh cs cs') : Masked G true cs cs' := by
  cases fresh with
  | false => exact h.weaken
  | true => exact h

theorem cons_inv (h : Masked G false (c :: r) cs') :
    ∃ r', cs' = c :: r' ∧ Masked G (c = '\n') r r' := by
  generalize text : c :: r = cs at h
  cases h with
  | nil => cases text
  | char d h =>
    obtain ⟨rfl, rfl⟩ := List.cons.inj text
    exact ⟨_, rfl, h⟩

theorem eq_nil (h : Masked G fresh [] cs') : cs' = [] := by
  generalize text : [] = cs at h
  cases h with
  | nil => rfl
  | char c h => cases text
  | guard inside h => cases text

/-- Behind one of two characters that belong together no line begins. -/
theorem pair {d : Char} (h : Masked G (c = '\n') r r') (first : c ≠ '\n')
    (second : r.head? = some d) :
    ∃ r₁ r₁', r = d :: r₁ ∧ r' = d :: r₁' ∧ Masked G (d = '\n') r₁ r₁' := by
  obtain ⟨r₁, rfl⟩ := List.head?_eq_some_iff.1 second
  simp only [first, decide_false] at h
  obtain ⟨r₁', eq, behind⟩ := h.cons_inv
  exact ⟨r₁, r₁', rfl, eq, behind⟩

theorem length_eq (h : Masked G fresh cs cs') : cs.length = cs'.length := by
  induction h with
  | nil => rfl
  | char c h ih => rw [List.length_cons, List.length_cons, ih]
  | guard inside h ih =>
    rw [List.length_append, List.length_append, ih, length_conditional]

theorem head?_eq (h : Masked G fresh cs cs') : cs.head? = cs'.head? := by
  cases h with
  | nil => rfl
  | char c h => rfl
  | guard inside h => simp only [conditional, List.cons_append, List.head?_cons]

/-- A piece without a newline that is ahead in one text is ahead in the other. -/
theorem take_eq (h : Masked G false cs cs') {n : Nat}
    (line : '\n' ∉ cs.take n ∨ '\n' ∉ cs'.take n) :
    cs.take n = cs'.take n ∧ Masked G false (cs.drop n) (cs'.drop n) := by
  induction n generalizing cs cs' with
  | zero => exact ⟨rfl, h⟩
  | succ n ih =>
    cases cs with
    | nil =>
      obtain rfl := h.eq_nil
      exact ⟨rfl, h⟩
    | cons c r =>
      obtain ⟨r', rfl, behind⟩ := h.cons_inv
      simp only [List.take_succ_cons, List.mem_cons, not_or] at line
      have other : decide (c = '\n') = false := by
        rcases line with line | line <;> simpa using Ne.symm line.1
      rw [other] at behind
      obtain ⟨same, behind⟩ := ih behind (line.imp And.right And.right)
      exact ⟨by rw [List.take_succ_cons, List.take_succ_cons, same], behind⟩

end Masked

/-! ## Gaps -/

section

variable {p : Pos} {c : Char} {r : List Char} {depth : Nat}

theorem skipGap_space_cons (alone : c = '/' → r.head? ≠ some '/' ∧ r.head? ≠ some '*') :
    skipGap .space p (c :: r) =
      if Text.isBlank c then skipGap .space (p.past c) r else (p, c :: r) := by
  rw [skipGap.eq_def]
  split <;> simp_all

theorem skipGap_line_cons (alone : c = '\r' → r.head? ≠ some '\n') :
    skipGap .line p (c :: r) =
      if c = '\n' || c = '\r' then skipGap .space p.down r else skipGap .line p.right r := by
  rw [skipGap.eq_def]
  split <;> simp_all

theorem skipGap_block_cons (opens : c = '/' → r.head? ≠ some '*')
    (closes : c = '*' → r.head? ≠ some '/') :
    skipGap (.block depth) p (c :: r) = skipGap (.block depth) (p.past c) r := by
  rw [skipGap.eq_def]
  split <;> simp_all

/-- Text that means nothing is passed in a comment. -/
theorem skipGap_calm {g : Gap} {front : List Char} (calm : ∀ c ∈ front, IsCalm c)
    (inside : g ≠ .space) :
    skipGap g p (front ++ r) = skipGap g ⟨p.line, p.column + front.length⟩ r := by
  induction front generalizing p with
  | nil => rfl
  | cons c more ih =>
    obtain ⟨first, others⟩ := List.forall_mem_cons.1 calm
    have step : skipGap g p (c :: (more ++ r)) = skipGap g p.right (more ++ r) := by
      simp only [IsCalm, List.mem_cons, List.not_mem_nil, or_false, not_or] at first
      cases g with
      | space => exact absurd rfl inside
      | line =>
        rw [skipGap_line_cons (fun carriage => absurd carriage first.2.2.2.1)]
        simp [first]
      | block depth =>
        rw [skipGap_block_cons (fun slash => absurd slash first.1)
          (fun star => absurd star first.2.1)]
        simp [Pos.past, first]
    rw [List.cons_append, step, ih others]
    simp only [Pos.right, List.length_cons, Nat.add_assoc, Nat.add_comm 1]

end

/-- A masked conditional is passed as a whole in a comment, and is not passed outside. -/
theorem Masked.skipGap {G : List Char → Prop} {fresh : Bool} {cs cs' : List Char}
    (h : Masked G fresh cs cs') (g : Gap) (p : Pos) :
    (skipGap g p cs).1 = (skipGap g p cs').1 ∧
      Masked G true (skipGap g p cs).2 (skipGap g p cs').2 := by
  induction count : cs.length using Nat.strong_induction_on generalizing fresh cs cs' g p with
  | _ n ih =>
  have next {fresh : Bool} {r r' : List Char} (h : Masked G fresh r r') (short : r.length < n)
      (g : Gap) (p : Pos) := ih r.length short h g p rfl
  cases h with
  | nil => exact ⟨by simp [Lexer.skipGap], by simpa [Lexer.skipGap] using .nil⟩
  | @guard r r' inside behind =>
    by_cases space : g = .space
    · have visible (name : String) (r : List Char) :
          Lexer.skipGap .space p (conditional name ++ r) = (p, conditional name ++ r) :=
        skipGap_visible (c := 'i') (by decide) (by decide) p _
      rw [space, visible, visible]
      exact ⟨rfl, .guard inside behind⟩
    · rw [skipGap_calm isCalm_mode space, skipGap_calm isCalm_mask space, length_conditional]
      exact next behind (by simp [← count, conditional]; omega) g _
  | @char _ c r r' behind =>
    obtain rfl : r.length + 1 = n := count
    have head := behind.head?_eq
    have one := next behind (Nat.lt_succ_self _)
    have two {d : Char} (first : c ≠ '\n') (second : r.head? = some d) := behind.pair first second
    cases g with
    | space =>
      by_cases line : c = '/' ∧ r.head? = some '/'
      · obtain ⟨rfl, second⟩ := line
        obtain ⟨r₁, r₁', rfl, rfl, further⟩ := two (by decide) second
        exact next further (by simp) .line p.right.right
      by_cases block : c = '/' ∧ r.head? = some '*'
      · obtain ⟨rfl, second⟩ := block
        obtain ⟨r₁, r₁', rfl, rfl, further⟩ := two (by decide) second
        exact next further (by simp) (.block 1) p.right.right
      have alone (slash : c = '/') : r.head? ≠ some '/' ∧ r.head? ≠ some '*' :=
        ⟨fun second => line ⟨slash, second⟩, fun second => block ⟨slash, second⟩⟩
      rw [skipGap_space_cons alone, skipGap_space_cons (head ▸ alone)]
      split
      · exact one .space _
      · exact ⟨rfl, .char c behind⟩
    | line =>
      by_cases break_ : c = '\r' ∧ r.head? = some '\n'
      · obtain ⟨rfl, second⟩ := break_
        obtain ⟨r₁, r₁', rfl, rfl, further⟩ := two (by decide) second
        exact next further (by simp) .space p.down
      have alone (carriage : c = '\r') : r.head? ≠ some '\n' :=
        fun second => break_ ⟨carriage, second⟩
      rw [skipGap_line_cons alone, skipGap_line_cons (head ▸ alone)]
      split
      · exact one .space _
      · exact one .line _
    | block depth =>
      by_cases opens : c = '/' ∧ r.head? = some '*'
      · obtain ⟨rfl, second⟩ := opens
        obtain ⟨r₁, r₁', rfl, rfl, further⟩ := two (by decide) second
        exact next further (by simp) (.block (depth + 1)) p.right.right
      by_cases closes : c = '*' ∧ r.head? = some '/'
      · obtain ⟨rfl, second⟩ := closes
        obtain ⟨r₁, r₁', rfl, rfl, further⟩ := two (by decide) second
        exact next further (by simp) (if depth ≤ 1 then .space else .block (depth - 1)) p.right.right
      have opens (slash : c = '/') : r.head? ≠ some '*' := fun second => opens ⟨slash, second⟩
      have closes (star : c = '*') : r.head? ≠ some '/' := fun second => closes ⟨star, second⟩
      rw [skipGap_block_cons opens closes, skipGap_block_cons (head ▸ opens) (head ▸ closes)]
      exact one (.block depth) _

/-! ## Strings -/

/--
Strings that are read of a text and of its masked twin.  Only a text of several characters can
differ, which is no character.
-/
inductive Quote.Like (G : List Char → Prop) : Quote → Quote → Prop
  | closed {text text' : List Char} (p : Pos) {r r' : List Char}
      (same : text = text' ∨ 2 ≤ text.length ∧ 2 ≤ text'.length) (h : Masked G false r r') :
      Like G (.closed text p r) (.closed text' p r')
  | opened (text text' : List Char) (p : Pos) {r r' : List Char} (h : Masked G false r r') :
      Like G (.opened text p r) (.opened text' p r')
  | broken (reason reason' : String) (p : Pos) : Like G (.broken reason p) (.broken reason' p)

namespace Quote.Like

variable {G : List Char → Prop} {quote quote' : Quote}

theorem cons (h : quote.Like G quote') (c : Char) : (quote.cons c).Like G (quote'.cons c) := by
  cases h with
  | closed p same h =>
    refine .closed p ?_ h
    rcases same with rfl | long
    · exact .inl rfl
    · exact .inr (by simp only [List.length_cons]; omega)
  | opened text text' p h => exact .opened _ _ p h
  | broken reason reason' p => exact .broken _ _ p

/-- Behind two characters texts may differ. -/
theorem foldr (h : quote.Like G quote') {front front' : List Char} (long : 2 ≤ front.length)
    (long' : 2 ≤ front'.length) :
    (front.foldr Quote.cons quote).Like G (front'.foldr Quote.cons quote') := by
  have pushed (front text : List Char) (p : Pos) (r : List Char) :
      front.foldr Quote.cons (.closed text p r) = .closed (front ++ text) p r ∧
      front.foldr Quote.cons (.opened text p r) = .opened (front ++ text) p r := by
    induction front with
    | nil => exact ⟨rfl, rfl⟩
    | cons c more ih =>
      rw [List.foldr_cons, List.foldr_cons, ih.1, ih.2]
      exact ⟨rfl, rfl⟩
  have failed (front : List Char) (reason : String) (p : Pos) :
      front.foldr Quote.cons (.broken reason p) = .broken reason p := by
    induction front with
    | nil => rfl
    | cons c more ih =>
      rw [List.foldr_cons, ih]
      rfl
  cases h with
  | closed p same h =>
    rw [(pushed _ _ _ _).1, (pushed _ _ _ _).1]
    refine .closed p (.inr ?_) h
    simp only [List.length_append]
    omega
  | opened text text' p h =>
    rw [(pushed _ _ _ _).2, (pushed _ _ _ _).2]
    exact .opened _ _ p h
  | broken reason reason' p =>
    rw [failed, failed]
    exact .broken _ _ p

end Quote.Like

section

variable {closing : Char} {continues : Bool} {start p : Pos} {margin : Nat} {c : Char}
  {front r : List Char}

theorem quoted_calm (calm : ∀ c ∈ front, IsCalm c) (mark : closing ∈ ['"', '\'']) :
    quoted closing continues start 0 p (front ++ r) =
      front.foldr Quote.cons
        (quoted closing continues start 0 ⟨p.line, p.column + front.length⟩ r) := by
  induction front generalizing p with
  | nil => rfl
  | cons c more ih =>
    obtain ⟨first, others⟩ := List.forall_mem_cons.1 calm
    simp only [IsCalm, List.mem_cons, List.not_mem_nil, or_false, not_or] at first
    have other : c ≠ closing := by
      rintro rfl
      simp [first] at mark
    rw [List.cons_append, quoted.eq_def, List.foldr_cons]
    simp only [other, first, if_false, decide_false, Bool.false_and, Bool.false_eq_true,
      Nat.not_lt_zero, Bool.and_false]
    rw [ih others]
    simp only [Pos.right, List.length_cons, Nat.add_assoc, Nat.add_comm 1]

/-- White space in front of the margin is skipped up to the first character of a text. -/
theorem quoted_margin (first : IsCalm c) (visible : Text.isBlank c = false)
    (mark : closing ∈ ['"', '\'']) :
    quoted closing continues start margin p (c :: r) =
      quoted closing continues start 0 p (c :: r) := by
  simp only [IsCalm, List.mem_cons, List.not_mem_nil, or_false, not_or] at first
  have other : c ≠ closing := by
    rintro rfl
    simp [first] at mark
  rw [quoted.eq_def, quoted.eq_def closing continues start 0 p (c :: r)]
  simp [other, first, visible]

end

/-- What is escaped stands in one line. -/
theorem Masked.escaped {G : List Char → Prop} {cs cs' : List Char} (h : Masked G false cs cs')
    (width : Nat) :
    escaped? width cs = escaped? width cs' ∧ Masked G false (cs.drop width) (cs'.drop width) ∨
      escaped? width cs = none ∧ escaped? width cs' = none := by
  have found {x : Char} (line : '\n' ∉ cs.take width ∨ '\n' ∉ cs'.take width) :
      escaped? width cs = escaped? width cs' ∧ Masked G false (cs.drop width) (cs'.drop width) := by
    obtain ⟨same, dropped⟩ := h.take_eq line
    exact ⟨by simp only [escaped?, same], dropped⟩
  cases first : escaped? width cs with
  | some x => exact .inl (first ▸ @found x (.inl (newline_not_mem_of_escaped? first)))
  | none =>
    cases second : escaped? width cs' with
    | some x => exact .inl (first ▸ second ▸ @found x (.inr (newline_not_mem_of_escaped? second)))
    | none => exact .inr ⟨rfl, rfl⟩

section

variable {G : List Char → Prop} {r r' : List Char} {closing : Char} {continues : Bool} {start : Pos}

/-- A closing mark that is not doubled ends both strings. -/
theorem Masked.quoted_closing (behind : Masked G false r r') (margin : Nat) (p : Pos)
    (next : ∀ {fresh : Bool} {s s' : List Char}, Masked G fresh s s' → s.length ≤ r.length →
      ∀ (margin : Nat) (p : Pos), (quoted closing continues start margin p s).Like G
        (quoted closing continues start margin p s')) :
    (quoted closing continues start margin p (closing :: r)).Like G
      (quoted closing continues start margin p (closing :: r')) := by
  rw [Lexer.quoted.eq_def, Lexer.quoted.eq_def closing continues start margin p (closing :: r')]
  dsimp only
  rw [if_pos rfl, if_pos rfl]
  cases r with
  | nil =>
    obtain rfl := behind.eq_nil
    exact .closed _ (.inl rfl) .nil
  | cons d r₁ =>
    obtain ⟨r₁', rfl, further⟩ := behind.cons_inv
    dsimp only
    by_cases double : d = closing
    · rw [if_pos double, if_pos double]
      exact (next further (by simp) 0 _).cons closing
    · rw [if_neg double, if_neg double]
      exact .closed _ (.inl rfl) behind

/-- Behind a backslash both strings go on in the same way, or both are broken. -/
theorem Masked.quoted_escape (other : '\\' ≠ closing) (behind : Masked G false r r')
    (margin : Nat) (p : Pos)
    (next : ∀ {fresh : Bool} {s s' : List Char}, Masked G fresh s s' → s.length ≤ r.length →
      ∀ (margin : Nat) (p : Pos), (quoted closing continues start margin p s).Like G
        (quoted closing continues start margin p s')) :
    (quoted closing continues start margin p ('\\' :: r)).Like G
      (quoted closing continues start margin p ('\\' :: r')) := by
  rw [Lexer.quoted.eq_def, Lexer.quoted.eq_def closing continues start margin p ('\\' :: r')]
  dsimp only
  rw [if_neg other, if_neg other, if_pos rfl, if_pos rfl]
  cases r with
  | nil =>
    obtain rfl := behind.eq_nil
    exact .broken _ _ _
  | cons e r₁ =>
    obtain ⟨r₁', rfl, further⟩ := behind.cons_inv
    dsimp only
    by_cases newline : e = '\n'
    · rw [if_pos newline, if_pos newline]
      split
      · exact next further (by simp) _ _
      · exact .broken _ _ _
    rw [if_neg newline, if_neg newline]
    simp only [newline, decide_false] at further
    split
    · rename_i width _
      rcases further.escaped width with ⟨same, dropped⟩ | ⟨none, none'⟩
      · rw [← same]
        split
        · exact (next dropped (by simp; omega) 0 _).cons _
        · exact .broken _ _ _
      · rw [none, none']
        exact .broken _ _ _
    · split
      · exact (next further (by simp) 0 _).cons _
      · exact .broken _ _ _

theorem Masked.quoted {fresh : Bool} {cs cs' : List Char} (mark : closing ∈ ['"', '\''])
    (continues : Bool) (start : Pos) (h : Masked G fresh cs cs') (margin : Nat) (p : Pos) :
    (quoted closing continues start margin p cs).Like G
      (quoted closing continues start margin p cs') := by
  induction count : cs.length using Nat.strong_induction_on generalizing fresh cs cs' margin p with
  | _ n ih =>
  have next {fresh : Bool} {r r' : List Char} (h : Masked G fresh r r') (short : r.length < n)
      (margin : Nat) (p : Pos) := ih r.length short h margin p rfl
  cases h with
  | nil =>
    rw [Lexer.quoted.eq_def]
    exact .broken _ _ _
  | @guard r r' inside behind =>
    have begun (name : String) (r : List Char) :
        Lexer.quoted closing continues start margin p (conditional name ++ r) =
          Lexer.quoted closing continues start 0 p (conditional name ++ r) :=
      quoted_margin (by simp [IsCalm]) (by decide) mark
    rw [begun, begun, quoted_calm isCalm_mode mark, quoted_calm isCalm_mask mark,
      length_conditional]
    have step := next behind (by simp [← count, conditional]; omega) 0
      ⟨p.line, p.column + (conditional mask).length⟩
    exact step.foldr (by simp [conditional]) (by simp [conditional])
  | @char _ c r r' behind =>
    obtain rfl : r.length + 1 = n := count
    have one := next behind (Nat.lt_succ_self _)
    have quote : closing ≠ '\n' := by
      rintro rfl
      simp at mark
    by_cases closes : c = closing
    · subst closes
      simp only [quote, decide_false] at behind
      exact behind.quoted_closing margin p fun h short => next h (Nat.lt_succ_of_le short)
    by_cases escape : c = '\\'
    · subst escape
      exact behind.quoted_escape closes margin p fun h short => next h (Nat.lt_succ_of_le short)
    rw [Lexer.quoted.eq_def, Lexer.quoted.eq_def closing continues start margin p (c :: r')]
    dsimp only
    rw [if_neg closes, if_neg closes, if_neg escape, if_neg escape]
    by_cases newline : c = '\n'
    · rw [if_pos newline, if_pos newline]
      exact .broken _ _ _
    rw [if_neg newline, if_neg newline, behind.head?_eq]
    split
    · exact one margin _
    split
    · exact one margin _
    · exact (one 0 _).cons c

end

/-! ### Back-tick strings -/

section

variable {start p : Pos} {c : Char} {front r : List Char} {count : Nat}

theorem verbatim_tick (single : r.head? ≠ some '`') :
    verbatim start p ('`' :: r) = .closed [] p.right r := by
  cases r with
  | nil => rfl
  | cons d more =>
    have other : d ≠ '`' := by simpa using single
    simp [verbatim, other]

theorem verbatim_cons (tick : c ≠ '`') (opens : c = '$' → r.head? ≠ some '\x7b')
    (break_ : c = '\r' → r.head? ≠ some '\n') :
    verbatim start p (c :: r) = (verbatim start (p.past c) r).cons c := by
  rw [verbatim.eq_def]
  split <;> simp_all

theorem verbatim_calm (calm : ∀ c ∈ front, IsCalm c) :
    verbatim start p (front ++ r) =
      front.foldr Quote.cons (verbatim start ⟨p.line, p.column + front.length⟩ r) := by
  induction front generalizing p with
  | nil => rfl
  | cons c more ih =>
    obtain ⟨first, others⟩ := List.forall_mem_cons.1 calm
    simp only [IsCalm, List.mem_cons, List.not_mem_nil, or_false, not_or] at first
    rw [List.cons_append, verbatim_cons (by simp [first]) (by simp [first]) (by simp [first]),
      ih others]
    simp only [Pos.past, first, if_false, Pos.right, List.length_cons, List.foldr_cons,
      Nat.add_assoc, Nat.add_comm 1]

theorem raw_calm (calm : ∀ c ∈ front, IsCalm c) :
    raw count start p (front ++ r) =
      front.foldr Quote.cons (raw count start ⟨p.line, p.column + front.length⟩ r) := by
  induction front generalizing p with
  | nil => rfl
  | cons c more ih =>
    obtain ⟨first, others⟩ := List.forall_mem_cons.1 calm
    simp only [IsCalm, List.mem_cons, List.not_mem_nil, or_false, not_or] at first
    rw [List.cons_append, raw]
    simp only [first, decide_false, Bool.false_and, Bool.false_eq_true, if_false]
    rw [ih others]
    simp only [Pos.past, first, if_false, Pos.right, List.length_cons, List.foldr_cons,
      Nat.add_assoc, Nat.add_comm 1]

end

theorem Masked.verbatim {G : List Char → Prop} {fresh : Bool} {cs cs' : List Char} (start : Pos)
    (h : Masked G fresh cs cs') (p : Pos) :
    (verbatim start p cs).Like G (verbatim start p cs') := by
  induction count : cs.length using Nat.strong_induction_on generalizing fresh cs cs' p with
  | _ n ih =>
  have next {fresh : Bool} {r r' : List Char} (h : Masked G fresh r r') (short : r.length < n)
      (p : Pos) := ih r.length short h p rfl
  cases h with
  | nil => exact .broken _ _ _
  | @guard r r' inside behind =>
    rw [verbatim_calm isCalm_mode, verbatim_calm isCalm_mask, length_conditional]
    have step := next behind (by simp [← count, conditional]; omega)
      ⟨p.line, p.column + (conditional mask).length⟩
    exact step.foldr (by simp [conditional]) (by simp [conditional])
  | @char _ c r r' behind =>
    obtain rfl : r.length + 1 = n := count
    have head := behind.head?_eq
    have two {d : Char} (first : c ≠ '\n') (second : r.head? = some d) := behind.pair first second
    by_cases tick : c = '`'
    · subst tick
      by_cases double : r.head? = some '`'
      · obtain ⟨r₁, r₁', rfl, rfl, further⟩ := two (by decide) double
        exact (next further (by simp) p.right.right).cons '`'
      · rw [verbatim_tick double, verbatim_tick (head ▸ double)]
        exact .closed _ (.inl rfl) behind
    by_cases opens : c = '$' ∧ r.head? = some '\x7b'
    · obtain ⟨rfl, second⟩ := opens
      obtain ⟨r₁, r₁', rfl, rfl, further⟩ := two (by decide) second
      exact .opened _ _ p.right behind
    by_cases break_ : c = '\r' ∧ r.head? = some '\n'
    · obtain ⟨rfl, second⟩ := break_
      obtain ⟨r₁, r₁', rfl, rfl, further⟩ := two (by decide) second
      exact (next further (by simp) p.down).cons '\n'
    have opens (dollar : c = '$') : r.head? ≠ some '\x7b' := fun second => opens ⟨dollar, second⟩
    have break_ (carriage : c = '\r') : r.head? ≠ some '\n' :=
      fun second => break_ ⟨carriage, second⟩
    rw [verbatim_cons tick opens break_, verbatim_cons tick (head ▸ opens) (head ▸ break_)]
    exact (next behind (Nat.lt_succ_self _) _).cons c

/-- The marks behind a string in which nothing is escaped stand in one line. -/
theorem Masked.raw {G : List Char → Prop} {fresh : Bool} {cs cs' : List Char} (marks : Nat)
    (start : Pos) (h : Masked G fresh cs cs') (p : Pos) :
    (raw marks start p cs).Like G (raw marks start p cs') := by
  induction count : cs.length using Nat.strong_induction_on generalizing fresh cs cs' p with
  | _ n ih =>
  have next {fresh : Bool} {r r' : List Char} (h : Masked G fresh r r') (short : r.length < n)
      (p : Pos) := ih r.length short h p rfl
  cases h with
  | nil => exact .broken _ _ _
  | @guard r r' inside behind =>
    rw [raw_calm isCalm_mode, raw_calm isCalm_mask, length_conditional]
    have step := next behind (by simp [← count, conditional]; omega)
      ⟨p.line, p.column + (conditional mask).length⟩
    exact step.foldr (by simp [conditional]) (by simp [conditional])
  | @char _ c r r' behind =>
    obtain rfl : r.length + 1 = n := count
    have closes : (c = '"' && r.take marks == List.replicate marks '#') =
        (c = '"' && r'.take marks == List.replicate marks '#') := by
      by_cases quote : c = '"'
      · subst quote
        have line (text : List Char) (eq : text = List.replicate marks '#') : '\n' ∉ text := by
          rw [eq, List.mem_replicate]
          rintro ⟨-, h⟩
          exact absurd h (by decide)
        rw [Bool.eq_iff_iff]
        simp only [decide_true, Bool.true_and, beq_iff_eq]
        exact ⟨fun eq => (behind.take_eq (.inl (line _ eq))).1 ▸ eq,
          fun eq => (behind.take_eq (.inr (line _ eq))).1 ▸ eq⟩
      · simp [quote]
    rw [Lexer.raw, Lexer.raw, ← closes]
    split
    · rename_i ends
      rw [Bool.and_eq_true, decide_eq_true_eq, beq_iff_eq] at ends
      obtain ⟨rfl, eq⟩ := ends
      refine .closed _ (.inl rfl) (behind.take_eq (.inl ?_)).2
      rw [eq, List.mem_replicate]
      rintro ⟨-, h⟩
      exact absurd h (by decide)
    · exact (next behind (Nat.lt_succ_self _) _).cons c

theorem Masked.skipFirstBreak {G : List Char → Prop} {cs cs' : List Char}
    (h : Masked G false cs cs') (p : Pos) :
    (skipFirstBreak p cs).1 = (skipFirstBreak p cs').1 ∧
      Masked G true (skipFirstBreak p cs).2 (skipFirstBreak p cs').2 := by
  cases cs with
  | nil =>
    obtain rfl := h.eq_nil
    exact ⟨rfl, h.weaken⟩
  | cons c r =>
    obtain ⟨r', rfl, behind⟩ := h.cons_inv
    by_cases newline : c = '\n'
    · subst newline
      exact ⟨rfl, behind⟩
    by_cases carriage : c = '\r'
    · subst carriage
      by_cases break_ : r.head? = some '\n'
      · obtain ⟨r₁, r₁', rfl, rfl, further⟩ := behind.pair (by decide) break_
        exact ⟨rfl, further⟩
      · have alone {text : List Char} (other : text.head? ≠ some '\n') :
            Lexer.skipFirstBreak p ('\r' :: text) = (p.down, text) := by
          unfold Lexer.skipFirstBreak
          split <;> simp_all
        rw [alone break_, alone (behind.head?_eq ▸ break_)]
        exact ⟨rfl, behind.fresher⟩
    · have none (text : List Char) : Lexer.skipFirstBreak p (c :: text) = (p, c :: text) := by
        unfold Lexer.skipFirstBreak
        split <;> simp_all
      rw [none, none]
      exact ⟨rfl, h.weaken⟩

end Stencil.Script.Lexer
