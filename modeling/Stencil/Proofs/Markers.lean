import Stencil.Proofs.Deferral

/-!
# The grammar of content lines

A content line is a row of pieces, each a stretch of text or a marker, and it is split into the segments
of these pieces.  A line has one such row only: text goes on as far as no marker that is closed
begins, and a marker goes up to the brace that closes it.
-/

namespace Stencil

open Text

/-! ## Balanced braces -/

/-- Where a character of an expression stands. -/
inductive Quoting where
  | outside
  | inside
  | escaped
  deriving DecidableEq

def Quoting.step : Quoting → Char → Quoting
  | .outside, c => if c = '"' then .inside else .outside
  | .inside, c => if c = '\\' then .escaped else if c = '"' then .outside else .inside
  | .escaped, _ => .inside

/-- What is not inside a double-quoted string. -/
def unquoted : Quoting → List Char → List Char
  | _, [] => []
  | .outside, c :: r => c :: unquoted (Quoting.outside.step c) r
  | .inside, c :: r => unquoted (Quoting.inside.step c) r
  | .escaped, c :: r => unquoted (Quoting.escaped.step c) r

/-- As many braces are closed as opened, strings apart. -/
def Balances (span : List Char) : Prop :=
  (unquoted .outside span).count '\x7b' = (unquoted .outside span).count '\x7d'

instance (span : List Char) : Decidable (Balances span) :=
  inferInstanceAs (Decidable (_ = _))

/-- The brace behind an expression is the first to balance the one in front of it. -/
def ClosesFirst (expr : List Char) : Prop :=
  Balances ('\x7b' :: (expr ++ ['\x7d'])) ∧ ∀ front, front <+: expr → ¬ Balances ('\x7b' :: front)

namespace Nesting

def quoting : Nesting → Quoting
  | .code _ => .outside
  | .quoted _ => .inside
  | .escaped _ => .escaped

def depth : Nesting → Nat
  | .code depth | .quoted depth | .escaped depth => depth

/-- A stretch of text closes one brace more than are open inside the marker. -/
def Closes (s : Nesting) (span : List Char) : Prop :=
  (unquoted s.quoting span).count '\x7d' = (unquoted s.quoting span).count '\x7b' + s.depth + 1

theorem closes_code_iff {span : List Char} :
    (code 0).Closes span ↔ Balances ('\x7b' :: span) := by
  simp [Closes, Balances, quoting, depth, unquoted, Quoting.step, eq_comm]

theorem not_closes_nil (s : Nesting) : ¬ s.Closes [] := by
  cases s <;> simp [Closes, unquoted]

theorem closes_of_step {s : Nesting} {c : Char} (h : s.step c = none) : s.Closes [c] := by
  cases s with
  | code depth =>
    obtain rfl := eq_brace_of_step h
    cases depth with
    | zero => rfl
    | succ depth => cases h
  | quoted depth =>
    simp only [step] at h
    split_ifs at h
  | escaped depth => cases h

theorem closes_cons {s s' : Nesting} {c : Char} (h : s.step c = some s') (span : List Char) :
    s.Closes (c :: span) ↔ s'.Closes span := by
  cases s with
  | code depth =>
    simp only [step] at h
    split_ifs at h with quote opening closing
    · obtain rfl := Option.some.inj h
      simp [Closes, unquoted, quoting, Quoting.step, Nesting.depth, quote]
    · obtain rfl := Option.some.inj h
      simp [Closes, unquoted, quoting, Quoting.step, Nesting.depth, opening]
      omega
    · cases depth with
      | zero => cases h
      | succ depth =>
        obtain rfl := Option.some.inj h
        simp [Closes, unquoted, quoting, Quoting.step, Nesting.depth, closing]
        omega
    · obtain rfl := Option.some.inj h
      simp [Closes, unquoted, quoting, Quoting.step, Nesting.depth, quote, opening, closing]
  | quoted depth =>
    simp only [step] at h
    split_ifs at h with backslash quote
    all_goals
      obtain rfl := Option.some.inj h
      simp_all [Closes, unquoted, quoting, Quoting.step, Nesting.depth]
  | escaped depth =>
    obtain rfl := Option.some.inj h
    simp [Closes, unquoted, quoting, Quoting.step, Nesting.depth]

/-- The marker goes up to the first brace that closes it. -/
theorem split?_eq_some_iff {s : Nesting} {cs inside rest : List Char} :
    s.split? cs = some (inside, rest) ↔ ∃ c, cs = inside ++ c :: rest ∧ s.Closes (inside ++ [c]) ∧
      ∀ front, front <+: inside → ¬ s.Closes front := by
  induction cs generalizing s inside with
  | nil => simp [split?]
  | cons c r ih =>
    rw [split?]
    cases h : s.step c with
    | none =>
      simp only [Option.some.injEq, Prod.mk.injEq]
      constructor
      · rintro ⟨rfl, rfl⟩
        refine ⟨c, rfl, closes_of_step h, fun front hf => ?_⟩
        rw [List.prefix_nil.1 hf]
        exact not_closes_nil s
      · rintro ⟨d, eq, -, first⟩
        cases inside with
        | nil =>
          obtain ⟨rfl, rfl⟩ := List.cons.inj eq
          exact ⟨rfl, rfl⟩
        | cons e inside =>
          obtain ⟨rfl, -⟩ := List.cons.inj eq
          exact absurd (closes_of_step h) (first [c] (by simp))
    | some s' =>
      simp only [Option.map_eq_some_iff, Prod.mk.injEq, Prod.exists]
      constructor
      · rintro ⟨i, t, split, rfl, rfl⟩
        obtain ⟨d, rfl, closes, first⟩ := ih.1 split
        refine ⟨d, rfl, (closes_cons h _).2 closes, fun front hf => ?_⟩
        rcases List.prefix_cons_iff.1 hf with rfl | ⟨front, rfl, shorter⟩
        · exact not_closes_nil s
        · rw [closes_cons h]
          exact first front shorter
      · rintro ⟨d, eq, closes, first⟩
        cases inside with
        | nil =>
          obtain ⟨rfl, -⟩ := List.cons.inj eq
          exact absurd ((closes_cons h []).1 closes) (not_closes_nil s')
        | cons e inside =>
          obtain ⟨rfl, rfl⟩ := List.cons.inj eq
          refine ⟨inside, rest, ih.2 ⟨d, rfl, (closes_cons h _).1 closes, fun front hf => ?_⟩, rfl, rfl⟩
          rw [← closes_cons h]
          exact first _ (List.cons_prefix_cons.2 ⟨rfl, hf⟩)

theorem split?_eq_none_iff {s : Nesting} {cs : List Char} :
    s.split? cs = none ↔ ∀ front, front <+: cs → ¬ s.Closes front := by
  induction cs generalizing s with
  | nil => simp [split?, not_closes_nil]
  | cons c r ih =>
    rw [split?]
    cases h : s.step c with
    | none =>
      simp only [reduceCtorEq, false_iff, not_forall, not_not]
      exact ⟨[c], by simp, closes_of_step h⟩
    | some s' =>
      simp only [Option.map_eq_none_iff, ih]
      constructor
      · intro later front hf
        rcases List.prefix_cons_iff.1 hf with rfl | ⟨front, rfl, shorter⟩
        · exact not_closes_nil s
        · rw [closes_cons h]
          exact later front shorter
      · intro all front hf
        rw [← closes_cons h]
        exact all _ (List.cons_prefix_cons.2 ⟨rfl, hf⟩)

theorem split?_code_iff {cs inside rest : List Char} :
    (code 0).split? cs = some (inside, rest) ↔
      cs = inside ++ '\x7d' :: rest ∧ ClosesFirst inside := by
  constructor
  · intro h
    have eq := eq_of_split? h
    obtain ⟨c, eq', closes, first⟩ := split?_eq_some_iff.1 h
    obtain rfl : '\x7d' = c := by simpa using eq.symm.trans eq'
    exact ⟨eq, closes_code_iff.1 closes, fun front hf => mt closes_code_iff.2 (first front hf)⟩
  · rintro ⟨rfl, closes, first⟩
    exact split?_eq_some_iff.2 ⟨_, rfl, closes_code_iff.2 closes,
      fun front hf => mt closes_code_iff.1 (first front hf)⟩

end Nesting

theorem splitAtBrace?_eq_some_iff {cs inside rest : List Char} :
    splitAtBrace? cs = some (inside, rest) ↔
      cs = inside ++ '\x7d' :: rest ∧ '\x7d' ∉ inside := by
  induction cs generalizing inside with
  | nil => simp [splitAtBrace?]
  | cons c r ih =>
    rw [splitAtBrace?]
    cases inside with
    | nil =>
      by_cases brace : c = '\x7d'
      · simp [brace]
      · simp [brace]
    | cons d inside =>
      by_cases brace : c = '\x7d'
      · rw [if_pos brace]
        constructor
        · intro h
          cases (Prod.mk.inj (Option.some.inj h)).1
        · rintro ⟨eq, free⟩
          exact absurd (brace ▸ (List.cons.inj eq).1) (List.ne_of_not_mem_cons free)
      · simp only [if_neg brace, Option.map_eq_some_iff, Prod.mk.injEq, Prod.exists,
          List.cons_append, List.cons.injEq, List.mem_cons, not_or]
        constructor
        · rintro ⟨i, t, split, ⟨rfl, rfl⟩, rfl⟩
          obtain ⟨rfl, free⟩ := ih.1 split
          exact ⟨⟨rfl, rfl⟩, Ne.symm brace, free⟩
        · rintro ⟨⟨rfl, rfl⟩, -, free⟩
          exact ⟨inside, rest, ih.2 ⟨rfl, free⟩, ⟨rfl, rfl⟩, rfl⟩

theorem splitAtBrace?_eq_none_iff {cs : List Char} : splitAtBrace? cs = none ↔ '\x7d' ∉ cs := by
  induction cs with
  | nil => simp [splitAtBrace?]
  | cons c r ih =>
    rw [splitAtBrace?]
    split_ifs with brace
    · simp [brace]
    · simp [ih, Ne.symm brace]

/-- A text begins with a marker that is closed somewhere later. -/
def OpensMarker (cs : List Char) : Prop :=
  (∃ rest, cs = '$' :: '$' :: '\x7b' :: rest ∧ '\x7d' ∈ rest) ∨
    ∃ rest, cs = '$' :: '\x7b' :: rest ∧ ∃ front, front <+: rest ∧ Balances ('\x7b' :: front)

theorem marker?_eq_none_iff {cs : List Char} : marker? cs = none ↔ ¬ OpensMarker cs := by
  unfold marker?
  split
  case h_1 rest => simp [OpensMarker, splitAtBrace?_eq_none_iff]
  case h_2 rest => simp [OpensMarker, Nesting.split?_eq_none_iff, Nesting.closes_code_iff]
  case h_3 always emitted =>
    simp only [true_iff]
    rintro (⟨rest, rfl, -⟩ | ⟨rest, rfl, -⟩)
    · exact always rest rfl
    · exact emitted rest rfl

/-! ## Pieces -/

/-- A stretch of a content line that makes one segment. -/
inductive Piece where
  | verbatim (text : List Char)
  /-- A marker around nothing but white space. -/
  | collapsed (always : Bool) (space : List Char)
  | generation (expr : List Char)
  | emission (expr : List Char)

namespace Piece

def source : Piece → List Char
  | .verbatim text => text
  | .collapsed always space =>
    (if always then ['$', '$'] else ['$']) ++ ('\x7b' :: (space ++ ['\x7d']))
  | .generation expr => '$' :: '$' :: '\x7b' :: (expr ++ ['\x7d'])
  | .emission expr => '$' :: '\x7b' :: (expr ++ ['\x7d'])

def segment : Piece → Segment
  | .verbatim text => .text (String.ofList text)
  | .collapsed _ space => .text (String.ofList ('\x7b' :: (space ++ ['\x7d'])))
  | .generation expr => .generation (String.ofList expr)
  | .emission expr => .emission (String.ofList expr)

def IsWellFormed : Piece → Prop
  | .verbatim text => text ≠ []
  | .collapsed _ space => space.all isBlank = true
  | .generation expr => expr.all isBlank = false ∧ '\x7d' ∉ expr
  | .emission expr => expr.all isBlank = false ∧ ClosesFirst expr

def IsVerbatim : Piece → Prop
  | .verbatim _ => True
  | _ => False

end Piece

/-- The piece of a marker. -/
def Marker.piece (m : Marker) : Piece :=
  if m.inside.all isBlank then .collapsed m.always m.inside
  else if m.always then .generation m.inside
  else .emission m.inside

theorem Marker.segment_piece (m : Marker) : m.piece.segment = m.segment := by
  unfold piece segment
  split_ifs <;> rfl

theorem Marker.source_piece (m : Marker) : m.piece.source = m.source := by
  unfold piece source
  split_ifs <;> simp_all [Piece.source]

theorem ne_of_isBlank {c : Char} (h : isBlank c = true) : c ≠ '"' ∧ c ≠ '\x7b' ∧ c ≠ '\x7d' := by
  refine ⟨?_, ?_, ?_⟩ <;> (rintro rfl; cases h)

/-- The braces of a marker close as its kind has it, also around white space. -/
theorem Marker.isWellFormed_piece_iff (m : Marker) :
    m.piece.IsWellFormed ↔ if m.always then '\x7d' ∉ m.inside else ClosesFirst m.inside := by
  unfold piece
  split_ifs with blank always always
  · have free : '\x7d' ∉ m.inside := fun mem =>
      (ne_of_isBlank (List.all_eq_true.1 blank _ mem)).2.2 rfl
    simp only [Piece.IsWellFormed, blank, free, not_false_eq_true]
  · have closes : ClosesFirst m.inside :=
      (Nesting.split?_code_iff.1 (Nesting.split?_code
        (fun c mem => ne_of_isBlank (List.all_eq_true.1 blank c mem)) [])).2
    simp only [Piece.IsWellFormed, blank, closes]
  · simp [Piece.IsWellFormed, blank]
  · simp [Piece.IsWellFormed, blank]

theorem marker?_eq_some_iff {cs rest : List Char} {m : Marker} :
    marker? cs = some (m, rest) ↔ cs = m.piece.source ++ rest ∧ m.piece.IsWellFormed := by
  rw [m.source_piece, m.isWellFormed_piece_iff]
  constructor
  · intro h
    refine ⟨eq_of_marker? h, ?_⟩
    unfold marker? at h
    split at h
    case h_1 =>
      simp only [Option.map_eq_some_iff, Prod.mk.injEq, Prod.exists] at h
      obtain ⟨inside, rest, split, rfl, rfl⟩ := h
      exact (splitAtBrace?_eq_some_iff.1 split).2
    case h_2 =>
      simp only [Option.map_eq_some_iff, Prod.mk.injEq, Prod.exists] at h
      obtain ⟨inside, rest, split, rfl, rfl⟩ := h
      exact (Nesting.split?_code_iff.1 split).2
    case h_3 => cases h
  · obtain ⟨always, inside⟩ := m
    rintro ⟨rfl, closes⟩
    cases always with
    | true => simp [Marker.source, marker?, splitAtBrace?_eq_some_iff.2 ⟨rfl, closes⟩]
    | false =>
      simp [Marker.source, marker?, Nesting.split?_code_iff.2 ⟨rfl, closes⟩]

theorem Piece.exists_piece_eq {p : Piece} (h : p.IsWellFormed) (marked : ¬ p.IsVerbatim) :
    ∃ m : Marker, m.piece = p := by
  cases p with
  | verbatim text => exact absurd trivial marked
  | collapsed always space => exact ⟨⟨always, space⟩, if_pos h⟩
  | generation expr => exact ⟨⟨true, expr⟩, by simp [Marker.piece, h.1]⟩
  | emission expr => exact ⟨⟨false, expr⟩, by simp [Marker.piece, h.1]⟩

/-! ## Rows of pieces -/

/-- A row of pieces that makes up a line. -/
structure Parse (line : List Char) (pieces : List Piece) : Prop where
  whole : pieces.flatMap Piece.source = line
  wellFormed : ∀ p ∈ pieces, p.IsWellFormed
  /-- No marker of the line begins inside of a stretch of text. -/
  plain : ∀ before text after, pieces = before ++ .verbatim text :: after →
    ∀ front back, text = front ++ back → back ≠ [] →
      ¬ OpensMarker (back ++ after.flatMap Piece.source)
  apart : ∀ before text text' after,
    pieces ≠ before ++ .verbatim text :: .verbatim text' :: after

namespace Parse

theorem nil : Parse [] [] where
  whole := rfl
  wellFormed := by simp
  plain := by simp
  apart := by simp

variable {line : List Char} {pieces : List Piece} {p : Piece}

theorem cons (h : Parse line pieces) (wf : p.IsWellFormed)
    (plain : ∀ text, p = .verbatim text → ∀ front back, text = front ++ back → back ≠ [] →
      ¬ OpensMarker (back ++ line))
    (apart : p.IsVerbatim → ∀ next ∈ pieces.head?, ¬ next.IsVerbatim) :
    Parse (p.source ++ line) (p :: pieces) where
  whole := by rw [List.flatMap_cons, h.whole]
  wellFormed := List.forall_mem_cons.2 ⟨wf, h.wellFormed⟩
  plain before text after eq := by
    cases before with
    | nil =>
      obtain ⟨rfl, rfl⟩ := List.cons.inj eq
      rw [h.whole]
      exact plain text rfl
    | cons first before =>
      obtain ⟨rfl, rfl⟩ := List.cons.inj eq
      exact h.plain before text after rfl
  apart before text text' after eq := by
    cases before with
    | nil =>
      obtain ⟨rfl, rfl⟩ := List.cons.inj eq
      exact apart trivial _ rfl trivial
    | cons first before =>
      obtain ⟨rfl, rfl⟩ := List.cons.inj eq
      exact h.apart before text text' after rfl

theorem tail (h : Parse line (p :: pieces)) : Parse (pieces.flatMap Piece.source) pieces where
  whole := rfl
  wellFormed q hq := h.wellFormed q (List.mem_cons_of_mem p hq)
  plain before text after eq := h.plain (p :: before) text after (by rw [eq, List.cons_append])
  apart before text text' after eq :=
    h.apart (p :: before) text text' after (by rw [eq, List.cons_append])

end Parse

namespace Segment

/-- Literal text is read character by character as long as no marker begins in it. -/
theorem scan_append {text rest : List Char}
    (plain : ∀ front back, text = front ++ back → back ≠ [] → ¬ OpensMarker (back ++ rest))
    (pending : List Char) : scan pending (text ++ rest) = scan (text.reverse ++ pending) rest := by
  induction text generalizing pending with
  | nil => rfl
  | cons c text ih =>
    have closed : marker? (c :: (text ++ rest)) = none :=
      marker?_eq_none_iff.2 (plain [] (c :: text) rfl (by simp))
    rw [List.cons_append, scan_plain closed, ih fun front back eq => plain (c :: front) back (by simp [eq])]
    simp

theorem scan_of_marker? {cs rest : List Char} {m : Marker} (h : marker? cs = some (m, rest))
    (pending : List Char) : scan pending cs = ofPending pending ++ m.segment :: scan [] rest := by
  cases cs with
  | nil => cases h
  | cons c r => exact scan_marker h

/-- Text ends where the line does or a marker begins. -/
theorem scan_pending {rest : List Char} (ends : rest = [] ∨ OpensMarker rest)
    (pending : List Char) : scan pending rest = ofPending pending ++ scan [] rest := by
  rcases ends with rfl | opens
  · simp [scan_nil, ofPending]
  · obtain ⟨⟨m, rest⟩, found⟩ := Option.ne_none_iff_exists'.1 (mt marker?_eq_none_iff.1 (not_not.2 opens))
    rw [scan_of_marker? found, scan_of_marker? found]
    rfl

end Segment

namespace Parse

variable {line : List Char} {pieces : List Piece} {p : Piece}

theorem found (h : Parse line (p :: pieces)) (marked : ¬ p.IsVerbatim) :
    ∃ m : Marker, m.segment = p.segment ∧
      marker? line = some (m, pieces.flatMap Piece.source) := by
  have wf := h.wellFormed p List.mem_cons_self
  obtain ⟨m, rfl⟩ := Piece.exists_piece_eq wf marked
  exact ⟨m, m.segment_piece.symm, marker?_eq_some_iff.2 ⟨h.whole.symm, wf⟩⟩

/-- What follows a stretch of text is nothing, or a marker. -/
theorem ends_of_verbatim {text : List Char} (h : Parse line (.verbatim text :: pieces)) :
    pieces.flatMap Piece.source = [] ∨ OpensMarker (pieces.flatMap Piece.source) := by
  cases pieces with
  | nil => exact .inl rfl
  | cons next pieces =>
    have marked : ¬ next.IsVerbatim := by
      cases next with
      | verbatim text' => exact (h.apart [] text text' pieces rfl).elim
      | collapsed | generation | emission => exact id
    obtain ⟨m, -, found⟩ := h.tail.found marked
    refine .inr (not_not.1 (mt marker?_eq_none_iff.2 ?_))
    rw [found]
    exact Option.some_ne_none _

/-- Every row of pieces that makes up a line is the one that the line is split into. -/
theorem scan_eq (h : Parse line pieces) : Segment.scan [] line = pieces.map Piece.segment := by
  induction pieces generalizing line with
  | nil =>
    rw [← h.whole, List.flatMap_nil, Segment.scan_nil, List.map_nil, Segment.ofPending]
  | cons p pieces ih =>
    by_cases verbatim : p.IsVerbatim
    · cases p with
      | verbatim text =>
        have filled : text.reverse ≠ [] :=
          mt List.reverse_eq_nil_iff.1 (h.wellFormed (.verbatim text) List.mem_cons_self)
        have plain := Segment.scan_append (h.plain [] text pieces rfl) []
        rw [List.append_nil, Segment.scan_pending h.ends_of_verbatim, ih h.tail] at plain
        rw [← h.whole]
        refine plain.trans ?_
        rw [Segment.ofPending, List.reverse_reverse, List.map_cons]
        · rfl
        · exact filled
      | collapsed | generation | emission => exact verbatim.elim
    · obtain ⟨m, same, found⟩ := h.found verbatim
      rw [Segment.scan_of_marker? found, ih h.tail, same]
      rfl

end Parse

/-- The piece of a stretch of literal text, given in reverse; none if it is empty. -/
def Piece.ofPending : List Char → List Piece
  | [] => []
  | pending => [.verbatim pending.reverse]

theorem Parse.ofPending {pending rest : List Char} {pieces : List Piece} (h : Parse rest pieces)
    (plain : ∀ front back, pending.reverse = front ++ back → back ≠ [] → ¬ OpensMarker (back ++ rest))
    (marked : ∀ next ∈ pieces.head?, ¬ next.IsVerbatim) :
    Parse (pending.reverse ++ rest) (Piece.ofPending pending ++ pieces) ∧
      (Piece.ofPending pending).map Piece.segment = Segment.ofPending pending := by
  cases pending with
  | nil => exact ⟨h, rfl⟩
  | cons c pending =>
    refine ⟨h.cons (p := .verbatim (c :: pending).reverse) (by simp [Piece.IsWellFormed]) ?_
      fun _ => marked, rfl⟩
    rintro text ⟨rfl⟩
    exact plain

/-- The scan finds the pieces of a line. -/
theorem Segment.exists_parse (pending cs : List Char)
    (plain : ∀ front back, pending.reverse = front ++ back → back ≠ [] → ¬ OpensMarker (back ++ cs)) :
    ∃ pieces, Parse (pending.reverse ++ cs) pieces ∧ scan pending cs = pieces.map Piece.segment := by
  induction pending, cs using scan.induct with
  | case1 pending =>
    obtain ⟨parse, same⟩ := Parse.nil.ofPending plain (by simp)
    exact ⟨_, parse, by rw [scan_nil, List.append_nil, same]⟩
  | case2 pending c r m rest found ih =>
    obtain ⟨pieces, parse, same⟩ := ih (by simp)
    obtain ⟨eq, wf⟩ := marker?_eq_some_iff.1 found
    have marked : ¬ m.piece.IsVerbatim := by
      unfold Marker.piece
      split_ifs <;> exact id
    have parse : Parse (c :: r) (m.piece :: pieces) := by
      rw [eq]
      refine parse.cons wf (fun text verbatim => ?_) fun verbatim => absurd verbatim marked
      rw [verbatim] at marked
      exact absurd trivial marked
    obtain ⟨parse, pending_same⟩ := parse.ofPending plain (by simpa using marked)
    refine ⟨_, parse, ?_⟩
    rw [scan_of_marker? found, same, List.map_append, List.map_cons, pending_same, m.segment_piece]
  | case3 pending c r closed ih =>
    have later (front back : List Char) (eq : (c :: pending).reverse = front ++ back)
        (filled : back ≠ []) : ¬ OpensMarker (back ++ r) := by
      obtain ⟨back, d, rfl⟩ := (List.eq_nil_or_concat' back).resolve_left filled
      rw [List.reverse_cons, ← List.append_assoc] at eq
      obtain ⟨initial, last⟩ := List.append_inj' eq rfl
      obtain rfl : c = d := List.singleton_inj.1 last
      rw [List.append_assoc, List.singleton_append]
      by_cases empty : back = []
      · rw [empty]
        exact marker?_eq_none_iff.1 closed
      · exact plain front back initial empty
    obtain ⟨pieces, parse, same⟩ := ih later
    refine ⟨pieces, by simpa using parse, ?_⟩
    rw [scan_plain closed, same]

/--
The segments of a line are those of the pieces that make it up: there is such a row of pieces, and
every such row gives these segments.
-/
theorem segments_grammar (line : String) :
    (∃ pieces, Parse line.toList pieces) ∧
      ∀ pieces, Parse line.toList pieces → segments line = pieces.map Piece.segment := by
  obtain ⟨pieces, parse, -⟩ := Segment.exists_parse [] line.toList (by simp)
  exact ⟨⟨pieces, parse⟩, fun _ parse => parse.scan_eq⟩

end Stencil
