import Stencil.Proofs.Content

/-!
# Two passes over a document

A deferred pass leaves `${…}` in its text for a later pass.  Where there is no other dollar sign in
this text, the later pass finds exactly these substitutions again, however the values beside them
cut the text into lines.  Two passes therefore give what one resolved pass gives.
-/

namespace Stencil

open Script
open Script.Lexer (IsVariable)
open Script.Lexer.Lexes (isBlank_eq_false_of_isNameStart)

/-- The smallest parts of a document: its characters and its substitutions. -/
inductive Atom where
  | char (c : Char)
  | generation (expr : String)
  | emission (expr : String)
  deriving DecidableEq, Repr

namespace Atom

def expr? : Atom → Option String
  | .char _ => none
  | .generation expr | .emission expr => some expr

/-- The text of an atom, if `value` gives the texts of the expressions that are evaluated. -/
def rendered (deferred : Bool) (value : String → String) : Atom → List Char
  | .char c => [c]
  | .generation expr => (value expr).toList
  | .emission expr =>
    if deferred then '$' :: '\x7b' :: (expr.toList ++ ['\x7d']) else (value expr).toList

/-- What a deferred pass leaves of an atom. -/
def left (value : String → String) : Atom → List Atom
  | .generation expr => (value expr).toList.map .char
  | a => [a]

/-- A second pass finds in the text of an atom what a deferred pass has left of it. -/
def IsClean (value : String → String) : Atom → Prop
  | .char c => c ≠ '$'
  | .generation expr => '$' ∉ (value expr).toList
  | .emission expr => OneLine expr ∧ IsVariable (Text.trim expr)

theorem flatMap_rendered_char (deferred : Bool) (value : String → String) (cs : List Char) :
    (cs.map Atom.char).flatMap (rendered deferred value) = cs := by
  induction cs with
  | nil => rfl
  | cons c rest ih => rw [List.map_cons, List.flatMap_cons, ih, rendered, List.singleton_append]

/-- A resolved pass gives the same for an atom and for what a deferred pass leaves of it. -/
theorem rendered_left (value : String → String) (a : Atom) :
    (a.left value).flatMap (rendered false value) = a.rendered false value := by
  cases a with
  | char c => rfl
  | generation expr => exact flatMap_rendered_char false value _
  | emission expr => exact List.append_nil _

theorem flatMap_rendered_left (value : String → String) (row : List Atom) :
    (row.flatMap (left value)).flatMap (rendered false value) =
      row.flatMap (rendered false value) := by
  rw [List.flatMap_assoc]
  congr 1
  funext a
  exact rendered_left value a

theorem mem_of_mem_left {value : String → String} {a other : Atom} {expr : String}
    (h : other ∈ a.left value) (he : other.expr? = some expr) : other = a := by
  cases a with
  | char c => exact List.mem_singleton.1 h
  | generation e =>
    obtain ⟨c, -, rfl⟩ := List.mem_map.1 h
    simp [expr?] at he
  | emission e => exact List.mem_singleton.1 h

end Atom

/-! ## Atoms of a line -/

namespace Nesting

theorem split?_code {inside : List Char} (h : ∀ c ∈ inside, c ≠ '"' ∧ c ≠ '\x7b' ∧ c ≠ '\x7d')
    (rest : List Char) :
    (Nesting.code 0).split? (inside ++ '\x7d' :: rest) = some (inside, rest) := by
  induction inside with
  | nil => rfl
  | cons c more ih =>
    obtain ⟨quote, opening, closing⟩ := h c List.mem_cons_self
    have later := ih fun d hd => h d (List.mem_cons_of_mem c hd)
    simp [split?, step, quote, opening, closing, later]

end Nesting

namespace Segment

def atoms : Segment → List Atom
  | .text t => t.toList.map .char
  | .generation expr => [.generation expr]
  | .emission expr => [.emission expr]

def atomsOf (cs : List Char) : List Atom := (scan [] cs).flatMap atoms

/-- Neither literal text nor a value brings a dollar sign into the text of a deferred pass. -/
def IsClean (value : String → String) : Segment → Prop
  | .text t => '$' ∉ t.toList
  | .generation expr => '$' ∉ (value expr).toList
  | .emission _ => True

instance (value : String → String) : (s : Segment) → Decidable (s.IsClean value)
  | .text t => inferInstanceAs (Decidable ('$' ∉ t.toList))
  | .generation expr => inferInstanceAs (Decidable ('$' ∉ (value expr).toList))
  | .emission _ => inferInstanceAs (Decidable True)

theorem scan_nil (pending : List Char) : scan pending [] = ofPending pending := by
  rw [scan]

theorem scan_marker {pending r rest : List Char} {c : Char} {m : Marker}
    (h : marker? (c :: r) = some (m, rest)) :
    scan pending (c :: r) = ofPending pending ++ m.segment :: scan [] rest := by
  rw [scan]
  split
  · simp_all
  · simp_all

theorem scan_plain {pending r : List Char} {c : Char} (h : marker? (c :: r) = none) :
    scan pending (c :: r) = scan (c :: pending) r := by
  rw [scan]
  split
  · simp_all
  · rfl

theorem atoms_ofPending (pending : List Char) :
    (ofPending pending).flatMap atoms = pending.reverse.map .char := by
  cases pending with
  | nil => rfl
  | cons c more => simp [ofPending, atoms]

/-- Literal text in front of the scan stays in front, each character for itself. -/
theorem atoms_scan (pending cs : List Char) :
    (scan pending cs).flatMap atoms = pending.reverse.map .char ++ atomsOf cs := by
  induction cs generalizing pending with
  | nil =>
    rw [atomsOf, scan_nil, scan_nil, atoms_ofPending]
    simp [ofPending]
  | cons c r ih =>
    cases hm : marker? (c :: r) with
    | some found =>
      obtain ⟨m, rest⟩ := found
      rw [atomsOf, scan_marker hm, scan_marker hm, List.flatMap_append, atoms_ofPending]
      rfl
    | none =>
      rw [atomsOf, scan_plain hm, scan_plain hm, ih, ih]
      simp

theorem atomsOf_cons {c : Char} (h : c ≠ '$') (r : List Char) :
    atomsOf (c :: r) = .char c :: atomsOf r := by
  have plain : marker? (c :: r) = none := by
    unfold marker?
    split <;> simp_all
  rw [atomsOf, scan_plain plain, atoms_scan]
  rfl

/-- Around a name there is only white space, so that the first brace closes the marker. -/
theorem ne_of_mem_expr {expr : String} (h : IsVariable (Text.trim expr)) {c : Char}
    (hc : c ∈ expr.toList) : c ≠ '"' ∧ c ≠ '\x7b' ∧ c ≠ '\x7d' := by
  obtain ⟨before, after, hb, ha, eq⟩ := Text.exists_trim expr
  have blank {d : Char} (hd : Text.isBlank d = true) : d ≠ '"' ∧ d ≠ '\x7b' ∧ d ≠ '\x7d' := by
    refine ⟨?_, ?_, ?_⟩ <;> rintro rfl <;> exact absurd hd (by decide)
  have part {d : Char} (hd : isNamePart d = true) : d ≠ '"' ∧ d ≠ '\x7b' ∧ d ≠ '\x7d' := by
    refine ⟨?_, ?_, ?_⟩ <;> rintro rfl <;> exact absurd hd (by decide)
  rw [eq, List.mem_append, List.mem_append] at hc
  rcases hc with hc | hc | hc
  · exact blank (List.all_eq_true.1 hb c hc)
  · exact part (List.all_eq_true.1 h.parts c hc)
  · exact blank (List.all_eq_true.1 ha c hc)

theorem not_all_isBlank {expr : String} (h : IsVariable (Text.trim expr)) :
    expr.toList.all Text.isBlank = false := by
  obtain ⟨before, after, -, -, eq⟩ := Text.exists_trim expr
  have start := h.start
  cases name : (Text.trim expr).toList with
  | nil => simp [name] at start
  | cons c more =>
    have first : isNameStart c = true := by simpa [name] using start
    have visible := isBlank_eq_false_of_isNameStart first
    rw [eq, name]
    simp [visible]

/-- Where no brace or quote is inside, the first brace closes the marker. -/
theorem marker?_emission {expr : String}
    (plain : ∀ c ∈ expr.toList, c ≠ '"' ∧ c ≠ '\x7b' ∧ c ≠ '\x7d') (r : List Char) :
    marker? ('$' :: '\x7b' :: (expr.toList ++ '\x7d' :: r)) = some (⟨false, expr.toList⟩, r) := by
  rw [marker?, Nesting.split?_code plain]
  rfl

theorem segment_emission {expr : String} (visible : expr.toList.all Text.isBlank = false) :
    (⟨false, expr.toList⟩ : Marker).segment = .emission expr := by
  simp [Marker.segment, visible]

/-- A copied substitution of a name is found again. -/
theorem atomsOf_emission {expr : String} (h : IsVariable (Text.trim expr)) (r : List Char) :
    atomsOf ('$' :: '\x7b' :: (expr.toList ++ ['\x7d']) ++ r) = .emission expr :: atomsOf r := by
  have text : '$' :: '\x7b' :: (expr.toList ++ ['\x7d']) ++ r =
      '$' :: '\x7b' :: (expr.toList ++ '\x7d' :: r) := by
    simp
  rw [text, atomsOf, scan_marker (marker?_emission (fun c hc => ne_of_mem_expr h hc) r),
    segment_emission (not_all_isBlank h)]
  rfl

theorem flatMap_rendered (deferred : Bool) (value : String → String) (row : List Segment) :
    (row.flatMap atoms).flatMap (Atom.rendered deferred value) =
      (String.join (row.map (Segment.rendered deferred value))).toList := by
  have one (s : Segment) :
      s.atoms.flatMap (Atom.rendered deferred value) = (s.rendered deferred value).toList := by
    cases s with
    | text t => exact Atom.flatMap_rendered_char deferred value t.toList
    | generation expr => exact List.append_nil _
    | emission expr => cases deferred <;> simp [atoms, Atom.rendered, Segment.rendered]
  rw [List.flatMap_assoc, String.toList_join, List.flatMap_map]
  congr 1
  funext s
  exact one s

theorem exprs_atoms (row : List Segment) :
    (row.flatMap atoms).filterMap Atom.expr? = row.filterMap Segment.expr? := by
  induction row with
  | nil => rfl
  | cons s rest ih =>
    rw [List.flatMap_cons, List.filterMap_append, ih]
    cases s with
    | text t =>
      have none_here : (t.toList.map Atom.char).filterMap Atom.expr? = [] := by
        simp [Atom.expr?]
      rw [atoms, none_here]
      rfl
    | generation expr => rfl
    | emission expr => rfl

end Segment

/-! ## Atoms of a document -/

namespace Document

def ending (terminated : Bool) : List Atom := if terminated then [.char '\n'] else []

def atoms (document : Document) : List Atom :=
  document.lines.flatMap fun line => Segment.atomsOf line.text.toList ++ ending line.terminated

/-- The atoms of a text, whatever document it is the text of. -/
def atomsOf (cs : List Char) : List Atom :=
  [Atom.char '\n'].intercalate ((pieces cs).map Segment.atomsOf)

theorem atoms_eq (document : Document) : document.atoms = atomsOf document.text.toList :=
  flatMap_number Segment.atomsOf (.char '\n') document.path 1 _

/-- What one line makes of its beginning, the text makes of it too. -/
theorem atomsOf_append {front : List Char} {row : List Atom} (one : '\n' ∉ front)
    (h : ∀ r, Segment.atomsOf (front ++ r) = row ++ Segment.atomsOf r) (cs : List Char) :
    atomsOf (front ++ cs) = row ++ atomsOf cs := by
  obtain ⟨piece, rest, split⟩ := List.exists_cons_of_ne_nil (pieces_ne_nil cs)
  have joined : pieces (front ++ cs) = (front ++ piece) :: rest := by
    clear h
    induction front with
    | nil => exact split
    | cons c more ih =>
      simp only [List.mem_cons, not_or] at one
      rw [List.cons_append, pieces, if_neg (Ne.symm one.1), ih one.2]
      rfl
  rw [atomsOf, atomsOf, joined, split, List.map_cons, List.map_cons, h]
  cases rest <;> simp [List.intercalate]

theorem atomsOf_nil : atomsOf [] = [] := by
  rw [atomsOf, pieces, List.map_singleton, Segment.atomsOf, Segment.scan_nil]
  rfl

theorem atomsOf_cons {c : Char} (h : c ≠ '$') (cs : List Char) :
    atomsOf (c :: cs) = .char c :: atomsOf cs := by
  by_cases newline : c = '\n'
  · subst newline
    obtain ⟨piece, rest, split⟩ := List.exists_cons_of_ne_nil (pieces_ne_nil cs)
    rw [atomsOf, atomsOf, pieces, if_pos rfl, split]
    simp [Segment.atomsOf, Segment.scan_nil, Segment.ofPending, List.intercalate]
  · exact @atomsOf_append [c] [.char c] (by simpa using Ne.symm newline)
      (fun r => Segment.atomsOf_cons h r) cs

theorem atomsOf_plain {front : List Char} (h : '$' ∉ front) (cs : List Char) :
    atomsOf (front ++ cs) = front.map .char ++ atomsOf cs := by
  induction front with
  | nil => rfl
  | cons c more ih =>
    simp only [List.mem_cons, not_or] at h
    rw [List.cons_append, atomsOf_cons (Ne.symm h.1), ih h.2]
    rfl

/-- A second pass reads what the first pass has left. -/
theorem atomsOf_rendered {value : String → String} {row : List Atom}
    (clean : ∀ a ∈ row, a.IsClean value) :
    atomsOf (row.flatMap (Atom.rendered true value)) = row.flatMap (Atom.left value) := by
  induction row with
  | nil => exact atomsOf_nil
  | cons a rest ih =>
    rw [List.flatMap_cons, List.flatMap_cons,
      ← ih fun other ho => clean other (List.mem_cons_of_mem a ho)]
    have clean_a := clean a List.mem_cons_self
    cases a with
    | char c => exact atomsOf_cons clean_a _
    | generation expr => exact atomsOf_plain clean_a _
    | emission expr =>
      obtain ⟨one, name⟩ := clean_a
      refine atomsOf_append ?_ (fun r => Segment.atomsOf_emission name r) _
      unfold OneLine at one
      simp [Atom.rendered, one]

theorem rendered_eq (deferred : Bool) (spec : Spec) (document : Document) :
    (document.rendered deferred spec).toList =
      document.atoms.flatMap (Atom.rendered deferred (Names.shown spec.get?)) := by
  rw [rendered, String.toList_join, atoms, List.flatMap_assoc, List.flatMap_map]
  congr 1
  funext line
  rw [List.flatMap_append, Segment.atomsOf, Segment.flatMap_rendered, Encoding.rendered,
    String.toList_append]
  congr 1
  cases line.terminated <;> rfl

/-! ## Substitutions of a document -/

def exprs (document : Document) : List String :=
  document.lines.flatMap fun line => (segments line.text).filterMap Segment.expr?

theorem exprs_eq (document : Document) : document.exprs = document.atoms.filterMap Atom.expr? := by
  rw [exprs, atoms, List.filterMap_flatMap]
  congr 1
  funext line
  rw [List.filterMap_append, Segment.atomsOf, Segment.exprs_atoms]
  cases line.terminated <;> simp [ending, Atom.expr?, segments]

theorem isUsable_of_mem_exprs {document : Document} {expr : String}
    (bare : ∀ line ∈ document.lines, Encoding.IsBare line.text) (h : expr ∈ document.exprs) :
    IsUsable (Text.trim expr) := by
  obtain ⟨line, hl, he⟩ := List.mem_flatMap.1 h
  exact bare line hl expr he

theorem isBare_of_exprs {document : Document}
    (usable : ∀ expr ∈ document.exprs, IsUsable (Text.trim expr)) :
    ∀ line ∈ document.lines, Encoding.IsBare line.text := by
  intro line hl expr he
  exact usable expr (List.mem_flatMap.2 ⟨line, hl, he⟩)

theorem undefined_eq_nil {document : Document} {spec : Spec} (deferred : Bool)
    (defined : ∀ expr ∈ document.exprs, spec.has (Text.trim expr) = true) :
    document.undefined deferred spec = [] := by
  have none_missed :
      (document.lines.flatMap fun line => Encoding.evaluated deferred line.text).filter
        (fun name => !spec.has name) = [] := by
    rw [List.filter_eq_nil_iff]
    intro name hn
    obtain ⟨line, hl, hn⟩ := List.mem_flatMap.1 hn
    obtain ⟨expr, he, rfl⟩ := Encoding.exists_expr_of_mem_evaluated hn
    simpa using defined expr (List.mem_flatMap.2 ⟨line, hl, he⟩)
  rw [undefined, none_missed, List.eraseDups_nil]

/--
No dollar sign comes into the text of a deferred pass from literal text or from a value, so that it
has none but those of `${…}`.
-/
def IsClean (spec : Spec) (document : Document) : Prop :=
  ∀ line ∈ document.lines, ∀ s ∈ segments line.text, s.IsClean (Names.shown spec.get?)

instance (spec : Spec) (document : Document) : Decidable (document.IsClean spec) :=
  inferInstanceAs (Decidable (∀ line ∈ document.lines, ∀ s ∈ segments line.text,
    s.IsClean (Names.shown spec.get?)))

section

variable {document : Document} {spec : Spec}

theorem isClean_of_mem_atoms (clean : document.IsClean spec)
    (bare : ∀ line ∈ document.lines, Encoding.IsBare line.text) :
    ∀ a ∈ document.atoms, a.IsClean (Names.shown spec.get?) := by
  intro a ha
  obtain ⟨line, hl, ha⟩ := List.mem_flatMap.1 ha
  rcases List.mem_append.1 ha with ha | ha
  · obtain ⟨s, hs, ha⟩ := List.mem_flatMap.1 ha
    cases s with
    | text t =>
      obtain ⟨c, hc, rfl⟩ := List.mem_map.1 ha
      rintro rfl
      exact clean line hl _ hs hc
    | generation expr =>
      obtain rfl := List.mem_singleton.1 ha
      exact clean line hl _ hs
    | emission expr =>
      obtain rfl := List.mem_singleton.1 ha
      have name := bare line hl expr (List.mem_filterMap.2 ⟨_, hs, rfl⟩)
      exact ⟨Segment.oneLine_expr (oneLine_of_mem_lines hl) hs rfl, name.toIsVariable⟩
  · cases terminated : line.terminated with
    | false => simp [ending, terminated] at ha
    | true =>
      simp only [ending, terminated, if_true, List.mem_singleton] at ha
      subst ha
      change '\n' ≠ '$'
      decide

variable (clean : document.IsClean spec)
  (bare : ∀ line ∈ document.lines, Encoding.IsBare line.text)

include clean bare

theorem atoms_left (path : Path) :
    atoms ⟨path, document.rendered true spec⟩ =
      document.atoms.flatMap (Atom.left (Names.shown spec.get?)) := by
  rw [atoms_eq, rendered_eq, atomsOf_rendered (isClean_of_mem_atoms clean bare)]

theorem rendered_left (path : Path) :
    rendered false spec ⟨path, document.rendered true spec⟩ = document.rendered false spec := by
  apply String.toList_inj.1
  rw [rendered_eq, atoms_left clean bare, Atom.flatMap_rendered_left, rendered_eq]

theorem exprs_left {path : Path} {expr : String}
    (h : expr ∈ exprs ⟨path, document.rendered true spec⟩) : expr ∈ document.exprs := by
  rw [exprs_eq, atoms_left clean bare] at h
  obtain ⟨other, ho, he⟩ := List.mem_filterMap.1 h
  obtain ⟨a, ha, ho⟩ := List.mem_flatMap.1 ho
  rw [Atom.mem_of_mem_left ho he] at he
  rw [exprs_eq]
  exact List.mem_filterMap.2 ⟨a, ha, he⟩

end

end Document

/-! ## Runs of two passes -/

namespace Emitter

section

variable {document : Document} {spec : Spec}

theorem run_defined (tree : FileTree) (maxAttempts : Nat)
    (quiet : HasQuietOpening document.path)
    (content : ∀ line ∈ document.lines, (Line.classify line.text).isContent = true)
    (bare : ∀ line ∈ document.lines, Encoding.IsBare line.text)
    (defined : ∀ expr ∈ document.exprs, spec.has (Text.trim expr) = true) :
    ∃ emitter, compile tree spec none false document = .ok emitter ∧ ∀ deferred,
      emitter.run ⟨maxAttempts, deferred, 0⟩ spec =
        (.ok ⟨document.rendered deferred spec, [], 1⟩, spec) := by
  have runs (deferred : Bool) := run_content tree spec maxAttempts deferred quiet content bare
  obtain ⟨emitter, compiled, -⟩ := runs false
  refine ⟨emitter, compiled, fun deferred => ?_⟩
  obtain ⟨other, compiled', run⟩ := runs deferred
  obtain rfl : emitter = other := by simpa [compiled] using compiled'
  rw [run, Document.undefined_eq_nil deferred defined]
  rfl

/--
A deferred pass over a document without directives leaves a text whose resolved pass gives what one
resolved pass over the document gives.
-/
theorem run_deferred_resolved (tree : FileTree) (maxAttempts : Nat)
    (quiet : HasQuietOpening document.path)
    (content : ∀ line ∈ document.lines, (Line.classify line.text).isContent = true)
    (bare : ∀ line ∈ document.lines, Encoding.IsBare line.text)
    (defined : ∀ expr ∈ document.exprs, spec.has (Text.trim expr) = true)
    (clean : document.IsClean spec)
    (content_left : ∀ line ∈ Document.lines ⟨document.path, document.rendered true spec⟩,
      (Line.classify line.text).isContent = true) :
    ∃ first second output,
      compile tree spec none false document = .ok first ∧
      first.run ⟨maxAttempts, true, 0⟩ spec =
        (.ok ⟨document.rendered true spec, [], 1⟩, spec) ∧
      compile tree spec none false ⟨document.path, document.rendered true spec⟩ = .ok second ∧
      second.run ⟨maxAttempts, false, 0⟩ spec = (.ok ⟨output, [], 1⟩, spec) ∧
      first.run ⟨maxAttempts, false, 0⟩ spec = (.ok ⟨output, [], 1⟩, spec) := by
  obtain ⟨first, compiled, run⟩ := run_defined tree maxAttempts quiet content bare defined
  have subset {expr : String}
      (h : expr ∈ Document.exprs ⟨document.path, document.rendered true spec⟩) :
      expr ∈ document.exprs := Document.exprs_left clean bare h
  have bare_left := Document.isBare_of_exprs fun expr h =>
    Document.isUsable_of_mem_exprs bare (subset h)
  obtain ⟨second, compiled_left, run_left⟩ :=
    @run_defined ⟨document.path, document.rendered true spec⟩ spec tree maxAttempts quiet
      content_left bare_left fun expr h => defined expr (subset h)
  have again := run_left false
  rw [Document.rendered_left clean bare] at again
  exact ⟨first, second, _, compiled, run true, compiled_left, again, run false⟩

theorem run_deferred_resolved_of_letter :
    HasQuietOpening ⟨"letter"⟩ ∧ ∃ first second,
      compile ⟨[], []⟩ ⟨[("day", .string "a\n\"b"), ("name", .string "Bob")]⟩ none false
        ⟨⟨"letter"⟩, "$$\x7bday\x7d: $\x7b name \x7d"⟩ = .ok first ∧
      first.run ⟨100, true, 0⟩ ⟨[("day", .string "a\n\"b"), ("name", .string "Bob")]⟩ =
        (.ok ⟨"a\n\"b: $\x7b name \x7d", [], 1⟩,
          ⟨[("day", .string "a\n\"b"), ("name", .string "Bob")]⟩) ∧
      compile ⟨[], []⟩ ⟨[("day", .string "a\n\"b"), ("name", .string "Bob")]⟩ none false
        ⟨⟨"letter"⟩, "a\n\"b: $\x7b name \x7d"⟩ = .ok second ∧
      second.run ⟨100, false, 0⟩ ⟨[("day", .string "a\n\"b"), ("name", .string "Bob")]⟩ =
        first.run ⟨100, false, 0⟩ ⟨[("day", .string "a\n\"b"), ("name", .string "Bob")]⟩ := by
  have quiet : HasQuietOpening ⟨"letter"⟩ := hasQuietOpening (by simp)
  have left : Document.rendered true ⟨[("day", .string "a\n\"b"), ("name", .string "Bob")]⟩
      ⟨⟨"letter"⟩, "$$\x7bday\x7d: $\x7b name \x7d"⟩ = "a\n\"b: $\x7b name \x7d" := by
    decide +kernel
  obtain ⟨first, second, output, compiled, run, compiled_left, run_left, run_whole⟩ :=
    @run_deferred_resolved ⟨⟨"letter"⟩, "$$\x7bday\x7d: $\x7b name \x7d"⟩
      ⟨[("day", .string "a\n\"b"), ("name", .string "Bob")]⟩ ⟨[], []⟩ 100 quiet (by decide +kernel)
      (by decide +kernel) (by decide +kernel) (by decide +kernel)
      (by rw [left]; decide +kernel)
  rw [left] at run compiled_left
  exact ⟨quiet, first, second, compiled, run, compiled_left, run_left.trans run_whole.symm⟩

/--
A path that ends the opening comment can hold code, and this code can exchange the two modes for
each other.
-/
theorem run_deferred_resolved_of_carriage_return :
    OneLine "a\x0dlet _deferred = !_deferred;" ∧
      (∀ line ∈ Document.lines ⟨⟨"a\x0dlet _deferred = !_deferred;"⟩, "$\x7bx\x7d"⟩,
        (Line.classify line.text).isContent = true) ∧
      (∀ line ∈ Document.lines ⟨⟨"a\x0dlet _deferred = !_deferred;"⟩, "$\x7bx\x7d"⟩,
        Encoding.IsBare line.text) ∧
      (∀ expr ∈ Document.exprs ⟨⟨"a\x0dlet _deferred = !_deferred;"⟩, "$\x7bx\x7d"⟩,
        Spec.has ⟨[("x", .integer 1)]⟩ (Text.trim expr) = true) ∧
      Document.IsClean ⟨[("x", .integer 1)]⟩
        ⟨⟨"a\x0dlet _deferred = !_deferred;"⟩, "$\x7bx\x7d"⟩ ∧
      (∀ line ∈ Document.lines ⟨⟨"a\x0dlet _deferred = !_deferred;"⟩, "1"⟩,
        (Line.classify line.text).isContent = true) ∧
      ∃ first second,
        compile ⟨[], []⟩ ⟨[("x", .integer 1)]⟩ none false
          ⟨⟨"a\x0dlet _deferred = !_deferred;"⟩, "$\x7bx\x7d"⟩ = .ok first ∧
        compile ⟨[], []⟩ ⟨[("x", .integer 1)]⟩ none false
          ⟨⟨"a\x0dlet _deferred = !_deferred;"⟩, "1"⟩ = .ok second ∧
        ((first.run ⟨100, true, 0⟩ ⟨[("x", .integer 1)]⟩).1.toOption = some ⟨"1", [], 1⟩ ∧
          (first.run ⟨100, false, 0⟩ ⟨[("x", .integer 1)]⟩).1.toOption =
            some ⟨"$\x7bx\x7d", [], 1⟩) ∧
        (second.run ⟨100, false, 0⟩ ⟨[("x", .integer 1)]⟩).1.toOption = some ⟨"1", [], 1⟩ := by
  have content : ∀ line ∈ Document.lines ⟨⟨"a\x0dlet _deferred = !_deferred;"⟩, "$\x7bx\x7d"⟩,
      (Line.classify line.text).isContent = true := by
    decide +kernel
  have content_left : ∀ line ∈ Document.lines ⟨⟨"a\x0dlet _deferred = !_deferred;"⟩, "1"⟩,
      (Line.classify line.text).isContent = true := by
    decide +kernel
  have compiled := @compile_of_kept ⟨[], []⟩ ⟨[("x", .integer 1)]⟩ none false
    ⟨⟨"a\x0dlet _deferred = !_deferred;"⟩, "$\x7bx\x7d"⟩
    fun line hl => Line.isInclude_eq_false_of_isContent (content line hl)
  have compiled_left := @compile_of_kept ⟨[], []⟩ ⟨[("x", .integer 1)]⟩ none false
    ⟨⟨"a\x0dlet _deferred = !_deferred;"⟩, "1"⟩
    fun line hl => Line.isInclude_eq_false_of_isContent (content_left line hl)
  refine ⟨by decide, content, by decide +kernel, by decide +kernel, by decide +kernel, content_left,
    _, _, compiled, compiled_left, ?_, ?_⟩
  · rw [run, run, program, parse, Parser.run, tokens_source]
    decide +kernel
  · rw [run, program, parse, Parser.run, tokens_source]
    decide +kernel

end

end Emitter

end Stencil
