import Stencil.Proofs.Expansion

/-!
# Includes as inlined text

An emitter takes from the lines of a document only their texts and whether a newline ends them, and
nothing at all from an empty last piece.
-/

namespace Stencil

/-! ## Rows of lines -/

namespace SourceLine

def unnumbered (line : SourceLine) : SourceLine := { line with number := 0 }

/-- The contents of a row of lines, without the pieces that add nothing. -/
def contents (lines : List SourceLine) : List (String × Bool) :=
  (lines.filter (!Emitter.isVoid ·)).map content

@[simp]
theorem contents_append (lines more : List SourceLine) :
    contents (lines ++ more) = contents lines ++ contents more := by
  simp [contents]

theorem contents_cons (line : SourceLine) (rest : List SourceLine) :
    contents (line :: rest) = contents [line] ++ contents rest :=
  contents_append [line] rest

theorem contents_singleton_eq {line other : SourceLine} (h : line.content = other.content) :
    contents [line] = contents [other] := by
  obtain ⟨text, terminated⟩ : line.text = other.text ∧ line.terminated = other.terminated := by
    simpa [content] using h
  have same : Emitter.isVoid line = Emitter.isVoid other := by
    rw [Emitter.isVoid, Emitter.isVoid, text, terminated]
  cases hv : Emitter.isVoid other <;> simp_all [contents]

end SourceLine

namespace Document

open SourceLine

theorem plain_of_mem_splice {document : Document} {terminated : Bool}
    (plain : ∀ line ∈ document.lines, (Line.classify line.text).isInclude = false) :
    ∀ line ∈ document.splice terminated, (Line.classify line.text).isInclude = false := by
  intro line hl
  obtain ⟨other, ho, text⟩ := text_mem_of_mem_closeLast hl
  exact text ▸ plain other ho

def numberClosed (path : Path) : Nat → List (List Char) → List SourceLine
  | _, [] => []
  | n, piece :: rest => ⟨String.ofList piece, path, n, true⟩ :: numberClosed path (n + 1) rest

theorem number_append (path : Path) (n : Nat) (ps : List (List Char)) {qs : List (List Char)}
    (h : qs ≠ []) :
    number path n (ps ++ qs) = numberClosed path n ps ++ number path (n + ps.length) qs := by
  induction ps generalizing n with
  | nil => rfl
  | cons piece rest ih =>
    obtain ⟨next, more, split⟩ := List.exists_cons_of_ne_nil (l := rest ++ qs) (by simp [h])
    rw [List.cons_append, split, number, ← split, ih, numberClosed, List.cons_append,
      List.length_cons, Nat.add_assoc, Nat.add_comm 1]
    simp

theorem contents_numberClosed (path : Path) (n : Nat) (ps : List (List Char)) :
    contents (numberClosed path n ps) = ps.map fun piece => (String.ofList piece, true) := by
  induction ps generalizing n with
  | nil => rfl
  | cons piece rest ih =>
    rw [numberClosed, contents_cons, ih]
    simp [contents, Emitter.isVoid, content]

theorem unnumbered_number (path : Path) (m n : Nat) (ps : List (List Char)) :
    (number path m ps).map unnumbered = (number path n ps).map unnumbered := by
  induction m, ps using number.induct generalizing n with
  | case1 m => rfl
  | case2 m piece => rfl
  | case3 m piece rest more ih =>
    rw [number, number, List.map_cons, List.map_cons, ih (n + 1)]
    · rfl
    · exact more
    · exact more

/-- The last piece of a text is empty if the text is empty or ends in a newline. -/
theorem exists_last_piece (cs : List Char) :
    ∃ front last, pieces cs = front ++ [last] ∧
      (last = [] ↔ cs = [] ∨ cs.getLast? = some '\n') := by
  by_cases newline : '\n' ∈ cs
  · obtain ⟨back, front, split, free⟩ :=
      List.eq_append_cons_of_mem (List.mem_reverse.2 newline)
    have joined : cs = front.reverse ++ '\n' :: back.reverse := by
      rw [← List.reverse_reverse cs, split]
      simp
    have last_free : '\n' ∉ back.reverse := by simpa using free
    refine ⟨pieces front.reverse, back.reverse, ?_, ?_⟩
    · rw [joined, pieces_append_newline, pieces_of_newline_not_mem last_free]
    · rw [joined, List.getLast?_append, List.getLast?_cons]
      cases ending : back.reverse.getLast? with
      | none => simp_all
      | some c =>
        have unequal : c ≠ '\n' := fun h => last_free (h ▸ List.mem_of_getLast? ending)
        have filled : back.reverse ≠ [] := by
          rintro empty
          simp [empty] at ending
        simpa [unequal] using filled
  · refine ⟨[], cs, pieces_of_newline_not_mem newline, ?_⟩
    have no_end : cs.getLast? ≠ some '\n' := fun h => newline (List.mem_of_getLast? h)
    simp [no_end]

theorem closeLast_append (terminated : Bool) (lines : List SourceLine) (line : SourceLine) :
    closeLast terminated (lines ++ [line]) =
      lines ++ if line.text = "" then [] else [{ line with terminated }] := by
  induction lines with
  | nil => rfl
  | cons first rest ih =>
    obtain ⟨next, more, split⟩ := List.exists_cons_of_ne_nil (l := rest ++ [line]) (by simp)
    rw [List.cons_append, split, closeLast, ← split, ih, List.cons_append]
    simp

variable {front : List (List Char)} {last : List Char}

theorem contents_number (path : Path) (n : Nat) :
    contents (number path n (front ++ [last])) =
      front.map (fun piece => (String.ofList piece, true)) ++
        if last = [] then [] else [(String.ofList last, false)] := by
  rw [number_append _ _ _ (by simp), contents_append, contents_numberClosed, number]
  by_cases empty : last = [] <;> simp [contents, Emitter.isVoid, content, empty]

theorem contents_splice {document : Document} (terminated : Bool)
    (split : pieces document.text.toList = front ++ [last]) :
    contents (document.splice terminated) =
      front.map (fun piece => (String.ofList piece, true)) ++
        if last = [] then [] else [(String.ofList last, terminated)] := by
  rw [splice, lines, split, number_append _ _ _ (by simp), number, closeLast_append,
    contents_append, contents_numberClosed]
  by_cases empty : last = [] <;> simp [contents, Emitter.isVoid, content, empty]

/-- The text that an include directive stands for, if the text of its target is `text`. -/
def inlined (terminated : Bool) (text : String) : String :=
  if terminated = true ∧ text ≠ "" ∧ text.toList.getLast? ≠ some '\n' then text ++ "\n" else text

theorem pieces_inlined {text : String} (after : String)
    (split : pieces text.toList = front ++ [last])
    (empty : last = [] ↔ text.toList = [] ∨ text.toList.getLast? = some '\n') :
    pieces (inlined true text ++ after).toList =
      (if last = [] then front else front ++ [last]) ++ pieces after.toList := by
  by_cases closed : last = []
  · subst closed
    have same : inlined true text = text := by
      rcases empty.1 rfl with h | h
      · simp [inlined, String.toList_eq_nil_iff.1 h]
      · simp [inlined, h]
    rw [same, String.toList_append, if_pos rfl]
    rcases empty.1 rfl with h | h
    · have none_before : front = [] := by
        simpa [h, pieces, List.append_eq_singleton_iff] using split
      rw [h, none_before]
      rfl
    · obtain ⟨before, eq⟩ := List.getLast?_eq_some_iff.1 h
      have front_eq : front = pieces before := by
        rw [eq, pieces_append_newline, pieces] at split
        exact (List.append_inj_left' split rfl).symm
      rw [eq, List.append_assoc, List.singleton_append, pieces_append_newline, front_eq]
  · have longer : inlined true text = text ++ "\n" := by
      have open_end := mt empty.2 closed
      rw [not_or] at open_end
      have some_text : text ≠ "" := fun h => open_end.1 (by simp [h])
      simp [inlined, open_end.2, some_text]
    rw [longer, String.toList_append, String.toList_append, if_neg closed, ← split]
    exact (congrArg pieces (List.append_assoc _ _ _)).trans (pieces_append_newline _ _)

/-- The lines of an inlined text have the contents of the lines that are spliced in. -/
theorem exists_inlined_lines (path : Path) (n : Nat) (target : Document) {terminated : Bool}
    {after : String} (ends : terminated = false → after = "") :
    ∃ middle rest,
      number path n (pieces (inlined terminated target.text ++ after).toList) = middle ++ rest ∧
      contents middle = contents (target.splice terminated) ∧
      rest.map unnumbered =
        (if terminated then number path (n + 1) (pieces after.toList) else []).map unnumbered := by
  obtain ⟨front, last, split, empty⟩ := exists_last_piece target.text.toList
  rw [contents_splice terminated split]
  cases terminated with
  | false =>
    obtain rfl := ends rfl
    refine ⟨number path n (front ++ [last]), [], ?_, contents_number path n, rfl⟩
    simp [inlined, split]
  | true =>
    rw [pieces_inlined after split empty, number_append _ _ _ (pieces_ne_nil _)]
    refine ⟨_, _, rfl, ?_, unnumbered_number _ _ _ _⟩
    rw [contents_numberClosed]
    by_cases closed : last = [] <;> simp [closed]

/-- A text that is empty or ends in a newline keeps its lines, whatever stands behind it. -/
theorem exists_opened_lines (path : Path) {before : String}
    (opens : before = "" ∨ before.toList.getLast? = some '\n') :
    ∃ head, ∀ rest : String, lines ⟨path, before ++ rest⟩ =
      head ++ number path (pieces before.toList).length (pieces rest.toList) := by
  rcases opens with rfl | ended
  · exact ⟨[], fun rest => by simp [lines, pieces]⟩
  · obtain ⟨front, split⟩ := List.getLast?_eq_some_iff.1 ended
    refine ⟨numberClosed path 1 (pieces front), fun rest => ?_⟩
    have text : (before ++ rest).toList = front ++ '\n' :: rest.toList := by simp [split]
    have count : (pieces before.toList).length = 1 + (pieces front).length := by
      simp [split, pieces_append_newline, pieces, Nat.add_comm]
    rw [lines, text, pieces_append_newline, number_append _ _ _ (pieces_ne_nil _), count]

theorem number_line (path : Path) (n : Nat) {line after : String} {terminated : Bool}
    (one : OneLine line) (ends : terminated = false → after = "") :
    number path n (pieces ((if terminated then line ++ "\n" else line) ++ after).toList) =
      ⟨line, path, n, terminated⟩ ::
        if terminated then number path (n + 1) (pieces after.toList) else [] := by
  cases terminated with
  | false =>
    obtain rfl := ends rfl
    simp [pieces_of_newline_not_mem one, number]
  | true =>
    have text : (line ++ "\n" ++ after).toList = line.toList ++ '\n' :: after.toList := by simp
    rw [if_pos rfl, text, pieces_append_newline, pieces_of_newline_not_mem one,
      number_append _ _ _ (pieces_ne_nil _)]
    simp [numberClosed]

end Document

theorem Document.path_of_read {tree : FileTree} {path : Path} {document : Document}
    (h : read tree path = .ok document) : document.path = path := by
  unfold read at h
  split at h
  · split at h
    · exact (Except.ok.inj h) ▸ rfl
    · simp at h
  · simp at h

/-! ## Files that matter no more -/

namespace Inclusion

variable {tree : FileTree} {spec : Spec} {included included' : List Path} {expr : String}
  {line line' : SourceLine}

/-- Whether a file is included makes no difference to a directive that leads to another one. -/
theorem resolve_beside {outcome : Except Fault Inclusion} {file : Path}
    (resolved : resolve tree spec included expr line = outcome)
    (different : outcome.toOption.map Inclusion.file ≠ some file)
    (same : line'.unnumbered = line.unnumbered)
    (others : ∀ other, other ≠ file → (other ∈ included' ↔ other ∈ included))
    (seen : file ∈ included) :
    (resolve tree spec included' expr line').toOption = outcome.toOption := by
  subst resolved
  obtain ⟨-, origin, -, terminated⟩ := SourceLine.mk.inj same
  unfold resolve at different ⊢
  rw [origin, terminated]
  cases named : target spec expr with
  | error why => rfl
  | ok relative =>
    simp only [named] at different ⊢
    by_cases is_file : tree.isFile (line.origin.directory.join relative) = true
    · by_cases here : tree.canonical (line.origin.directory.join relative) = file
      · simp [is_file, here, seen, Except.toOption, Inclusion.file] at different
      · simp only [is_file, if_true, List.contains_iff_mem, others _ here]
    · simp [is_file, Except.toOption]

end Inclusion

namespace Met

/-- The directives that lead to a file. -/
def leadingTo (file : Path) (met : List Met) : List Met := met.filter fun m => m.file? = some file

theorem leadingTo_append (file : Path) (met later : List Met) :
    leadingTo file (met ++ later) = leadingTo file met ++ leadingTo file later :=
  List.filter_append _ _

theorem leadingTo_refused (file : Path) (line : SourceLine) (expr : String) (met : List Met) :
    leadingTo file (⟨line, expr, .ok (.refused file)⟩ :: met) =
      ⟨line, expr, .ok (.refused file)⟩ :: leadingTo file met :=
  List.filter_cons_of_pos (decide_eq_true rfl)

theorem leadingTo_spliced (file : Path) (lines : List SourceLine) (line : SourceLine)
    (expr : String) (met : List Met) :
    leadingTo file (⟨line, expr, .ok (.spliced file lines)⟩ :: met) =
      ⟨line, expr, .ok (.spliced file lines)⟩ :: leadingTo file met :=
  List.filter_cons_of_pos (decide_eq_true rfl)

theorem leadingTo_eq_nil_iff {file : Path} {met : List Met} :
    leadingTo file met = [] ↔ ∀ m ∈ met, m.file? ≠ some file := by
  simp [leadingTo]

end Met

namespace Expansion

variable {tree : FileTree} {spec : Spec}

def append (e e' : Expansion) : Expansion :=
  ⟨e.lines ++ e'.lines, e.included ++ e'.included, e.refused ++ e'.refused⟩

theorem map_map {β γ : Type} (x : Except Fault Expansion) (f : Expansion → β) (g : β → γ) :
    (x.map f).map g = x.map fun e => g (f e) := by
  cases x <;> rfl

theorem map_append_nil (x : Except Fault Expansion) : x.map (append ⟨[], [], []⟩) = x := by
  cases x <;> rfl

/-- The lines behind are expanded after the files that were accepted in front of them. -/
theorem ofLines_append (included : List Path) (lines more : List SourceLine) :
    ofLines tree spec included (lines ++ more) =
      match ofLines tree spec included lines with
      | .error fault => .error fault
      | .ok e => (ofLines tree spec (included ++ e.included) more).map e.append := by
  induction included, lines using ofLines.induct tree spec with
  | case1 included =>
    rw [ofLines]
    simp only [List.nil_append, List.append_nil, map_append_nil]
  | case2 included line rest expr kind fault failed =>
    rw [List.cons_append, ofLines_failed kind failed, ofLines_failed kind failed]
  | case3 included line rest expr kind file refused ih =>
    rw [List.cons_append, ofLines_refused kind refused, ofLines_refused kind refused, ih]
    cases ofLines tree spec included rest with
    | error fault => rfl
    | ok e => exact map_map _ _ _
  | case4 included line rest expr kind file lines spliced ih =>
    rw [List.cons_append, ofLines_spliced kind spliced, ofLines_spliced kind spliced,
      ← List.append_assoc, ih]
    cases ofLines tree spec (included ++ [file]) (lines ++ rest) with
    | error fault => rfl
    | ok e =>
      simp only [List.append_assoc]
      exact map_map _ _ _
  | case5 included line rest kind ih =>
    have kept : (Line.classify line.text).isInclude = false := by
      cases hk : Line.classify line.text <;> simp_all [Line.isInclude]
    rw [List.cons_append, ofLines_kept kept, ofLines_kept kept, ih]
    cases ofLines tree spec included rest with
    | error fault => rfl
    | ok e => exact map_map _ _ _

theorem error_of_toOption {ε α : Type} {x : Except ε α} (h : x.toOption = none) :
    ∃ fault, x = .error fault := by
  cases x <;> simp_all [Except.toOption]

/-- The contents of the expanded lines. -/
def contents (e : Expansion) : List (String × Bool) := SourceLine.contents (e.lines.map (·.1))

/-- Changes of an expansion go over to its contents. -/
theorem toOption_map_contents {f : Expansion → Expansion}
    {g : List (String × Bool) → List (String × Bool)} (h : ∀ e, (f e).contents = g e.contents)
    (x : Except Fault Expansion) :
    (x.map f).toOption.map contents = (x.toOption.map contents).map g := by
  cases x with
  | error fault => rfl
  | ok e => exact congrArg some (h e)

theorem contents_append (e e' : Expansion) :
    (e.append e').contents = e.contents ++ e'.contents := by
  simp [contents, append]

theorem contents_refused {file : Path} (e : Expansion) :
    contents { e with refused := file :: e.refused } = id e.contents := rfl

theorem contents_spliced {file : Path} (e : Expansion) :
    contents { e with included := file :: e.included } = id e.contents := rfl

theorem contents_kept (line : SourceLine) (kind : Line) (e : Expansion) :
    contents { e with lines := (line, kind) :: e.lines } =
      SourceLine.contents [line] ++ e.contents :=
  SourceLine.contents_cons line _

namespace Expands

variable {rounds : Nat} {included : List Path} {lines more : List SourceLine} {met : List Met}
  {outcome : Except Fault Expansion} {e : Expansion}

/-- Behind lines that were expanded, the others are expanded in further rounds. -/
theorem behind (h : Expands tree spec rounds included (lines ++ more) met outcome)
    (expanded : ofLines tree spec included lines = .ok e) :
    ∃ rounds before later outcome, met = before ++ later ∧
      Expands tree spec rounds (included ++ e.included) more later outcome := by
  have here {rounds included e given met outcome}
      (h : Expands tree spec rounds included given met outcome) (rest : more = given)
      (expanded : ofLines tree spec included [] = .ok e) :
      ∃ rounds before later outcome, met = before ++ later ∧
        Expands tree spec rounds (included ++ e.included) more later outcome := by
    obtain rfl : ⟨[], [], []⟩ = e := by simpa [ofLines] using expanded
    refine ⟨rounds, [], met, outcome, rfl, ?_⟩
    simpa [rest] using h
  generalize all : lines ++ more = given at h
  induction h generalizing lines e with
  | done =>
    obtain ⟨rfl, rfl⟩ := List.append_eq_nil_iff.1 all
    exact here done rfl expanded
  | kept kind later ih =>
    rcases List.append_eq_cons_iff.1 all with ⟨rfl, rest⟩ | ⟨front, rfl, split⟩
    · exact here (kept kind later) rest expanded
    · rw [ofLines_kept kind] at expanded
      obtain ⟨e', front_expanded, rfl⟩ := map_ok expanded
      have further := ih front_expanded split.symm
      exact further
  | failed kind resolved =>
    rcases List.append_eq_cons_iff.1 all with ⟨rfl, rest⟩ | ⟨front, rfl, split⟩
    · exact here (failed kind resolved) rest expanded
    · rw [ofLines_failed kind (Inclusion.resolveNext_eq_iff.1 resolved).1] at expanded
      simp at expanded
  | refused kind resolved later ih =>
    rcases List.append_eq_cons_iff.1 all with ⟨rfl, rest⟩ | ⟨front, rfl, split⟩
    · exact here (refused kind resolved later) rest expanded
    · obtain ⟨refused, rfl⟩ := Inclusion.resolveNext_eq_iff.1 resolved
      rw [ofLines_refused kind refused] at expanded
      obtain ⟨e', front_expanded, rfl⟩ := map_ok expanded
      obtain ⟨rounds, before, others, outcome, rfl, expands⟩ := ih front_expanded split.symm
      exact ⟨rounds, _ :: before, others, outcome, rfl, expands⟩
  | spliced kind resolved later ih =>
    rcases List.append_eq_cons_iff.1 all with ⟨rfl, rest⟩ | ⟨front, rfl, split⟩
    · exact here (spliced kind resolved later) rest expanded
    · obtain ⟨spliced, rfl⟩ := Inclusion.resolveNext_eq_iff.1 resolved
      rw [ofLines_spliced kind spliced] at expanded
      obtain ⟨e', front_expanded, rfl⟩ := map_ok expanded
      rw [split] at ih
      obtain ⟨rounds, before, others, outcome, rfl, expands⟩ :=
        ih front_expanded (List.append_assoc _ _ _)
      refine ⟨rounds, _ :: before, others, outcome, rfl, ?_⟩
      simpa using expands

/-- An expansion gives the same contents whether a file is included to which no directive leads. -/
theorem beside (h : Expands tree spec rounds included lines met outcome) {file : Path}
    {included' : List Path} {lines' : List SourceLine}
    (same : lines.map SourceLine.unnumbered = lines'.map SourceLine.unnumbered)
    (others : ∀ other, other ≠ file → (other ∈ included' ↔ other ∈ included))
    (seen : file ∈ included) (unmet : ∀ m ∈ met, m.file? ≠ some file) :
    (ofLines tree spec included' lines').toOption.map contents = outcome.toOption.map contents := by
  induction h generalizing included' lines' with
  | done =>
    obtain rfl := List.map_eq_nil_iff.1 same.symm
    rw [ofLines]
  | @kept _ _ line _ _ _ kind later ih =>
    obtain ⟨line', rest', rfl, first, behind⟩ := List.map_eq_cons_iff.1 same.symm
    obtain ⟨text, -, -, terminated⟩ := SourceLine.mk.inj first
    have content : SourceLine.contents [line'] = SourceLine.contents [line] :=
      SourceLine.contents_singleton_eq (Prod.ext text terminated)
    rw [ofLines_kept (text ▸ kind), toOption_map_contents (contents_kept _ _),
      toOption_map_contents (contents_kept _ _), ih behind.symm others seen unmet, content]
  | failed kind resolved =>
    obtain ⟨line', rest', rfl, first, behind⟩ := List.map_eq_cons_iff.1 same.symm
    obtain ⟨text, -, -, -⟩ := SourceLine.mk.inj first
    obtain ⟨failed, rfl⟩ := Inclusion.resolveNext_eq_iff.1 resolved
    have again := Inclusion.resolve_beside failed (unmet _ List.mem_cons_self) first others seen
    obtain ⟨fault, failed'⟩ := error_of_toOption again
    rw [ofLines_failed (text ▸ kind) failed']
    rfl
  | refused kind resolved later ih =>
    obtain ⟨line', rest', rfl, first, behind⟩ := List.map_eq_cons_iff.1 same.symm
    obtain ⟨text, -, -, -⟩ := SourceLine.mk.inj first
    obtain ⟨refused, rfl⟩ := Inclusion.resolveNext_eq_iff.1 resolved
    have again := Inclusion.resolve_beside refused (unmet _ List.mem_cons_self) first others seen
    rw [ofLines_refused (text ▸ kind) (ok_of_toOption again),
      toOption_map_contents contents_refused, toOption_map_contents contents_refused,
      ih behind.symm others seen fun m hm => unmet m (List.mem_cons_of_mem _ hm)]
  | @spliced _ included _ rest _ other lines _ _ _ kind resolved later ih =>
    obtain ⟨line', rest', rfl, first, behind⟩ := List.map_eq_cons_iff.1 same.symm
    obtain ⟨text, -, -, -⟩ := SourceLine.mk.inj first
    obtain ⟨spliced, rfl⟩ := Inclusion.resolveNext_eq_iff.1 resolved
    have again := Inclusion.resolve_beside spliced (unmet _ List.mem_cons_self) first others seen
    have same_lines : (lines ++ rest').map SourceLine.unnumbered =
        (lines ++ rest).map SourceLine.unnumbered := by
      rw [List.map_append, List.map_append, behind]
    have others' : ∀ another, another ≠ file →
        (another ∈ included' ++ [other] ↔ another ∈ included ++ [other]) := by
      intro another different
      simp [others another different]
    rw [ofLines_spliced (text ▸ kind) (ok_of_toOption again),
      toOption_map_contents contents_spliced, toOption_map_contents contents_spliced,
      ih same_lines.symm others' (List.mem_append_left _ seen)
        fun m hm => unmet m (List.mem_cons_of_mem _ hm)]

end Expands

theorem isInclude_eq_false_of_contents {lines others : List SourceLine}
    (same : SourceLine.contents others = SourceLine.contents lines)
    (plain : ∀ line ∈ lines, (Line.classify line.text).isInclude = false) :
    ∀ line ∈ others, (Line.classify line.text).isInclude = false := by
  intro line hl
  by_cases void : Emitter.isVoid line = true
  · rw [Emitter.text_of_isVoid void]
    decide
  · have known : line.content ∈ SourceLine.contents lines := by
      rw [← same]
      exact List.mem_map_of_mem (List.mem_filter.2 ⟨hl, by simpa using void⟩)
    obtain ⟨other, ho, content⟩ := List.mem_map.1 known
    have text : other.text = line.text := congrArg Prod.fst content
    exact text ▸ plain other (List.mem_filter.1 ho).1

theorem contents_of_kept (lines : List SourceLine) :
    contents ⟨lines.map fun line => (line, Line.classify line.text), [], []⟩ =
      SourceLine.contents lines := by
  simp [contents, Function.comp_def]

theorem toOption_ofLines_append {included : List Path} {lines more : List SourceLine}
    (plain : ∀ line ∈ lines, (Line.classify line.text).isInclude = false) :
    (ofLines tree spec included (lines ++ more)).toOption.map contents =
      ((ofLines tree spec included more).toOption.map contents).map
        (SourceLine.contents lines ++ ·) := by
  rw [ofLines_append, ofLines_of_kept plain]
  simp only [List.append_nil]
  rw [toOption_map_contents (contents_append _), contents_of_kept]

/-- Behind the lines of a file that is not met again, it does not matter that it is included. -/
theorem Expands.beside_lines {rounds : Nat} {included : List Path} {met : List Met}
    {outcome : Except Fault Expansion} {lines behind rest : List SourceLine} {file : Path}
    (h : Expands tree spec rounds (included ++ [file]) (lines ++ behind) met outcome)
    (plain : ∀ line ∈ lines, (Line.classify line.text).isInclude = false)
    (numbered : rest.map SourceLine.unnumbered = behind.map SourceLine.unnumbered)
    (unmet : ∀ m ∈ met, m.file? ≠ some file) :
    ((ofLines tree spec included rest).toOption.map contents).map
        (SourceLine.contents lines ++ ·) =
      outcome.toOption.map contents := by
  obtain ⟨_, _, met_behind, _, rfl, at_behind⟩ := h.behind (ofLines_of_kept plain)
  rw [List.append_nil] at at_behind
  rw [← h.eq_ofLines, toOption_ofLines_append plain, at_behind.eq_ofLines]
  congr 1
  exact at_behind.beside numbered.symm (by simp +contextual) (by simp)
    fun m hm => unmet m (List.mem_append_right _ hm)

/--
In the place of a directive that is the only one to lead to its file, the lines of the file are
expanded to the same contents.
-/
theorem Expands.inlined {rounds : Nat} {included : List Path} {met : List Met}
    {outcome : Except Fault Expansion} {head behind lines middle rest : List SourceLine}
    {line : SourceLine} {expr : String} {file : Path}
    (expands : Expands tree spec rounds included (head ++ line :: behind) met outcome)
    (kind : Line.classify line.text = .include expr)
    (resolves : ∀ included, Inclusion.resolve tree spec included expr line =
      .ok (if file ∈ included then .refused file else .spliced file lines))
    (plain : ∀ line ∈ lines, (Line.classify line.text).isInclude = false)
    (same : SourceLine.contents middle = SourceLine.contents lines)
    (numbered : rest.map SourceLine.unnumbered = behind.map SourceLine.unnumbered)
    {m : Met} (only : Met.leadingTo file met = [m]) (accepted : m.accepted? = some file) :
    (ofLines tree spec included (head ++ (middle ++ rest))).toOption.map contents =
      outcome.toOption.map contents := by
  rw [← expands.eq_ofLines, ofLines_append, ofLines_append]
  cases expanded : ofLines tree spec included head with
  | error fault => rfl
  | ok e =>
    obtain ⟨rounds, before, later, outcome', rfl, at_line⟩ := expands.behind expanded
    simp only
    rw [toOption_map_contents (contents_append e), toOption_map_contents (contents_append e)]
    congr 1
    rw [toOption_ofLines_append (isInclude_eq_false_of_contents same plain), same,
      at_line.eq_ofLines]
    -- The directive leads to the file, so that it is the one that is accepted.
    have here := resolves (included ++ e.included)
    cases at_line with
    | kept other => simp [kind, Line.isInclude] at other
    | failed other resolved =>
      obtain rfl : expr = _ := by simpa [kind] using other
      rw [(Inclusion.resolveNext_eq_iff.1 resolved).1] at here
      simp at here
    | refused other resolved later =>
      obtain rfl : expr = _ := by simpa [kind] using other
      rw [(Inclusion.resolveNext_eq_iff.1 resolved).1] at here
      split at here
      · obtain rfl := Inclusion.refused.inj (Except.ok.inj here)
        rw [Met.leadingTo_append, Met.leadingTo_refused] at only
        obtain rfl := List.mem_singleton.1 (only ▸ List.mem_append_right _ List.mem_cons_self)
        simp [Met.accepted?, Inclusion.accepted?, Except.toOption] at accepted
      · simp at here
    | spliced other resolved later =>
      obtain rfl : expr = _ := by simpa [kind] using other
      obtain ⟨spliced, rfl⟩ := Inclusion.resolveNext_eq_iff.1 resolved
      rw [spliced] at here
      split at here
      · simp at here
      · rename_i new
        obtain ⟨rfl, rfl⟩ := Inclusion.spliced.inj (Except.ok.inj here)
        rw [Met.leadingTo_append, Met.leadingTo_spliced] at only
        have nothing_later := congrArg List.length only
        simp only [List.length_append, List.length_cons, List.length_nil] at nothing_later
        rw [toOption_map_contents contents_spliced, Option.map_id]
        exact later.beside_lines plain numbered
          (Met.leadingTo_eq_nil_iff.1 (List.length_eq_zero_iff.1 (by omega)))

end Expansion

/-! ## Code from contents -/

namespace Emitter

/-- The code of a block of content lines. -/
def blockCodes (run : List (String × Bool)) : List String :=
  if run.isEmpty then []
  else
    ("if " ++ Resolver.modeName ++ " \x7b") :: run.map (fun c => Encoding.script true c.1 c.2) ++
      "\x7d else \x7b" :: run.map (fun c => Encoding.script false c.1 c.2) ++ ["\x7d"]

/-- The code of the lines with these contents, behind the content lines `run`. -/
def bodyCodes (run : List (String × Bool)) : List (String × Bool) → List String
  | [] => []
  | c :: rest =>
    match (Line.classify c.1).code? with
    | some code => blockCodes run ++ code :: bodyCodes [] rest
    | none => bodyCodes (run ++ [c]) rest

theorem block_codes (run : List SourceLine) :
    (block run).map (·.code) = blockCodes (run.map SourceLine.content) := by
  unfold block blockCodes
  cases run with
  | nil => rfl
  | cons line rest => simp [encoded, plain, SourceLine.content, Function.comp_def]

theorem body_codes {entries : List (SourceLine × Line)} (run : List SourceLine)
    (kinds : ∀ entry ∈ entries, entry.2 = Line.classify entry.1.text) :
    (body run entries).map (·.code) =
      bodyCodes (run.map SourceLine.content) (SourceLine.contents (entries.map (·.1))) := by
  induction entries generalizing run with
  | nil => rfl
  | cons entry rest ih =>
    obtain ⟨line, kind⟩ := entry
    obtain rfl : kind = Line.classify line.text := kinds _ List.mem_cons_self
    have known : ∀ entry ∈ rest, entry.2 = Line.classify entry.1.text :=
      fun entry he => kinds entry (List.mem_cons_of_mem _ he)
    rw [List.map_cons, SourceLine.contents_cons, body]
    by_cases void : isVoid line = true
    · have no_contents : SourceLine.contents [line] = [] := by simp [SourceLine.contents, void]
      rw [code?_of_isVoid void, no_contents]
      simpa [void] using ih run known
    · have one_content : SourceLine.contents [line] = [line.content] := by
        simp [SourceLine.contents, void]
      rw [one_content, List.singleton_append, bodyCodes, SourceLine.content]
      cases code : (Line.classify line.text).code? with
      | none => simpa [void, SourceLine.content] using ih (run ++ [line]) known
      | some c =>
        have later := ih [] known
        rw [List.map_append, block_codes, List.map_cons, later, List.map_nil]

section

variable {tree : FileTree} {spec : Spec} {prelude : Option Prelude} {embed : Bool}

/-- The source of an emitter depends on the contents of the expanded lines alone. -/
theorem compile_source (document : Document) :
    (compile tree spec prelude embed document).toOption.map source =
      ((Expansion.ofLines tree spec [tree.canonical document.path]
        (document.lines ++ [closing document])).toOption.map Expansion.contents).map
        fun contents => "\n".intercalate ((opening document prelude embed).map (·.code) ++
          bodyCodes [] contents ++ (ending embed).map (·.code)) := by
  rw [compile_eq_map]
  cases expanded : Expansion.ofLines tree spec [tree.canonical document.path]
    (document.lines ++ [closing document]) with
  | error fault => rfl
  | ok e =>
    have entries := Expansion.forall_of_ofLines (P := fun _ => True) (fun _ _ _ _ => trivial)
      (fun _ _ => trivial) expanded
    have codes := body_codes [] fun entry he => (entries entry he).2.1
    simp [Except.map, Except.toOption, source, codes, Expansion.contents]

theorem unnumbered_append_closing {document other : Document} {lines more : List SourceLine}
    (path : document.path = other.path)
    (same : lines.map SourceLine.unnumbered = more.map SourceLine.unnumbered) :
    (lines ++ [closing document]).map SourceLine.unnumbered =
      (more ++ [closing other]).map SourceLine.unnumbered := by
  rw [List.map_append, List.map_append, same]
  simp [closing, SourceLine.unnumbered, path]

end

end Emitter

end Stencil
