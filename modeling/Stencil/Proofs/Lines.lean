import Stencil.Emitter

/-!
# Texts of one line

The lines of a document are the pieces between its newlines, and whatever an emitter makes of one of
them is a text without a newline again: the code of a directive by the rule that reads it, a literal
by its escapes, and the expression of a substitution because it is a part of the line.
-/

namespace Stencil

def OneLine (s : String) : Prop := '\n' ∉ s.toList

instance (s : String) : Decidable (OneLine s) := inferInstanceAs (Decidable ('\n' ∉ s.toList))

namespace OneLine

theorem append {s t : String} (hs : OneLine s) (ht : OneLine t) : OneLine (s ++ t) := by
  unfold OneLine at *
  simp [hs, ht]

theorem intercalate {s : String} {parts : List String} (hs : OneLine s)
    (hp : ∀ part ∈ parts, OneLine part) : OneLine (s.intercalate parts) := by
  induction parts with
  | nil => simp [OneLine]
  | cons part rest ih =>
    have hpart := hp part (by simp)
    have hrest := ih fun other ho => hp other (by simp [ho])
    cases rest with
    | nil => rwa [String.intercalate_singleton]
    | cons next more =>
      rw [String.intercalate_cons_cons]
      exact (hpart.append hs).append hrest

end OneLine

/-! ## Lines of a document -/

namespace Document

theorem pieces_eq_splitOn (cs : List Char) : pieces cs = cs.splitOn '\n' := by
  induction cs with
  | nil => rfl
  | cons c rest ih =>
    rw [pieces, List.splitOn_cons_eq_if_modifyHead, ih]
    by_cases hc : c = '\n'
    · simp [hc]
    · simp only [hc, if_false, beq_iff_eq]
      cases hs : rest.splitOn '\n' with
      | nil => exact absurd hs (List.splitOn_ne_nil _ _)
      | cons piece more => rfl

theorem pieces_ne_nil (cs : List Char) : pieces cs ≠ [] := by
  rw [pieces_eq_splitOn]
  exact List.splitOn_ne_nil _ _

theorem pieces_of_newline_not_mem {piece : List Char} (h : '\n' ∉ piece) :
    pieces piece = [piece] := by
  rw [pieces_eq_splitOn, List.splitOn_eq_singleton h]

theorem pieces_append_newline (front rest : List Char) :
    pieces (front ++ '\n' :: rest) = pieces front ++ pieces rest := by
  simp only [pieces_eq_splitOn, List.splitOn_append_cons_self]

theorem pieces_intercalate {lines : List String} (some_line : lines ≠ [])
    (h : ∀ line ∈ lines, OneLine line) :
    (pieces (String.intercalate "\n" lines).toList).map String.ofList = lines := by
  have free : ∀ piece ∈ lines.map String.toList, '\n' ∉ piece := by
    simpa [OneLine] using h
  have eq := List.splitOn_intercalate '\n' free (by simpa using some_line)
  rw [pieces_eq_splitOn, String.toList_intercalate]
  change ((['\n'].intercalate (lines.map String.toList)).splitOn '\n').map String.ofList = lines
  rw [eq, List.map_map]
  simp [Function.comp_def]

theorem newline_not_mem_pieces {cs piece : List Char} (h : piece ∈ pieces cs) :
    '\n' ∉ piece := by
  induction cs generalizing piece with
  | nil =>
    simp only [pieces, List.mem_singleton] at h
    simp [h]
  | cons c rest ih =>
    rw [pieces] at h
    split at h
    · rcases List.mem_cons.1 h with rfl | h
      · simp
      · exact ih h
    · rename_i hc
      split at h
      · simp only [List.mem_singleton] at h
        simpa [h] using Ne.symm hc
      · rename_i first more hp
        rcases List.mem_cons.1 h with rfl | h
        · have := ih (hp ▸ List.mem_cons_self)
          simpa [Ne.symm hc] using this
        · exact ih (hp ▸ List.mem_cons_of_mem _ h)

theorem text_mem_of_mem_number {path : Path} {n : Nat} {ps : List (List Char)}
    {line : SourceLine} (h : line ∈ number path n ps) :
    ∃ piece ∈ ps, line.text = String.ofList piece := by
  induction n, ps using number.induct with
  | case1 n => simp [number] at h
  | case2 n piece =>
    simp only [number, List.mem_singleton] at h
    exact ⟨piece, by simp, by rw [h]⟩
  | case3 n piece rest more ih =>
    rw [number] at h
    · rcases List.mem_cons.1 h with rfl | h
      · exact ⟨piece, by simp, rfl⟩
      · obtain ⟨p, hp, eq⟩ := ih h
        exact ⟨p, by simp [hp], eq⟩
    · exact more

/-- The lines, each with its newline if it has one, are the pieces with newlines between them. -/
theorem flatMap_number {α : Type} (f : List Char → List α) (newline : α) (path : Path) (n : Nat)
    (ps : List (List Char)) :
    (number path n ps).flatMap
        (fun line => f line.text.toList ++ if line.terminated then [newline] else []) =
      [newline].intercalate (ps.map f) := by
  induction n, ps using number.induct with
  | case1 n => rfl
  | case2 n piece => simp [number]
  | case3 n piece rest more ih =>
    rw [number]
    · rw [List.flatMap_cons, ih]
      cases rest with
      | nil => exact absurd rfl more
      | cons next others => simp [List.intercalate]
    · exact more

theorem flatMap_lines (document : Document) :
    document.lines.flatMap
        (fun line => line.text.toList ++ if line.terminated then ['\n'] else []) =
      document.text.toList := by
  have joined := flatMap_number id '\n' document.path 1 (pieces document.text.toList)
  rwa [List.map_id, pieces_eq_splitOn, List.intercalate_splitOn, ← pieces_eq_splitOn] at joined

theorem oneLine_of_mem_lines {document : Document} {line : SourceLine}
    (h : line ∈ document.lines) : OneLine line.text := by
  obtain ⟨piece, hp, eq⟩ := text_mem_of_mem_number h
  rw [OneLine, eq, String.toList_ofList]
  exact newline_not_mem_pieces hp

theorem text_mem_of_mem_closeLast {terminated : Bool} {lines : List SourceLine}
    {line : SourceLine} (h : line ∈ closeLast terminated lines) :
    ∃ other ∈ lines, line.text = other.text := by
  induction lines using closeLast.induct with
  | case1 => simp [closeLast] at h
  | case2 last empty => simp [closeLast, empty] at h
  | case3 last filled =>
    simp only [closeLast, filled, if_false, List.mem_singleton] at h
    exact ⟨last, by simp, by rw [h]⟩
  | case4 first rest more ih =>
    rw [closeLast] at h
    · rcases List.mem_cons.1 h with rfl | h
      · exact ⟨line, by simp, rfl⟩
      · obtain ⟨other, ho, eq⟩ := ih h
        exact ⟨other, by simp [ho], eq⟩
    · exact more

theorem oneLine_of_mem_splice {document : Document} {terminated : Bool} {line : SourceLine}
    (h : line ∈ document.splice terminated) : OneLine line.text := by
  obtain ⟨other, ho, eq⟩ := text_mem_of_mem_closeLast h
  exact eq ▸ oneLine_of_mem_lines ho

end Document

/-! ## Directives -/

namespace Line

theorem oneLine_code {text code : String} (h : (classify text).code? = some code) :
    OneLine code := by
  unfold classify at h
  split at h
  · simp [code?] at h
  · split at h
    · simp [code?] at h
    · rename_i rest _ _ payload hp
      split at h
      · simp [code?] at h
      · split at h
        · simp only [code?, Option.some.injEq] at h
          subst h
          decide
        · simp only [code?, Option.some.injEq] at h
          subst h
          decide
        · simp only [code?, Option.some.injEq] at h
          subst h
          unfold payload? at hp
          split at hp
          · simp only [Option.some.injEq] at hp
            subst hp
            rw [OneLine, String.toList_ofList]
            intro hn
            simpa using List.all_eq_true.1 List.all_takeWhile _ hn
          · simp at hp

end Line

/-! ## Substitutions -/

theorem Marker.inside_subset {cs rest : List Char} {m : Marker}
    (h : marker? cs = some (m, rest)) : m.inside ⊆ cs ∧ rest ⊆ cs := by
  unfold marker? at h
  split at h
  · simp only [Option.map_eq_some_iff, Prod.mk.injEq, Prod.exists] at h
    obtain ⟨inside, _, hs, rfl, rfl⟩ := h
    rw [splitAtBrace?_eq hs]
    constructor <;> intro c hc <;> simp [hc]
  · simp only [Option.map_eq_some_iff, Prod.mk.injEq, Prod.exists] at h
    obtain ⟨inside, _, hs, rfl, rfl⟩ := h
    obtain ⟨closing, eq⟩ := Nesting.split?_eq hs
    rw [eq]
    constructor <;> intro c hc <;> simp [hc]
  · simp at h

namespace Segment

def expr? : Segment → Option String
  | .text _ => none
  | .generation expr | .emission expr => some expr

theorem expr?_marker {m : Marker} {expr : String} (h : m.segment.expr? = some expr) :
    expr = String.ofList m.inside := by
  unfold Marker.segment at h
  split at h
  · simp [expr?] at h
  · split at h <;> simpa [expr?] using h.symm

theorem expr?_of_mem_ofPending {pending : List Char} {s : Segment} (h : s ∈ ofPending pending) :
    s.expr? = none := by
  cases pending with
  | nil => simp [ofPending] at h
  | cons c rest =>
    simp only [ofPending, List.mem_singleton] at h
    rw [h, expr?]

theorem expr_subset_of_mem_scan {pending cs : List Char} {s : Segment} {expr : String}
    (h : s ∈ scan pending cs) (he : s.expr? = some expr) : expr.toList ⊆ cs := by
  induction pending, cs using scan.induct with
  | case1 pending =>
    rw [scan] at h
    simp [expr?_of_mem_ofPending h] at he
  | case2 pending c r m rest hm ih =>
    obtain ⟨inside, remaining⟩ := Marker.inside_subset hm
    rw [scan] at h
    split at h
    · rename_i m' rest' hm'
      obtain ⟨rfl, rfl⟩ : m = m' ∧ rest = rest' := by simpa [hm] using hm'
      rcases List.mem_append.1 h with h | h
      · simp [expr?_of_mem_ofPending h] at he
      · rcases List.mem_cons.1 h with rfl | h
        · rw [expr?_marker he, String.toList_ofList]
          exact inside
        · exact fun d hd => remaining (ih h hd)
    · rename_i hm'
      simp [hm] at hm'
  | case3 pending c r hm ih =>
    rw [scan] at h
    split at h
    · rename_i hm'
      simp [hm] at hm'
    · exact fun d hd => List.mem_cons_of_mem c (ih h hd)

theorem oneLine_expr {line expr : String} {s : Segment} (hl : OneLine line)
    (h : s ∈ segments line) (he : s.expr? = some expr) : OneLine expr :=
  fun hn => hl (expr_subset_of_mem_scan h he hn)

end Segment

/-! ## Encodings -/

theorem Text.mem_hexDigits {digit : Nat → Char} {width n : Nat} {c : Char}
    (h : c ∈ hexDigits digit width n) : ∃ k < 16, c = digit k := by
  induction width generalizing n with
  | zero => simp [hexDigits] at h
  | succ width ih =>
    rcases List.mem_append.1 h with h | h
    · exact ih h
    · exact ⟨n % 16, Nat.mod_lt _ (by decide), List.mem_singleton.1 h⟩

/-- Whatever a character is, no control character is written for it. -/
theorem Text.isControl_of_mem_literalChar {c d : Char} (h : d ∈ literalChar c) :
    isControl d = false := by
  have escaped {e : Char} (visible : isControl e = false) (he : d ∈ ['\\', e]) :
      isControl d = false := by
    rcases List.mem_cons.1 he with rfl | he
    · decide
    · rw [List.mem_singleton.1 he, visible]
  have digits : ∀ k < 16, isControl (upperHexDigit k) = false := by decide
  unfold literalChar at h
  split at h
  · exact escaped (by decide) h
  · split at h
    · exact escaped (by decide) h
    · split at h
      · exact escaped (by decide) h
      · split at h
        · exact escaped (by decide) h
        · split at h
          · exact escaped (by decide) h
          · split at h
            · rcases List.mem_cons.1 h with rfl | h
              · decide
              · rcases List.mem_cons.1 h with rfl | hex
                · decide
                · obtain ⟨k, hk, rfl⟩ := mem_hexDigits hex
                  exact digits k hk
            · rename_i plain
              rw [List.mem_singleton.1 h]
              exact eq_false_of_ne_true plain

theorem Text.isControl_of_mem_literal {s : String} {c : Char} (h : c ∈ (literal s).toList) :
    isControl c = false := by
  rw [literal, String.toList_ofList, literalChars, List.mem_cons, List.mem_append,
    List.mem_flatMap, List.mem_singleton] at h
  rcases h with rfl | ⟨d, -, hc⟩ | rfl
  · decide
  · exact isControl_of_mem_literalChar hc
  · decide

/-- A literal is written in one line, whichever of the two characters ends a line. -/
theorem Text.not_mem_literal {d : Char} (h : d = '\n' ∨ d = '\r') (s : String) :
    d ∉ (literal s).toList := by
  intro hd
  have visible := isControl_of_mem_literal hd
  rcases h with rfl | rfl <;> exact absurd visible (by decide)

theorem Text.oneLine_literal (s : String) : OneLine (literal s) :=
  not_mem_literal (.inl rfl) s

namespace Append

theorem oneLine_literal (text : String) : OneLine (Append.literal text).script := by
  refine OneLine.append (OneLine.append ?_ (Text.oneLine_literal text)) ?_ <;> decide

theorem oneLine_guarded {expr : String} (h : OneLine expr) :
    OneLine (Append.guarded expr).script := by
  refine OneLine.append (OneLine.append (OneLine.append (OneLine.append ?_ h) ?_)
    (Text.oneLine_literal _)) ?_ <;> decide

theorem mem_prepend {text : String} {rest : List Append} {expr : String} :
    Append.guarded expr ∈ prepend text rest ↔ Append.guarded expr ∈ rest := by
  unfold prepend
  split
  · simp
  · split <;> simp

end Append

namespace Encoding

/-- A guarded expression is that of a segment; in deferred mode it is evaluated in both modes. -/
theorem mem_segments_of_mem_appends {deferred : Bool} {tail : List Append} {row : List Segment}
    {expr : String} (h : Append.guarded expr ∈ appends deferred tail row) :
    Append.guarded expr ∈ tail ∨
      ∃ s ∈ row, s.expr? = some expr ∧ (deferred = true → s = .generation expr) := by
  induction row with
  | nil => exact .inl h
  | cons s rest ih =>
    have later (h : Append.guarded expr ∈ appends deferred tail rest) :
        Append.guarded expr ∈ tail ∨ ∃ other ∈ s :: rest, other.expr? = some expr ∧
          (deferred = true → other = .generation expr) := by
      rcases ih h with h | ⟨other, ho, he⟩
      · exact .inl h
      · exact .inr ⟨other, by simp [ho], he⟩
    cases s with
    | text t => exact later (Append.mem_prepend.1 h)
    | generation e =>
      rcases List.mem_cons.1 h with eq | h
      · rw [Append.guarded.injEq] at eq
        exact .inr ⟨.generation e, by simp, by rw [eq, Segment.expr?], fun _ => by rw [eq]⟩
      · exact later h
    | emission e =>
      rw [appends] at h
      split at h
      · exact later (Append.mem_prepend.1 h)
      · rename_i resolved
        rcases List.mem_cons.1 h with eq | h
        · rw [Append.guarded.injEq] at eq
          exact .inr ⟨.emission e, by simp, by rw [eq, Segment.expr?],
            fun deferred => absurd deferred resolved⟩
        · exact later h

theorem oneLine_script {deferred : Bool} {line : String} {terminated : Bool} (h : OneLine line) :
    OneLine (script deferred line terminated) := by
  refine OneLine.intercalate (by decide) fun part hp => ?_
  obtain ⟨append, ha, rfl⟩ := List.mem_map.1 hp
  cases append with
  | literal text => exact Append.oneLine_literal text
  | guarded expr =>
    refine Append.oneLine_guarded ?_
    rcases mem_segments_of_mem_appends ha with ha | ⟨s, hs, he, -⟩
    · cases terminated <;> simp [ending] at ha
    · exact Segment.oneLine_expr h hs he

end Encoding

end Stencil
