import Stencil.Proofs.Blocks

/-!
# Deferred documents

What a deferred run leaves for a later pass it copies as it stands, whatever is inside the markers.  A
document without directives of which nothing is evaluated in that mode comes out as its own text.
-/

namespace Stencil

open Script

/-! ## Markers -/

theorem Nesting.eq_brace_of_step {s : Nesting} {c : Char} (h : s.step c = none) : c = '\x7d' := by
  cases s with
  | code depth =>
    simp only [step] at h
    split at h
    · cases h
    · split at h
      · cases h
      · split at h
        · assumption
        · cases h
  | quoted depth =>
    simp only [step] at h
    split at h
    · cases h
    · split at h <;> cases h
  | escaped depth => cases h

/-- What is behind the inside of a marker begins with the brace that closes it. -/
theorem Nesting.eq_of_split? {s : Nesting} {cs inside rest : List Char}
    (h : s.split? cs = some (inside, rest)) : cs = inside ++ '\x7d' :: rest := by
  induction cs generalizing s inside with
  | nil => simp [split?] at h
  | cons c r ih =>
    rw [split?] at h
    split at h
    · rename_i closes
      simp only [Option.some.injEq, Prod.mk.injEq] at h
      obtain ⟨rfl, rfl⟩ := h
      rw [eq_brace_of_step closes]
      rfl
    · simp only [Option.map_eq_some_iff, Prod.mk.injEq, Prod.exists] at h
      obtain ⟨i, t, split, rfl, rfl⟩ := h
      rw [ih split]
      rfl

/-- The text of a marker as it stands in a line. -/
def Marker.source (m : Marker) : List Char :=
  (if m.always then ['$', '$', '\x7b'] else ['$', '\x7b']) ++ m.inside ++ ['\x7d']

theorem eq_of_marker? {cs rest : List Char} {m : Marker} (h : marker? cs = some (m, rest)) :
    cs = m.source ++ rest := by
  unfold marker? at h
  split at h
  · simp only [Option.map_eq_some_iff, Prod.mk.injEq, Prod.exists] at h
    obtain ⟨inside, t, split, rfl, rfl⟩ := h
    simp [Marker.source, splitAtBrace?_eq split]
  · simp only [Option.map_eq_some_iff, Prod.mk.injEq, Prod.exists] at h
    obtain ⟨inside, t, split, rfl, rfl⟩ := h
    simp [Marker.source, Nesting.eq_of_split? split]
  · cases h

/-- A marker that a deferred run leaves: not evaluated in this mode, and around some expression. -/
def Marker.IsLeft (m : Marker) : Prop := m.always = false ∧ m.inside.all Text.isBlank = false

instance (m : Marker) : Decidable m.IsLeft :=
  inferInstanceAs (Decidable (m.always = false ∧ m.inside.all Text.isBlank = false))

theorem Marker.IsLeft.segment {m : Marker} (h : m.IsLeft) :
    m.segment = .emission (String.ofList m.inside) := by
  simp [Marker.segment, h.1, h.2]

theorem Marker.IsLeft.rendered {m : Marker} (h : m.IsLeft) (value : String → String) :
    (m.segment.rendered true value).toList = m.source := by
  rw [h.segment]
  simp [Segment.rendered, Marker.source, h.1]

namespace Segment

/-- The markers of a line, those around white space among them. -/
def markers (cs : List Char) : List Marker :=
  match cs with
  | [] => []
  | c :: r =>
    match _h : marker? (c :: r) with
    | some (m, rest) => m :: markers rest
    | none => markers r
  termination_by cs.length
  decreasing_by
    · exact length_lt_of_marker? _h
    · simp

theorem join_ofPending (value : String → String) (pending : List Char) :
    (String.join ((ofPending pending).map (rendered true value))).toList = pending.reverse := by
  cases pending with
  | nil => rfl
  | cons c more => simp [ofPending, rendered]

theorem join_scan {cs : List Char} (value : String → String) (pending : List Char)
    (left : ∀ m ∈ markers cs, m.IsLeft) :
    (String.join ((scan pending cs).map (rendered true value))).toList = pending.reverse ++ cs := by
  fun_induction markers cs generalizing pending with
  | case1 => rw [scan_nil, join_ofPending, List.append_nil]
  | case2 c r m rest found ih =>
    have here := left m List.mem_cons_self
    have later := ih [] fun other ho => left other (List.mem_cons_of_mem m ho)
    rw [scan_marker found, List.map_append, String.join_append, String.toList_append,
      join_ofPending, List.map_cons, String.join_cons, String.toList_append, here.rendered, later,
      eq_of_marker? found]
    simp
  | case3 c r found ih =>
    rw [scan_plain found, ih (c :: pending) left]
    simp

theorem generation_not_mem_scan {cs : List Char} (pending : List Char)
    (left : ∀ m ∈ markers cs, m.IsLeft) (expr : String) : .generation expr ∉ scan pending cs := by
  have plain (pending : List Char) : .generation expr ∉ ofPending pending := by
    cases pending <;> simp [ofPending]
  fun_induction markers cs generalizing pending with
  | case1 =>
    rw [scan_nil]
    exact plain pending
  | case2 c r m rest found ih =>
    have later := ih [] fun other ho => left other (List.mem_cons_of_mem m ho)
    rw [scan_marker found, (left m List.mem_cons_self).segment]
    simp [plain, later]
  | case3 c r found ih =>
    rw [scan_plain found]
    exact ih (c :: pending) left

end Segment

/-! ## Lines and documents -/

namespace Encoding

/-- A line without markers that are evaluated in deferred mode or stand for their braces. -/
def IsLeft (line : String) : Prop := ∀ m ∈ Segment.markers line.toList, m.IsLeft

instance (line : String) : Decidable (IsLeft line) :=
  inferInstanceAs (Decidable (∀ m ∈ Segment.markers line.toList, m.IsLeft))

theorem IsLeft.rendered {line : String} (h : IsLeft line) (value : String → String)
    (terminated : Bool) :
    (rendered true value line terminated).toList =
      line.toList ++ if terminated then ['\n'] else [] := by
  rw [Encoding.rendered, String.toList_append, segments, Segment.join_scan value [] h]
  cases terminated <;> simp

/-- Nothing is evaluated where every marker is left. -/
theorem guarded_not_mem_rows {run : List (String × Bool)} {expr : String}
    (left : ∀ line ∈ run, IsLeft line.1) : Append.guarded expr ∉ rows true run := by
  intro h
  obtain ⟨line, hl, statement⟩ := List.mem_flatMap.1 h
  rcases mem_segments_of_mem_appends statement with he | ⟨s, hs, -, always⟩
  · cases terminated : line.2 <;> simp [ending, terminated] at he
  · exact Segment.generation_not_mem_scan [] (left line hl) expr (always rfl ▸ hs)

end Encoding

namespace Emitter

variable {document : Document} {limit : Nat}

/--
In deferred mode a document comes out as it is, if none of its markers is evaluated in this mode and
whatever stands in them is contained.
-/
theorem run_deferred (tree : FileTree) (spec : Spec) (maxAttempts : Nat)
    (quiet : HasQuietOpening document.path)
    (content : ∀ line ∈ document.lines, (Line.classify line.text).isContent = true)
    (contained : ∀ expr ∈ document.exprs, IsContained limit expr)
    (depth : limit + 5 ≤ Parser.depthLimit)
    (left : ∀ line ∈ document.lines, Encoding.IsLeft line.text) :
    ∃ emitter, compile tree spec none false document = .ok emitter ∧
      emitter.run ⟨maxAttempts, true, 0⟩ spec = (.ok ⟨document.text, [], 1⟩, spec) := by
  obtain ⟨emitter, functions, body, compiled, parsed, -, framed⟩ :=
    exists_body (K := fun _ => True) tree spec quiet content contained trivial
      (fun _ _ _ _ _ _ _ _ _ _ => trivial) depth
  have run := @run_of_adds document limit maxAttempts true spec emitter functions.reverse body id
    parsed framed fun below a ha s read => by
      cases read with
      | literal p q u => exact Eval.adds_literal
      | guarded read same p q u b p' q' u' b' w =>
        refine absurd ha (Encoding.guarded_not_mem_rows fun line hl => ?_)
        obtain ⟨source, hs, rfl⟩ := List.mem_map.1 hl
        exact left source (List.mem_filter.1 hs).1
  have text : String.join (document.lines.map fun line =>
      Encoding.rendered true id line.text line.terminated) = document.text := by
    rw [← String.toList_inj, String.toList_join, List.flatMap_map, ← Document.flatMap_lines]
    refine List.flatMap_congr fun line hl => ?_
    exact (left line hl).rendered id line.terminated
  rw [text] at run
  exact ⟨emitter, compiled, run⟩

theorem run_deferred_of_missing_fields :
    HasQuietOpening ⟨"page"⟩ ∧ ∃ emitter,
      compile ⟨[], []⟩ ⟨[]⟩ none false
        ⟨⟨"page"⟩, "a $\x7bxs.map(|x| x / 0)\x7d\n$$5 $\x7b name \x7d $\x7b"⟩ = .ok emitter ∧
      emitter.run ⟨100, true, 0⟩ ⟨[]⟩ =
        (.ok ⟨"a $\x7bxs.map(|x| x / 0)\x7d\n$$5 $\x7b name \x7d $\x7b", [], 1⟩, ⟨[]⟩) := by
  have quiet : HasQuietOpening ⟨"page"⟩ := hasQuietOpening (by simp)
  exact ⟨quiet, @run_deferred
    ⟨⟨"page"⟩, "a $\x7bxs.map(|x| x / 0)\x7d\n$$5 $\x7b name \x7d $\x7b"⟩ 43 ⟨[], []⟩ ⟨[]⟩ 100
    quiet (by decide +kernel) (by decide +kernel) (by decide) (by decide +kernel)⟩

/-- The other branch of the script holds what stands in the marker as code. -/
theorem run_deferred_of_parenthesis :
    OneLine "page" ∧
      (∀ line ∈ Document.lines ⟨⟨"page"⟩, "$\x7b)\x7d"⟩,
        (Line.classify line.text).isContent = true) ∧
      (∀ line ∈ Document.lines ⟨⟨"page"⟩, "$\x7b)\x7d"⟩, Encoding.IsLeft line.text) ∧
      ∃ emitter, compile ⟨[], []⟩ ⟨[]⟩ none false ⟨⟨"page"⟩, "$\x7b)\x7d"⟩ = .ok emitter ∧
        ∃ message location fragment, emitter.run ⟨100, true, 0⟩ ⟨[]⟩ =
          (.error (.syntaxError message location fragment), ⟨[]⟩) := by
  have content : ∀ line ∈ Document.lines ⟨⟨"page"⟩, "$\x7b)\x7d"⟩,
      (Line.classify line.text).isContent = true := by
    decide +kernel
  have compiled := @compile_of_kept ⟨[], []⟩ ⟨[]⟩ none false ⟨⟨"page"⟩, "$\x7b)\x7d"⟩
    fun line hl => Line.isInclude_eq_false_of_isContent (content line hl)
  refine ⟨by decide, content, by decide +kernel, _, compiled, ?_⟩
  apply run_of_unreadable
  decide +kernel

end Emitter

end Stencil
