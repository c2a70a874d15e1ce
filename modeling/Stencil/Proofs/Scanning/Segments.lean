import Stencil.Proofs.Scanning.Braces

/-!
# The scan of a content line

A content line can be split into its segments byte by byte, each cut out of it by its places.  The
scan cuts between two characters only and never comes below the braces that are open, so nothing
breaks it off; it goes forward in every round; and it comes to the segments of the characters.
-/

namespace Stencil

open Text

/-! ## Slices -/

/-- The part of a text between two places in bytes. -/
def slice (text : String) (first last : Nat) : Except Trap String :=
  if h : first ≤ last ∧ IsBoundary text first ∧ IsBoundary text last then
    .ok (text.extract ⟨⟨first⟩, h.2.1⟩ ⟨⟨last⟩, h.2.2⟩)
  else .error (.slice first last)

section

variable {line part : String} {before inside behind : List Char} {first last : Nat}

theorem slice_of_split (h : line.toList = before ++ inside ++ behind) :
    slice line (width before) (width (before ++ inside)) = .ok (String.ofList inside) := by
  have ends : width before ≤ width (before ++ inside) ∧ IsBoundary line (width before) ∧
      IsBoundary line (width (before ++ inside)) := by
    refine ⟨?_, isBoundary_width (h.trans (List.append_assoc ..)), isBoundary_width h⟩
    rw [width_append]
    exact Nat.le_add_right _ _
  rw [slice, dif_pos ends, extract_of_split h]

theorem slice_behind (h : line.toList = before ++ behind) :
    slice line (width before) (utf8 line).length = .ok (String.ofList behind) := by
  have whole : line.toList = before ++ behind ++ [] := h.trans (List.append_nil _).symm
  rw [length_utf8, h]
  exact slice_of_split whole

theorem isBoundary_of_slice (h : slice line first last = .ok part) : IsBoundary line first := by
  rw [slice] at h
  split_ifs at h with ends
  exact ends.2.1

end

/-! ## Markers -/

/-- A closed marker by its places: its first brace, its expression, its last brace. -/
structure Site where
  always : Bool
  opening : Nat
  first : Nat
  last : Nat
  deriving DecidableEq, Repr

namespace Site

/-- The marker that begins at a place, if one does. -/
def find (line : String) (place : Nat) : Except Trap (Option Site) := do
  let rest ← slice line place (utf8 line).length
  if (utf8 "$$\x7b").isPrefixOf (utf8 rest) then
    let behind ← slice line (place + 3) (utf8 line).length
    return ((utf8 behind).findIdx? (· == '\x7d'.toUInt8)).map fun n =>
      ⟨true, place + 2, place + 3, place + 3 + n⟩
  else if (utf8 "$\x7b").isPrefixOf (utf8 rest) then
    let last ← closing UInt8.toNat (utf8 line) (place + 1)
    return last.map fun last => ⟨false, place + 1, place + 2, last⟩
  else
    return none

/-- The segment of a marker; around nothing but white space it is its braces. -/
def segment (line : String) (site : Site) : Except Trap Segment := do
  let expr ← slice line site.first site.last
  if expr.toList.all isBlank then
    return .text (← slice line site.opening (site.last + 1))
  else if site.always then
    return .generation expr
  else
    return .emission expr

end Site

/-- The places of a marker that begins at `place`. -/
def Marker.site (place : Nat) (m : Marker) : Site :=
  if m.always then ⟨true, place + 2, place + 3, place + 3 + width m.inside⟩
  else ⟨false, place + 1, place + 2, place + 2 + width m.inside⟩

namespace Marker

theorem last_site (m : Marker) (before : List Char) :
    (m.site (width before)).last + 1 = width (before ++ m.source) := by
  have always : width ['$', '$', '\x7b'] = 3 := rfl
  have emitted : width ['$', '\x7b'] = 2 := rfl
  have closed : width ['\x7d'] = 1 := rfl
  rw [width_append, site, source, width_append, width_append]
  split
  · rw [always, closed]
    dsimp only
    omega
  · rw [emitted, closed]
    dsimp only
    omega

theorem exists_source (m : Marker) : ∃ r, m.source = '$' :: r := by
  unfold source
  split <;> exact ⟨_, rfl⟩

end Marker

section

variable {line : String} {before cs r rest : List Char} {m : Marker}

theorem isPrefixOf_utf8 (t : String) (cs : List Char) :
    (utf8 t).isPrefixOf (utf8 (String.ofList cs)) = decide (t.toList <+: cs) := by
  rw [Bool.eq_iff_iff, List.isPrefixOf_iff_prefix, utf8_prefix_iff, String.toList_ofList,
    decide_eq_true_iff]

/-- The first byte of a closing brace is that of the first closing brace. -/
theorem findIdx?_utf8 (cs : List Char) :
    (utf8 (String.ofList cs)).findIdx? (· == '\x7d'.toUInt8) =
      (splitAtBrace? cs).map fun found => width found.1 := by
  rw [utf8_ofList]
  induction cs with
  | nil => rfl
  | cons c cs ih =>
    rw [List.flatMap_cons, List.findIdx?_append, ih, splitAtBrace?]
    by_cases brace : c = '\x7d'
    · subst brace
      rfl
    · have none : (String.utf8EncodeChar c).findIdx? (· == '\x7d'.toUInt8) = none := by
        rw [List.findIdx?_eq_none_iff]
        intro b hb
        rw [beq_eq_false_iff_ne]
        rintro rfl
        exact brace (eq_of_mem_utf8EncodeChar (by decide) hb)
      rw [none, if_neg brace, Option.none_or, Option.map_map, Option.map_map]
      congr 1
      funext found
      simp [width, Nat.add_comm]

theorem find_always (h : line.toList = before ++ '$' :: '$' :: '\x7b' :: r) :
    Site.find line (width before) = .ok ((splitAtBrace? r).map fun found =>
      Marker.site (width before) ⟨true, found.1⟩) := by
  have behind : slice line (width before + 3) (utf8 line).length = .ok (String.ofList r) := by
    have place : width (before ++ ['$', '$', '\x7b']) = width before + 3 := width_append _ _
    rw [← place]
    exact slice_behind (h.trans (by simp))
  have begins : "$$\x7b".toList <+: '$' :: '$' :: '\x7b' :: r := ⟨r, rfl⟩
  rw [Site.find, slice_behind h]
  simp only [bind, Except.bind, isPrefixOf_utf8, begins, decide_true, if_true, behind]
  rw [findIdx?_utf8, Option.map_map]
  rfl

theorem find_emitted (h : line.toList = before ++ '$' :: '\x7b' :: r) :
    Site.find line (width before) = .ok (((Nesting.code 0).split? r).map fun found =>
      Marker.site (width before) ⟨false, found.1⟩) := by
  have one : width (before ++ ['$']) = width before + 1 := width_append _ _
  have closed : closing UInt8.toNat (utf8 line) (width before + 1) =
      .ok (((Nesting.code 0).split? r).map fun found => width before + 2 + width found.1) := by
    have found := closing_row Spelling.bytes (before ++ ['$']) r
    have whole : before ++ ['$'] ++ '\x7b' :: r = line.toList := by simp [h]
    have places (inside : List Char) :
        width (before ++ ['$'] ++ '\x7b' :: inside) = width before + 2 + width inside := by
      rw [List.append_cons, width_append, width_append, one]
      rfl
    simp only [whole, Spelling.row_bytes, Spelling.length_row_bytes, places] at found
    rw [← one]
    exact found
  have no : ¬ "$$\x7b".toList <+: '$' :: '\x7b' :: r := by simp
  have begins : "$\x7b".toList <+: '$' :: '\x7b' :: r := ⟨r, rfl⟩
  rw [Site.find, slice_behind h]
  simp only [bind, Except.bind, isPrefixOf_utf8, no, begins, decide_false, decide_true, if_true,
    Bool.false_eq_true, if_false, closed, pure, Except.pure, Option.map_map]
  rfl

theorem find_other (h : line.toList = before ++ cs)
    (always : ∀ r, cs ≠ '$' :: '$' :: '\x7b' :: r) (emitted : ∀ r, cs ≠ '$' :: '\x7b' :: r) :
    Site.find line (width before) = .ok none := by
  have no_always : ¬ "$$\x7b".toList <+: cs := fun h => h.elim fun r eq => always r eq.symm
  have no_emitted : ¬ "$\x7b".toList <+: cs := fun h => h.elim fun r eq => emitted r eq.symm
  rw [Site.find, slice_behind h]
  simp only [bind, Except.bind, isPrefixOf_utf8, no_always, no_emitted, decide_false,
    Bool.false_eq_true, if_false]
  rfl

/-- Where characters begin, the marker of the characters is found. -/
theorem find_of_split (h : line.toList = before ++ cs) :
    Site.find line (width before) =
      .ok ((marker? cs).map fun found => found.1.site (width before)) := by
  unfold marker?
  split
  · rw [find_always h, Option.map_map]
    rfl
  · rw [find_emitted h, Option.map_map]
    rfl
  · rename_i always emitted
    exact find_other h always emitted

theorem segment_site (h : line.toList = before ++ (m.source ++ rest)) :
    (m.site (width before)).segment line = .ok m.segment := by
  obtain ⟨dollars, site, source⟩ : ∃ dollars,
      m.site (width before) = ⟨m.always, width (before ++ dollars),
        width (before ++ dollars ++ ['\x7b']), width (before ++ dollars ++ ['\x7b'] ++ m.inside)⟩ ∧
      m.source = dollars ++ '\x7b' :: (m.inside ++ ['\x7d']) := by
    obtain ⟨always, inside⟩ := m
    cases always with
    | true =>
      exact ⟨['$', '$'], by simp only [Marker.site, width_append]; rfl, by simp [Marker.source]⟩
    | false =>
      exact ⟨['$'], by simp only [Marker.site, width_append]; rfl, by simp [Marker.source]⟩
  have whole : line.toList = before ++ dollars ++ ['\x7b'] ++ m.inside ++ '\x7d' :: rest := by
    simp [h, source]
  have inside := slice_of_split whole
  have braces : slice line (width (before ++ dollars))
      (width (before ++ dollars ++ ['\x7b'] ++ m.inside) + 1) =
        .ok (String.ofList ('\x7b' :: (m.inside ++ ['\x7d']))) := by
    have last : width (before ++ dollars ++ '\x7b' :: (m.inside ++ ['\x7d'])) =
        width (before ++ dollars ++ ['\x7b'] ++ m.inside) + 1 := by
      rw [List.append_cons, ← List.append_assoc, width_append _ ['\x7d']]
      rfl
    have closed : line.toList =
        before ++ dollars ++ '\x7b' :: (m.inside ++ ['\x7d']) ++ rest := by
      simp [h, source]
    rw [← last]
    exact slice_of_split closed
  rw [site, Site.segment, inside]
  simp only [bind, Except.bind, String.toList_ofList, braces, pure, Except.pure]
  unfold Marker.segment
  split_ifs <;> rfl

end

theorem bind_eq_ok_iff {ε α β : Type} {x : Except ε α} {f : α → Except ε β} {b : β} :
    (x >>= f) = .ok b ↔ ∃ a, x = .ok a ∧ f a = .ok b := by
  cases x <;> simp [bind, Except.bind]

/-- What is found is a marker of the characters. -/
theorem exists_of_find {line : String} {place : Nat} {site : Site}
    (h : Site.find line place = .ok (some site)) :
    ∃ (before : List Char) (m : Marker) (rest : List Char),
      line.toList = before ++ (m.source ++ rest) ∧ width before = place ∧ m.site place = site := by
  obtain ⟨_, whole, -⟩ := bind_eq_ok_iff.1 h
  obtain ⟨before, behind, split, rfl⟩ := isBoundary_iff.1 (isBoundary_of_slice whole)
  rw [find_of_split split] at h
  obtain ⟨⟨m, rest⟩, found, rfl⟩ := Option.map_eq_some_iff.1 (Except.ok.inj h)
  exact ⟨before, m, rest, by rw [split, eq_of_marker? found], rfl, rfl⟩

/-! ## The scan -/

/-- Where the scan of a line stands: its segments so far, the start of literal text, the next byte. -/
structure Scan where
  found : List Segment
  textStart : Nat
  position : Nat
  deriving DecidableEq, Repr

namespace Scan

def start : Scan := ⟨[], 0, 0⟩

def next (s : Scan) : Scan := { s with position := s.position + 1 }

/-- The literal text between two places, if there is any. -/
def text (line : String) (first last : Nat) : Except Trap (List Segment) := do
  if first < last then
    return [.text (← slice line first last)]
  else
    return []

def round (line : String) (s : Scan) : Except Trap (Turn Scan (List Segment)) := do
  match (utf8 line)[s.position]? with
  | none => return .done (s.found ++ (← text line s.textStart (utf8 line).length))
  | some b =>
    if b ≠ '$'.toUInt8 then
      return .again s.next
    else
      match ← Site.find line s.position with
      | none => return .again s.next
      | some site =>
        let literal ← text line s.textStart s.position
        let segment ← site.segment line
        return .again ⟨s.found ++ literal ++ [segment], site.last + 1, site.last + 1⟩

variable {line : String} {s t : Scan}

/-- A round goes on by one byte, or behind a marker that begins where it stands. -/
theorem round_again (h : s.round line = .ok (.again t)) :
    s.position < (utf8 line).length ∧ (t = s.next ∨ t.textStart = t.position ∧
      s.position < t.position ∧ IsBoundary line t.position) := by
  unfold round at h
  cases here : (utf8 line)[s.position]? with
  | none =>
    rw [here] at h
    obtain ⟨_, -, h⟩ := bind_eq_ok_iff.1 h
    cases h
  | some b =>
    refine ⟨(List.getElem?_eq_some_iff.1 here).1, ?_⟩
    simp only [here] at h
    split_ifs at h with other
    · cases h
      exact .inl rfl
    · obtain ⟨found, find, h⟩ := bind_eq_ok_iff.1 h
      cases found with
      | none =>
        cases h
        exact .inl rfl
      | some site =>
        obtain ⟨_, -, h⟩ := bind_eq_ok_iff.1 h
        obtain ⟨_, -, h⟩ := bind_eq_ok_iff.1 h
        cases h
        obtain ⟨before, m, rest, split, place, rfl⟩ := exists_of_find find
        obtain ⟨r, dollar⟩ := m.exists_source
        have filled : 0 < width m.source := width_pos (by simp [dollar])
        dsimp only
        rw [← place, m.last_site, width_append]
        refine .inr ⟨rfl, Nat.lt_add_of_pos_right filled, ?_⟩
        rw [← width_append]
        exact isBoundary_width (split.trans (List.append_assoc _ _ _).symm)

/-- The scan of a line in bytes. -/
def loop (line : String) : Loop Scan (List Segment) where
  size := (utf8 line).length
  position := position
  round := round line
  forward h := by
    obtain ⟨inside, rfl | ⟨-, later, -⟩⟩ := round_again h
    · exact ⟨inside, Nat.lt_succ_self _⟩
    · exact ⟨inside, later⟩

/-- Literal text began between two characters, and the scan has come from there to some place of the
line. -/
structure IsInside (line : String) (s : Scan) : Prop where
  boundary : IsBoundary line s.textStart
  read : s.textStart ≤ s.position
  inside : s.position ≤ (utf8 line).length

theorem isInside_start (line : String) : start.IsInside line where
  boundary := isBoundary_iff.2 ⟨[], line.toList, rfl, rfl⟩
  read := Nat.le_refl _
  inside := Nat.zero_le _

theorem IsInside.round (h : s.IsInside line) (again : s.round line = .ok (.again t)) :
    t.IsInside line := by
  obtain ⟨inside, rfl | ⟨same, -, boundary⟩⟩ := round_again again
  · exact ⟨h.boundary, Nat.le_succ_of_le h.read, inside⟩
  · obtain ⟨before, behind, split, place⟩ := isBoundary_iff.1 boundary
    exact ⟨same ▸ boundary, same.le, place ▸ width_le split⟩

/-! ### Agreement with the scan of the characters -/

variable {before pending rest : List Char}

theorem text_of_split (h : line.toList = before ++ pending.reverse ++ rest) :
    text line (width before) (width (before ++ pending.reverse)) =
      .ok (Segment.ofPending pending) := by
  rw [text, slice_of_split h]
  cases pending with
  | nil =>
    rw [List.reverse_nil, List.append_nil, if_neg (Nat.lt_irrefl _)]
    rfl
  | cons c more =>
    have filled : 0 < width (c :: more).reverse := width_pos (by simp)
    rw [width_append, if_pos (Nat.lt_add_of_pos_right filled)]
    rfl

/-- Every byte of another character than a dollar sign is literal text. -/
theorem run_literal {c : Char} (h : line.toList = before ++ c :: rest) (literal : c ≠ '$')
    (found : List Segment) (textStart : Nat) :
    (loop line).run ⟨found, textStart, width before⟩ =
      (loop line).run ⟨found, textStart, width (before ++ [c])⟩ := by
  have one : width [c] = (String.utf8EncodeChar c).length := by simp [width]
  rw [width_append, one]
  refine Loop.run_moved (fun k => (⟨found, textStart, width before + k⟩ : Scan)) _ fun k hk => ?_
  have other : (String.utf8EncodeChar c)[k] ≠ '$'.toUInt8 := fun dollar =>
    literal (eq_of_mem_utf8EncodeChar (by decide) (dollar ▸ List.getElem_mem hk))
  change round line _ = _
  simp only [round, getElem?_utf8 h hk]
  rw [if_pos other]
  rfl

theorem round_dollar {r : List Char} (h : line.toList = before ++ '$' :: r) (found : List Segment)
    (textStart : Nat) :
    round line ⟨found, textStart, width before⟩ = (do
      match (marker? ('$' :: r)).map fun found => found.1.site (width before) with
      | none => return .again ⟨found, textStart, width before + 1⟩
      | some site =>
        let literal ← text line textStart (width before)
        let segment ← site.segment line
        return .again ⟨found ++ literal ++ [segment], site.last + 1, site.last + 1⟩) := by
  have here : (utf8 line)[width before]? = some '$'.toUInt8 := getElem?_utf8 h (k := 0) (by decide)
  simp only [round, here, find_of_split h]
  rfl

theorem round_marker {m : Marker}
    (h : line.toList = before ++ pending.reverse ++ (m.source ++ rest))
    (closed : marker? (m.source ++ rest) = some (m, rest)) (found : List Segment) :
    round line ⟨found, width before, width (before ++ pending.reverse)⟩ =
      .ok (.again ⟨found ++ Segment.ofPending pending ++ [m.segment],
        width (before ++ pending.reverse ++ m.source),
        width (before ++ pending.reverse ++ m.source)⟩) := by
  obtain ⟨r, dollar⟩ := m.exists_source
  have literal := text_of_split h
  have segment := segment_site h
  have last := m.last_site (before ++ pending.reverse)
  rw [dollar, List.cons_append] at h closed
  rw [round_dollar h, closed]
  simp only [Option.map_some, literal, segment, bind, Except.bind, last]
  rfl

/-- The scan of the bytes finds what that of the characters finds. -/
theorem run_loop (before pending cs : List Char) (found : List Segment)
    (h : line.toList = before ++ pending.reverse ++ cs) :
    (loop line).run ⟨found, width before, width (before ++ pending.reverse)⟩ =
      .ok (found ++ Segment.scan pending cs) := by
  induction pending, cs using Segment.scan.induct generalizing before found with
  | case1 pending =>
    have ends : width (before ++ pending.reverse) = (utf8 line).length := by
      rw [length_utf8, h, List.append_nil]
    refine Loop.run_of_done ?_
    change round line _ = _
    simp only [round, List.getElem?_eq_none ends.ge, ← ends, text_of_split h, Segment.scan_nil]
    rfl
  | case2 pending c r m rest closed ih =>
    rw [Segment.scan_marker closed]
    rw [eq_of_marker? closed] at h closed
    rw [Loop.run_of_again (round_marker h closed found)]
    have later := ih (before ++ pending.reverse ++ m.source)
      (found ++ Segment.ofPending pending ++ [m.segment]) (by simp [h])
    rw [List.reverse_nil, List.append_nil] at later
    rw [later]
    simp
  | case3 pending c r unmarked ih =>
    rw [Segment.scan_plain unmarked]
    have later := ih before found (by simp [h])
    rw [List.reverse_cons, ← List.append_assoc] at later
    rw [← later]
    by_cases dollar : c = '$'
    · subst dollar
      refine Loop.run_of_again ((round_dollar h found _).trans ?_)
      rw [unmarked, width_append _ ['$']]
      rfl
    · exact run_literal h dollar found _

/--
Nothing breaks off the scan of a line in bytes, nor the search for the brace that closes one of the
line: no slice leaves the line or cuts a character in two, and no depth falls below zero.  Both go
forward in every round and end.  Literal text begins between two characters; behind the brace that
it starts at, the search is inside of some brace; and what it finds is the byte of the brace that it
finds over the characters.  The scan comes to the segments of the line.
-/
theorem runs_bytes (line : String) :
    (∃ visited, (loop line).Runs start visited (segments line) ∧
      (visited.Pairwise fun s t => s.position < t.position) ∧
      visited.length ≤ (utf8 line).length + 1 ∧ ∀ s ∈ visited, s.IsInside line) ∧
    ∀ opening, (utf8 line)[opening]? = some '\x7b'.toUInt8 →
      ∃ visited found, (Search.loop UInt8.toNat (utf8 line)).Runs (.start opening) visited found ∧
        (visited.Pairwise fun s t => s.position < t.position) ∧
        visited.length ≤ (utf8 line).length + 1 ∧ (∀ s ∈ visited.tail, 0 < s.depth) ∧
        closing UInt8.toNat (utf8 line) opening = .ok found ∧
        (∀ last ∈ found, opening < last ∧ (utf8 line)[last]? = some '\x7d'.toUInt8 ∧
          IsBoundary line last ∧ IsBoundary line (last + 1)) ∧
        ∃ number answer, line.toList[number]? = some '\x7b' ∧ offset line number = opening ∧
          closing Char.toNat line.toList number = .ok answer ∧
          found = answer.map (offset line) := by
  constructor
  · have run := run_loop [] [] line.toList [] (show line.toList = _ from rfl)
    obtain ⟨visited, runs⟩ := Loop.exists_runs run
    exact ⟨visited, runs, runs.increasing, runs.length_le,
      runs.all (isInside_start line) fun _ _ h again => h.round again⟩
  · intro opening brace
    obtain ⟨before, behind, split, rfl⟩ := exists_split_of_getElem? (c := '\x7b') (by decide) brace
    obtain ⟨answer, characters, bytes, inside⟩ := closing_utf8 split
    obtain ⟨visited, runs⟩ := Loop.exists_runs bytes
    refine ⟨visited, _, runs, runs.increasing, runs.length_le.trans ?_,
      Search.depth_pos brace rfl runs, bytes, fun place mem => ?_, before.length, answer, ?_, ?_,
      characters, rfl⟩
    · exact Nat.succ_le_succ (Nat.sub_le _ _)
    · obtain ⟨last, found, rfl⟩ := Option.map_eq_some_iff.1 mem
      obtain ⟨expr, rest, whole, rfl⟩ := inside last found
      have behind : width (before ++ '\x7b' :: expr ++ ['\x7d']) =
          width (before ++ '\x7b' :: expr) + 1 := width_append _ _
      rw [offset_of_split whole, ← behind]
      refine ⟨?_, getElem?_utf8 whole (k := 0) (by decide), isBoundary_width whole,
        isBoundary_width (whole.trans (List.append_cons _ _ _))⟩
      rw [width_append]
      exact Nat.lt_add_of_pos_right (width_pos (List.cons_ne_nil _ _))
    · rw [split, List.getElem?_append_right (Nat.le_refl _), Nat.sub_self, List.getElem?_cons_zero]
    · exact offset_of_split split

/-- A backslash skips the first of the two bytes of a letter, and the search goes on inside of it. -/
theorem runs_bytes_of_escaped_letter :
    (utf8 "$\x7b\"\\é\x7d\"\x7d")[1]? = some '\x7b'.toUInt8 ∧
      (Search.loop UInt8.toNat (utf8 "$\x7b\"\\é\x7d\"\x7d")).round ⟨1, true, 3⟩ =
        .ok (.again ⟨1, true, 5⟩) ∧
      ¬ IsBoundary "$\x7b\"\\é\x7d\"\x7d" 5 ∧
      (∃ visited, (loop "$\x7b\"\\é\x7d\"\x7d").Runs start visited [.emission "\"\\é\x7d\""] ∧
        visited.Pairwise fun s t => s.position < t.position) ∧
      ∃ visited, (Search.loop UInt8.toNat (utf8 "$\x7b\"\\é\x7d\"\x7d")).Runs (.start 1) visited
          (some 8) ∧
        (visited.Pairwise fun s t => s.position < t.position) ∧ (∀ s ∈ visited.tail, 0 < s.depth) ∧
        ∃ number answer, "$\x7b\"\\é\x7d\"\x7d".toList[number]? = some '\x7b' ∧
          offset "$\x7b\"\\é\x7d\"\x7d" number = 1 ∧
          closing Char.toNat "$\x7b\"\\é\x7d\"\x7d".toList number = .ok answer ∧
          some 8 = answer.map (offset "$\x7b\"\\é\x7d\"\x7d") := by
  have brace : (utf8 "$\x7b\"\\é\x7d\"\x7d")[1]? = some '\x7b'.toUInt8 := by decide
  have split : segments "$\x7b\"\\é\x7d\"\x7d" = [.emission "\"\\é\x7d\""] := by decide +kernel
  have closed : closing UInt8.toNat (utf8 "$\x7b\"\\é\x7d\"\x7d") 1 = .ok (some 8) := by
    decide +kernel
  obtain ⟨⟨visited, runs, scanned, -, -⟩, searches⟩ := runs_bytes "$\x7b\"\\é\x7d\"\x7d"
  obtain ⟨places, found, search, increasing, -, deep, bytes, -, number, answer, characters⟩ :=
    searches 1 brace
  obtain rfl : some 8 = found := Except.ok.inj (closed.symm.trans bytes)
  exact ⟨brace, rfl, by decide +kernel, ⟨visited, split ▸ runs, scanned⟩, places, search,
    increasing, deep, number, answer, characters⟩

end Scan

end Stencil
