import Mathlib.Data.List.DropRight
import Mathlib.Logic.IsEmpty.Basic
import Stencil.Line

/-!
# The grammar of lines

A directive is a marker with white space around it and code behind it that stays on one line; an
include has the name of a document in parentheses for its code.  A text can be laid out so in more
than one way, but the way with the most white space in front of the code and then the longest code is
one alone, and it is the one that decides what the line is.
-/

namespace Stencil

open Text

namespace Text

theorem trimLeft_append_of_all {space : List Char} (blank : space.all isBlank = true)
    (rest : List Char) : trimLeft (space ++ rest) = trimLeft rest := by
  rw [trimLeft, trimLeft, List.dropWhile_append, List.dropWhile_eq_nil_iff.2 (List.all_eq_true.1 blank)]
  rfl

theorem trimLeft_of_all {space : List Char} (blank : space.all isBlank = true) :
    trimLeft space = [] :=
  List.dropWhile_eq_nil_iff.2 (List.all_eq_true.1 blank)

theorem trimLeft_append (cs : List Char) {rest : List Char} (h : trimLeft cs ≠ []) :
    trimLeft (cs ++ rest) = trimLeft cs ++ rest := by
  rw [trimLeft, List.dropWhile_append, if_neg (by simpa [trimLeft] using h)]
  rfl

theorem trimLeft_trimLeft (cs : List Char) : trimLeft (trimLeft cs) = trimLeft cs :=
  List.dropWhile_idempotent isBlank cs

theorem trimRight_append_of_all {space : List Char} (blank : space.all isBlank = true)
    (cs : List Char) : trimRight (cs ++ space) = trimRight cs := by
  rw [trimRight, trimRight, List.reverse_append]
  congr 1
  exact trimLeft_append_of_all (by rwa [List.all_reverse]) cs.reverse

theorem trimRight_eq_iff {cs trimmed : List Char} {last : Char} (visible : isBlank last = false) :
    trimRight cs = trimmed ++ [last] ↔
      ∃ behind, behind.all isBlank = true ∧ cs = trimmed ++ [last] ++ behind := by
  constructor
  · intro h
    refine ⟨(cs.reverse.takeWhile isBlank).reverse, by rw [List.all_reverse]; exact List.all_takeWhile, ?_⟩
    rw [← h, trimRight, ← List.reverse_append, List.takeWhile_append_dropWhile, List.reverse_reverse]
  · rintro ⟨behind, blank, rfl⟩
    rw [trimRight_append_of_all blank, trimRight]
    simp [visible]

end Text

namespace Line

theorem after?_eq_some_iff {start cs rest : List Char} :
    after? start cs = some rest ↔ cs = start ++ rest := by
  induction start generalizing cs with
  | nil => simp [after?, eq_comm]
  | cons p ps ih =>
    cases cs with
    | nil => simp [after?]
    | cons c cs =>
      by_cases h : p = c
      · simp [after?, h, ih]
      · simp [after?, h, Ne.symm h]

/-! ## Layouts -/

/-- A text laid out as a directive. -/
structure Layout (text : List Char) where
  before : List Char
  between : List Char
  code : List Char
  behind : List Char
  blank_before : before.all isBlank = true
  blank_between : between.all isBlank = true
  blank_behind : behind.all isBlank = true
  one_line : '\n' ∉ code
  whole : text = before ++ ['/', '/', '!'] ++ between ++ code ++ behind

namespace Layout

variable {text : List Char}

/--
No layout has more white space in front of its code, and none with the same white space a longer code.
The white space in front of the marker is the same in all.
-/
def IsLongest (l : Layout text) : Prop :=
  ∀ other : Layout text, other.between.length < l.between.length ∨
    other.between.length = l.between.length ∧ other.code.length ≤ l.code.length

end Layout

/-- A text laid out as an include of the document that `expr` names. -/
def Includes (text expr : List Char) : Prop :=
  '\n' ∉ expr ∧ ∃ before between behind, before.all isBlank = true ∧ between.all isBlank = true ∧
    behind.all isBlank = true ∧
    text = before ++ ['/', '/', '!'] ++ between ++
      (['i', 'n', 'c', 'l', 'u', 'd', 'e', '('] ++ expr ++ [')']) ++ behind

theorem afterMarker?_of_eq {text before between rest : List Char}
    (blank_before : before.all isBlank = true) (blank_between : between.all isBlank = true)
    (whole : text = before ++ ['/', '/', '!'] ++ between ++ rest) :
    afterMarker? text = some (trimLeft rest) := by
  have marker : trimLeft (['/', '/', '!'] ++ (between ++ rest)) = ['/', '/', '!'] ++ (between ++ rest) :=
    rfl
  rw [afterMarker?, whole, List.append_assoc, List.append_assoc,
    trimLeft_append_of_all blank_before, marker, after?_eq_some_iff.2 rfl, Option.map_some,
    trimLeft_append_of_all blank_between]

theorem exists_of_afterMarker? {text rest : List Char} (h : afterMarker? text = some rest) :
    trimLeft rest = rest ∧ ∃ before between, before.all isBlank = true ∧
      between.all isBlank = true ∧ text = before ++ ['/', '/', '!'] ++ between ++ rest := by
  simp only [afterMarker?, Option.map_eq_some_iff, after?_eq_some_iff] at h
  obtain ⟨r, marked, rfl⟩ := h
  refine ⟨trimLeft_trimLeft r, text.takeWhile isBlank, r.takeWhile isBlank, List.all_takeWhile,
    List.all_takeWhile, ?_⟩
  have parts := text.takeWhile_append_dropWhile (p := isBlank)
  change text.takeWhile isBlank ++ trimLeft text = text at parts
  rw [marked] at parts
  rw [List.append_assoc, List.append_assoc, trimLeft, List.takeWhile_append_dropWhile, parts]

/-! ## Code -/

/-- Behind the white space, the code goes up to the end of its line, and white space follows. -/
theorem payload?_trimLeft {code behind : List Char} (one_line : '\n' ∉ code)
    (blank : behind.all isBlank = true) :
    payload? (trimLeft (code ++ behind)) =
      some ((trimLeft (code ++ behind)).takeWhile (· ≠ '\n')) := by
  rw [payload?, if_pos]
  have split : ∃ front back, trimLeft (code ++ behind) = front ++ back ∧ '\n' ∉ front ∧
      back.all isBlank = true := by
    by_cases h : trimLeft code = []
    · refine ⟨[], [], ?_, by simp, rfl⟩
      rw [trimLeft_append_of_all (List.all_eq_true.2 (List.dropWhile_eq_nil_iff.1 h)),
        trimLeft_of_all blank]
      rfl
    · exact ⟨trimLeft code, behind, trimLeft_append code h,
        fun mem => one_line ((List.dropWhile_sublist isBlank).subset mem), blank⟩
  obtain ⟨front, back, eq, one_line, blank⟩ := split
  rw [eq, List.dropWhile_append, List.dropWhile_eq_nil_iff.2 fun c hc => ?_]
  · rw [List.all_eq_true] at blank ⊢
    exact fun c hc => blank c ((List.dropWhile_sublist _).subset hc)
  · simpa using ne_of_mem_of_not_mem hc one_line

theorem payload?_eq_some_iff {rest code : List Char} :
    payload? rest = some code ↔ code = rest.takeWhile (· ≠ '\n') ∧
      (rest.dropWhile (· ≠ '\n')).all isBlank = true := by
  unfold payload?
  split
  case isTrue blank =>
    refine ⟨fun h => ⟨(Option.some.inj h).symm, blank⟩, fun h => congrArg some h.1.symm⟩
  case isFalse filled =>
    exact ⟨fun h => (Option.some_ne_none _ h.symm).elim, fun h => absurd h.2 filled⟩

namespace Layout

variable {text : List Char}

/-- The layout of what stands behind the marker and the white space. -/
theorem exists_of_payload? {rest code : List Char} (marked : afterMarker? text = some rest)
    (payload : payload? rest = some code) :
    ∃ l : Layout text, l.code = code ∧ l.code ++ l.behind = rest ∧ trimLeft rest = rest := by
  obtain ⟨trimmed, before, between, blank_before, blank_between, whole⟩ :=
    exists_of_afterMarker? marked
  obtain ⟨rfl, blank⟩ := payload?_eq_some_iff.1 payload
  have parts := rest.takeWhile_append_dropWhile (p := (· ≠ '\n'))
  have one_line : '\n' ∉ rest.takeWhile (· ≠ '\n') := by
    intro mem
    simpa using List.mem_takeWhile_imp mem
  refine ⟨⟨before, between, rest.takeWhile (· ≠ '\n'), rest.dropWhile (· ≠ '\n'), blank_before,
    blank_between, blank, one_line, ?_⟩, rfl, parts, trimmed⟩
  rw [List.append_assoc _ (rest.takeWhile _), parts, whole]

theorem afterMarker?_eq (l : Layout text) :
    afterMarker? text = some (trimLeft (l.code ++ l.behind)) :=
  afterMarker?_of_eq l.blank_before l.blank_between (l.whole.trans (List.append_assoc ..))

/-- A layout whose code begins with no white space has the most white space in front of its code. -/
theorem between_le (l other : Layout text)
    (trimmed : trimLeft (l.code ++ l.behind) = l.code ++ l.behind) :
    other.between.length ≤ l.between.length ∧
      (other.between.length = l.between.length →
        other.code ++ other.behind = l.code ++ l.behind) := by
  have behind_marker (l : Layout text) :
      trimLeft text = ['/', '/', '!'] ++ (l.between ++ (l.code ++ l.behind)) := by
    have whole : text = l.before ++ (['/', '/', '!'] ++ (l.between ++ (l.code ++ l.behind))) := by
      simpa using l.whole
    exact (congrArg trimLeft whole).trans (trimLeft_append_of_all l.blank_before _)
  have same : other.between ++ (other.code ++ other.behind) =
      l.between ++ (l.code ++ l.behind) :=
    List.append_cancel_left ((behind_marker other).symm.trans (behind_marker l))
  have rest : trimLeft (other.code ++ other.behind) = l.code ++ l.behind := by
    rw [← trimmed]
    exact Option.some.inj (other.afterMarker?_eq.symm.trans l.afterMarker?_eq)
  have shorter : (l.code ++ l.behind).length ≤ (other.code ++ other.behind).length := by
    rw [← rest]
    exact (List.dropWhile_sublist isBlank).length_le
  have lengths := congrArg List.length same
  simp only [List.length_append] at lengths shorter
  refine ⟨by omega, fun equal => ?_⟩
  exact (List.append_inj same equal).2

/-- The code of a layout reaches at most to the end of its line. -/
theorem takeWhile_eq (l : Layout text) :
    (l.code ++ l.behind).takeWhile (· ≠ '\n') = l.code ++ l.behind.takeWhile (· ≠ '\n') := by
  rw [List.takeWhile_append_of_pos]
  simpa using fun c hc => ne_of_mem_of_not_mem hc l.one_line

theorem exists_isLongest (l : Layout text) : ∃ longest : Layout text, longest.IsLongest := by
  obtain ⟨longest, code, whole, trimmed⟩ :=
    exists_of_payload? l.afterMarker?_eq (payload?_trimLeft l.one_line l.blank_behind)
  rw [← whole] at code trimmed
  refine ⟨longest, fun other => ?_⟩
  obtain ⟨le, same⟩ := longest.between_le other trimmed
  rcases Nat.lt_or_eq_of_le le with lt | eq
  · exact .inl lt
  · rw [code, ← same eq, other.takeWhile_eq, List.length_append]
    exact .inr ⟨eq, by omega⟩

/-- The longest layout is the one that is found. -/
theorem IsLongest.found {l : Layout text} (h : l.IsLongest) :
    afterMarker? text = some (l.code ++ l.behind) ∧ payload? (l.code ++ l.behind) = some l.code := by
  have payload := payload?_trimLeft l.one_line l.blank_behind
  obtain ⟨found, code, whole, trimmed⟩ := exists_of_payload? l.afterMarker?_eq payload
  rw [← whole] at code trimmed payload
  obtain ⟨le, same⟩ := found.between_le l trimmed
  have longer : found.between.length = l.between.length ∧ found.code.length ≤ l.code.length := by
    rcases h found with lt | longer
    · omega
    · exact longer
  have rest := same longer.1.symm
  have lengths := congrArg List.length code
  rw [← rest, l.takeWhile_eq, List.length_append] at lengths
  have ends : l.behind.takeWhile (· ≠ '\n') = [] := List.length_eq_zero_iff.1 (by omega)
  rw [rest]
  refine ⟨l.afterMarker?_eq.trans (congrArg some whole.symm), payload.trans (congrArg some ?_)⟩
  rw [← rest, l.takeWhile_eq, ends, List.append_nil]

end Layout

/-! ## Includes -/

/-- What stands in the parentheses ends before the last one, which only white space follows. -/
theorem includeTarget?_eq_some_iff {rest expr : List Char} :
    includeTarget? rest = some expr ↔ '\n' ∉ expr ∧ ∃ behind, behind.all isBlank = true ∧
      rest = ['i', 'n', 'c', 'l', 'u', 'd', 'e', '('] ++ expr ++ [')'] ++ behind := by
  have closed_iff {inner : List Char} : inner.reverse.dropWhile isBlank = ')' :: expr.reverse ↔
      ∃ behind, behind.all isBlank = true ∧ inner = expr ++ [')'] ++ behind := by
    rw [← trimRight_eq_iff rfl, trimRight, ← List.reverse_inj]
    simp
  simp only [includeTarget?, Option.bind_eq_bind, Option.bind_eq_some_iff, after?_eq_some_iff]
  constructor
  · rintro ⟨inner, rfl, h⟩
    split at h
    case h_1 reversed closed =>
      split at h
      · cases h
      · rename_i one_line
        obtain rfl := Option.some.inj h
        obtain ⟨behind, blank, rfl⟩ := closed_iff.1 (by rw [closed, List.reverse_reverse])
        exact ⟨by simpa using one_line, behind, blank, by simp⟩
    case h_2 => cases h
  · rintro ⟨one_line, behind, blank, rfl⟩
    refine ⟨expr ++ [')'] ++ behind, by simp, ?_⟩
    rw [closed_iff.2 ⟨behind, blank, rfl⟩]
    simp [one_line]

theorem includeTarget?_append (rest : List Char) {space : List Char}
    (blank : space.all isBlank = true) : includeTarget? (rest ++ space) = includeTarget? rest := by
  have iff (text expr : List Char) : includeTarget? text = some expr ↔ '\n' ∉ expr ∧
      trimRight text = ['i', 'n', 'c', 'l', 'u', 'd', 'e', '('] ++ expr ++ [')'] := by
    rw [includeTarget?_eq_some_iff, trimRight_eq_iff rfl]
  refine Option.ext fun expr => ?_
  rw [iff, iff, trimRight_append_of_all blank]

theorem Includes.found {text expr : List Char} (h : Includes text expr) :
    ∃ rest, afterMarker? text = some rest ∧ includeTarget? rest = some expr := by
  obtain ⟨one_line, before, between, behind, blank_before, blank_between, blank_behind, whole⟩ := h
  refine ⟨_, afterMarker?_of_eq blank_before blank_between (whole.trans (List.append_assoc ..)), ?_⟩
  exact includeTarget?_eq_some_iff.2 ⟨one_line, behind, blank_behind, rfl⟩

theorem Includes.unique {text expr expr' : List Char} (h : Includes text expr)
    (h' : Includes text expr') : expr = expr' := by
  obtain ⟨rest, marked, target⟩ := h.found
  obtain ⟨rest', marked', target'⟩ := h'.found
  obtain rfl := Option.some.inj (marked.symm.trans marked')
  exact Option.some.inj (target.symm.trans target')

/-- An include is laid out as a directive too. -/
theorem Includes.nonempty_layout {text expr : List Char} (h : Includes text expr) :
    Nonempty (Layout text) := by
  obtain ⟨one_line, before, between, behind, blank_before, blank_between, blank_behind, whole⟩ := h
  exact ⟨⟨before, between, _, behind, blank_before, blank_between, blank_behind, by simpa, whole⟩⟩

theorem includes_iff_of_afterMarker? {text rest expr : List Char}
    (marked : afterMarker? text = some rest) :
    Includes text expr ↔ includeTarget? rest = some expr := by
  constructor
  · intro h
    obtain ⟨rest', marked', target⟩ := h.found
    obtain rfl := Option.some.inj (marked.symm.trans marked')
    exact target
  · intro target
    obtain ⟨one_line, behind, blank_behind, eq⟩ := includeTarget?_eq_some_iff.1 target
    obtain ⟨-, before, between, blank_before, blank_between, whole⟩ := exists_of_afterMarker? marked
    refine ⟨one_line, before, between, behind, blank_before, blank_between, blank_behind, ?_⟩
    rw [whole, eq, ← List.append_assoc (before ++ _ ++ _)]

/-! ## Kinds of lines -/

/-- What the grammar makes of a text. -/
inductive Means (raw : String) : Line → Prop
  | content : IsEmpty (Layout raw.toList) → Means raw (.content raw)
  | include {expr : String} : Includes raw.toList expr.toList → Means raw (.include expr)
  | captureOpen (l : Layout raw.toList) : l.IsLongest → (∀ expr, ¬ Includes raw.toList expr) →
      trimChars l.code = ['('] → Means raw .captureOpen
  | captureClose (l : Layout raw.toList) : l.IsLongest → (∀ expr, ¬ Includes raw.toList expr) →
      trimChars l.code = [')'] → Means raw .captureClose
  | directive (l : Layout raw.toList) : l.IsLongest → (∀ expr, ¬ Includes raw.toList expr) →
      trimChars l.code ≠ ['('] → trimChars l.code ≠ [')'] →
      Means raw (.directive (String.ofList l.code))

theorem classify_of_isEmpty {raw : String} (h : IsEmpty (Layout raw.toList)) :
    classify raw = .content raw := by
  unfold classify
  split
  · rfl
  · split
    · rfl
    · rename_i marked _ _ payload
      obtain ⟨l, -⟩ := Layout.exists_of_payload? marked payload
      exact h.elim l

/-- The line that a code is when it is no include. -/
def ofCode (code : List Char) : Line :=
  if trimChars code = ['('] then .captureOpen
  else if trimChars code = [')'] then .captureClose
  else .directive (String.ofList code)

theorem classify_of_payload? {raw : String} {rest code : List Char}
    (marked : afterMarker? raw.toList = some rest) (payload : payload? rest = some code) :
    classify raw =
      (includeTarget? rest).elim (ofCode code) fun expr => .include (String.ofList expr) := by
  simp only [classify, marked, payload]
  cases includeTarget? rest with
  | some expr => rfl
  | none =>
    dsimp only [Option.elim_none]
    unfold ofCode
    split
    case h_1 opened => rw [if_pos opened]
    case h_2 closed => rw [if_neg (by simp [closed]), if_pos closed]
    case h_3 unopened unclosed => rw [if_neg unopened, if_neg unclosed]

theorem means_classify (raw : String) : Means raw (classify raw) := by
  rcases isEmpty_or_nonempty (Layout raw.toList) with none | some
  · rw [classify_of_isEmpty none]
    exact .content none
  · obtain ⟨l, longest⟩ := some.elim Layout.exists_isLongest
    have includes_iff (expr) : Includes raw.toList expr ↔ _ :=
      includes_iff_of_afterMarker? longest.found.1
    rw [classify_of_payload? longest.found.1 longest.found.2]
    cases target : includeTarget? (l.code ++ l.behind) with
    | some expr => exact .include (by simpa using (includes_iff expr).2 target)
    | none =>
      have other (expr) : ¬ Includes raw.toList expr := by simp [includes_iff, target]
      dsimp only [Option.elim_none, ofCode]
      split_ifs with opened closed
      · exact .captureOpen l longest other opened
      · exact .captureClose l longest other closed
      · exact .directive l longest other opened closed

/-- A line that is laid out as no include is what its longest code makes of it. -/
theorem Layout.IsLongest.classify_eq {raw : String} {l : Layout raw.toList} (longest : l.IsLongest)
    (other : ∀ expr, ¬ Includes raw.toList expr) : classify raw = ofCode l.code := by
  have untargeted : includeTarget? (l.code ++ l.behind) = none :=
    Option.eq_none_iff_forall_ne_some.2 fun expr target =>
      other expr ((includes_iff_of_afterMarker? longest.found.1).2 target)
  rw [classify_of_payload? longest.found.1 longest.found.2, untargeted, Option.elim_none]

theorem Means.classify_eq {raw : String} {line : Line} (h : Means raw line) :
    classify raw = line := by
  cases h with
  | content none => exact classify_of_isEmpty none
  | «include» found =>
    obtain ⟨l, longest⟩ := found.nonempty_layout.elim Layout.exists_isLongest
    rw [classify_of_payload? longest.found.1 longest.found.2,
      (includes_iff_of_afterMarker? longest.found.1).1 found, Option.elim_some, String.ofList_toList]
  | captureOpen l longest other opened =>
    rw [longest.classify_eq other, ofCode, if_pos opened]
  | captureClose l longest other closed =>
    rw [longest.classify_eq other, ofCode, if_neg (by simp [closed]), if_pos closed]
  | directive l longest other unopened unclosed =>
    rw [longest.classify_eq other, ofCode, if_neg unopened, if_neg unclosed]

/-! ## Lines without newlines -/

theorem Layout.eq_of_isLongest {text : List Char} {l : Layout text} (longest : l.IsLongest)
    (one_line : '\n' ∉ text) : l.behind = [] ∧ trimLeft l.code = l.code := by
  have trimmed := (exists_of_afterMarker? longest.found.1).1
  obtain ⟨code, -⟩ := payload?_eq_some_iff.1 longest.found.2
  have none : l.behind = [] := by
    rw [l.takeWhile_eq, List.takeWhile_eq_self_iff.2] at code
    · simpa using code
    · intro c behind
      have mem_text : c ∈ text := by
        have whole := congrArg (c ∈ ·) l.whole
        simp only [eq_iff_iff, List.mem_append] at whole
        exact whole.2 (.inr behind)
      exact decide_eq_true (ne_of_mem_of_not_mem mem_text one_line)
  exact ⟨none, by simpa [none] using trimmed⟩

theorem afterMarker?_append {cs rest : List Char} (marked : afterMarker? cs = some rest)
    (space : List Char) : afterMarker? (cs ++ space) = some (trimLeft (rest ++ space)) := by
  obtain ⟨-, before, between, blank_before, blank_between, whole⟩ := exists_of_afterMarker? marked
  exact afterMarker?_of_eq blank_before blank_between (by rw [whole, List.append_assoc])

theorem trimChars_append (code : List Char) {space : List Char} (blank : space.all isBlank = true) :
    trimChars (trimLeft (code ++ space)) = trimChars code := by
  rw [trimChars, trimLeft_trimLeft, trimChars]
  by_cases h : trimLeft code = []
  · rw [trimLeft_append_of_all (List.all_eq_true.2 (List.dropWhile_eq_nil_iff.1 h)), h,
      trimLeft_of_all blank]
  · rw [trimLeft_append code h, trimRight_append_of_all blank]

theorem ctorIdx_ofCode_append (code : List Char) {space : List Char}
    (blank : space.all isBlank = true) :
    (ofCode (trimLeft (code ++ space))).ctorIdx = (ofCode code).ctorIdx := by
  simp only [ofCode, trimChars_append code blank]
  split_ifs <;> rfl

theorem ctorIdx_classify_append {raw : String} {space : List Char} (one_line : '\n' ∉ raw.toList)
    (space_one_line : '\n' ∉ space) (blank : space.all isBlank = true)
    (marked : (classify raw).isContent = false) :
    (classify (raw ++ String.ofList space)).ctorIdx = (classify raw).ctorIdx := by
  rcases isEmpty_or_nonempty (Layout raw.toList) with none | some
  · rw [classify_of_isEmpty none] at marked
    cases marked
  obtain ⟨l, longest⟩ := some.elim Layout.exists_isLongest
  obtain ⟨none, trimmed⟩ := Layout.eq_of_isLongest longest one_line
  have found := longest.found
  rw [none, List.append_nil] at found
  have appended : afterMarker? (raw ++ String.ofList space).toList =
      Option.some (trimLeft (l.code ++ space)) := by
    rw [String.toList_append, String.toList_ofList, afterMarker?_append found.1]
  have payload : payload? (trimLeft (l.code ++ space)) = Option.some (trimLeft (l.code ++ space)) := by
    rw [payload?_trimLeft l.one_line blank, List.takeWhile_eq_self_iff.2 fun c mem => ?_]
    have mem := (List.dropWhile_sublist isBlank).subset mem
    have none_newline : '\n' ∉ l.code ++ space := by simp [l.one_line, space_one_line]
    exact decide_eq_true (ne_of_mem_of_not_mem mem none_newline)
  have target : includeTarget? (trimLeft (l.code ++ space)) = includeTarget? l.code := by
    by_cases h : l.code = []
    · rw [h, List.nil_append, trimLeft_of_all blank]
    · rw [trimLeft_append l.code (by rwa [trimmed]), trimmed, includeTarget?_append l.code blank]
  rw [classify_of_payload? appended payload, classify_of_payload? found.1 found.2, target]
  cases includeTarget? l.code with
  | none => exact ctorIdx_ofCode_append l.code blank
  | some expr => rfl

/-- Lines are what the grammar says, and white space behind a marked line does not change its kind. -/
theorem classify_grammar (raw : String) :
    (∀ line, classify raw = line ↔ Means raw line) ∧
    (∀ expr expr', Includes raw.toList expr → Includes raw.toList expr' → expr = expr') ∧
    ('\n' ∉ raw.toList → ∀ l : Layout raw.toList, l.IsLongest →
      l.behind = [] ∧ trimLeft l.code = l.code) ∧
    ('\n' ∉ raw.toList → (classify raw).isContent = false →
      ∀ space : String, '\n' ∉ space.toList → space.toList.all isBlank = true →
        (classify (raw ++ space)).ctorIdx = (classify raw).ctorIdx) := by
  refine ⟨fun line => ⟨fun h => h ▸ means_classify raw, Means.classify_eq⟩,
    fun _ _ => Includes.unique, fun one_line l longest => Layout.eq_of_isLongest longest one_line,
    fun one_line marked space space_one_line blank => ?_⟩
  rw [← String.ofList_toList (s := space)]
  exact ctorIdx_classify_append one_line space_one_line blank marked

end Line

end Stencil
