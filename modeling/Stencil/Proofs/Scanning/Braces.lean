import Stencil.Proofs.Bytes
import Stencil.Proofs.Deferral

/-!
# The search for a closing brace

A loop over the places of a text goes forward in every round, so it ends.  The search for the brace
that closes another one is such a loop, over bytes or over characters.  Over either it follows the
nesting of the characters: behind a backslash it skips one unit, which may be a part of a character
only, but the other parts of that character are no signs to it.
-/

namespace Stencil

/-! ## Loops -/

/-- What a scan cannot go on from. -/
inductive Trap where
  /-- A slice that leaves its text, cuts a character in two or ends before it begins. -/
  | slice (first last : Nat)
  /-- A depth below zero. -/
  | depth
  deriving DecidableEq, Repr

/-- What a round of a loop comes to. -/
inductive Turn (σ α : Type) where
  | again (s : σ)
  | done (a : α)

/-- A loop over the places of a text that goes forward in every round. -/
structure Loop (σ α : Type) where
  size : Nat
  position : σ → Nat
  round : σ → Except Trap (Turn σ α)
  forward : ∀ {s t}, round s = .ok (.again t) → position s < size ∧ position s < position t

namespace Loop

variable {σ α : Type} {l : Loop σ α} {s t : σ} {a : α} {visited : List σ}

def run (l : Loop σ α) (s : σ) : Except Trap α :=
  match _h : l.round s with
  | .error trap => .error trap
  | .ok (.done a) => .ok a
  | .ok (.again t) => l.run t
  termination_by l.size - l.position s
  decreasing_by
    have := l.forward _h
    omega

/-- A run through the states `visited`, of which `s` is the first, to its result. -/
inductive Runs (l : Loop σ α) : σ → List σ → α → Prop where
  | done {s : σ} {a : α} (found : l.round s = .ok (.done a)) : Runs l s [s] a
  | again {s t : σ} {visited : List σ} {a : α} (found : l.round s = .ok (.again t))
      (later : Runs l t visited a) : Runs l s (s :: visited) a

theorem run_of_done (h : l.round s = .ok (.done a)) : l.run s = .ok a := by
  rw [run]
  split <;> simp_all

theorem run_of_again (h : l.round s = .ok (.again t)) : l.run s = l.run t := by
  rw [run]
  split <;> simp_all

theorem exists_runs (h : l.run s = .ok a) : ∃ visited, l.Runs s visited a := by
  induction s using run.induct l with
  | case1 s trap found =>
    rw [run] at h
    split at h <;> simp_all
  | case2 s b found =>
    obtain rfl : b = a := by simpa [run_of_done found] using h
    exact ⟨[s], .done found⟩
  | case3 s t found ih =>
    obtain ⟨visited, later⟩ := ih (run_of_again found ▸ h)
    exact ⟨s :: visited, .again found later⟩

/-- Rounds that only go on from one place to the next can be taken at once. -/
theorem run_moved (state : Nat → σ) (n : Nat)
    (moves : ∀ k < n, l.round (state k) = .ok (.again (state (k + 1)))) :
    l.run (state 0) = l.run (state n) := by
  induction n with
  | zero => rfl
  | succ n ih =>
    rw [ih fun k hk => moves k (Nat.lt_succ_of_lt hk), run_of_again (moves n (Nat.lt_succ_self n))]

namespace Runs

/-- What a round keeps holds wherever a run comes. -/
theorem all {P : σ → Prop} (h : l.Runs s visited a) (start : P s)
    (keep : ∀ s t, P s → l.round s = .ok (.again t) → P t) : ∀ t ∈ visited, P t := by
  induction h with
  | done => simpa using start
  | again found later ih =>
    simp only [List.mem_cons, forall_eq_or_imp]
    exact ⟨start, ih (keep _ _ start found)⟩

theorem increasing (h : l.Runs s visited a) :
    visited.Pairwise fun s t => l.position s < l.position t := by
  induction h with
  | done => exact List.pairwise_singleton _ _
  | @again s t visited a found later ih =>
    have ahead : ∀ u ∈ visited, l.position s < l.position u :=
      later.all (l.forward found).2 fun _ _ lt again => lt.trans (l.forward again).2
    exact ih.cons ahead

/-- There is at most one round for each place that is left, and one more. -/
theorem length_le (h : l.Runs s visited a) : visited.length ≤ l.size - l.position s + 1 := by
  induction h with
  | done => exact Nat.le_add_left _ _
  | again found later ih =>
    have := l.forward found
    rw [List.length_cons]
    omega

end Runs

end Loop

/-! ## The search -/

/-- Where the search for a closing brace stands. -/
structure Search where
  depth : Nat
  quoted : Bool
  position : Nat
  deriving DecidableEq, Repr

namespace Search

def next (s : Search) : Search := { s with position := s.position + 1 }

/-- One round of the search at a unit of its text, given by its code. -/
def read (s : Search) (code : Nat) : Except Trap (Turn Search (Option Nat)) :=
  if s.quoted then
    if code = '\\'.toNat then .ok (.again s.next.next)
    else if code = '"'.toNat then .ok (.again { s.next with quoted := false })
    else .ok (.again s.next)
  else if code = '"'.toNat then .ok (.again { s.next with quoted := true })
  else if code = '\x7b'.toNat then .ok (.again { s.next with depth := s.depth + 1 })
  else if code = '\x7d'.toNat then
    match s.depth with
    | 0 => .error .depth
    | 1 => .ok (.done (some s.position))
    | depth + 2 => .ok (.again { s.next with depth := depth + 1 })
  else .ok (.again s.next)

variable {s t : Search}

/-- A round goes forward, and a brace that does not close the marker leaves it open. -/
theorem read_again {code : Nat} (h : s.read code = .ok (.again t)) :
    s.position < t.position ∧ (0 < s.depth → 0 < t.depth) := by
  unfold read next at h
  grind

/-- Nothing outside of ASCII is a sign. -/
theorem read_other {code : Nat} (h : 128 ≤ code) : s.read code = .ok (.again s.next) := by
  have sign (c : Char) (ascii : c.toNat < 128) : code ≠ c.toNat := by omega
  unfold read
  rw [if_neg (sign '\\' (by decide)), if_neg (sign '"' (by decide)),
    if_neg (sign '\x7b' (by decide)), if_neg (sign '\x7d' (by decide)),
    if_neg (sign '"' (by decide))]
  exact ite_self _

variable {α : Type} {code : α → Nat} {units : List α} {u : α}

/-- The search in a row of units, bytes or characters, each told by its code. -/
def loop (code : α → Nat) (units : List α) : Loop Search (Option Nat) where
  size := units.length
  position := position
  round s :=
    match units[s.position]? with
    | none => .ok (.done none)
    | some u => s.read (code u)
  forward h := by
    split at h
    · cases h
    · rename_i u found
      exact ⟨(List.getElem?_eq_some_iff.1 found).1, (read_again h).1⟩

theorem round_of_none (code : α → Nat) (h : units[s.position]? = none) :
    (loop code units).round s = .ok (.done none) := by
  simp only [loop, h]

theorem round_of_some (code : α → Nat) (h : units[s.position]? = some u) :
    (loop code units).round s = s.read (code u) := by
  simp only [loop, h]

/-- The search does not stop at units outside of ASCII. -/
theorem run_others (front back : List α) {middle : List α} (others : ∀ u ∈ middle, 128 ≤ code u)
    (depth : Nat) (quoted : Bool) :
    (loop code (front ++ middle ++ back)).run ⟨depth, quoted, front.length⟩ =
      (loop code (front ++ middle ++ back)).run ⟨depth, quoted, front.length + middle.length⟩ := by
  refine Loop.run_moved (fun k => (⟨depth, quoted, front.length + k⟩ : Search)) middle.length
    fun k hk => ?_
  have found : (front ++ middle ++ back)[front.length + k]? = some middle[k] := by
    rw [List.append_assoc, List.getElem?_append_right (Nat.le_add_right _ _),
      Nat.add_sub_cancel_left, List.getElem?_append_left hk, List.getElem?_eq_getElem hk]
  rw [round_of_some code found, read_other (others _ (List.getElem_mem hk))]
  rfl

def start (opening : Nat) : Search := ⟨0, false, opening⟩

/-- Behind the brace that it starts at, the search is inside of some brace. -/
theorem depth_pos {opening : Nat} {visited : List Search} {found : Option Nat}
    (brace : units[opening]? = some u) (same : code u = '\x7b'.toNat)
    (h : (loop code units).Runs (start opening) visited found) :
    ∀ s ∈ visited.tail, 0 < s.depth := by
  cases h with
  | done => simp
  | again first later =>
    rw [round_of_some code brace, same] at first
    obtain rfl := Turn.again.inj (Except.ok.inj first)
    refine later.all Nat.one_pos fun s t deep again => ?_
    cases here : units[s.position]? with
    | none =>
      rw [round_of_none code here] at again
      cases again
    | some u =>
      rw [round_of_some code here] at again
      exact (read_again again).2 deep

end Search

/-- The place of the brace that closes the one at `opening`, if there is one. -/
def closing {α : Type} (code : α → Nat) (units : List α) (opening : Nat) :
    Except Trap (Option Nat) :=
  (Search.loop code units).run (.start opening)

/-! ## Characters in units -/

/-- Units for the characters of a text: one for a character of ASCII, with its code, and at least
one for any other, with codes outside of ASCII. -/
structure Spelling (α : Type) where
  code : α → Nat
  spell : Char → List α
  filled : ∀ c, spell c ≠ []
  ascii : ∀ {c : Char}, c.toNat < 128 → ∃ u, spell c = [u] ∧ code u = c.toNat
  other : ∀ {c : Char}, 128 ≤ c.toNat → ∀ u ∈ spell c, 128 ≤ code u

namespace Spelling

def bytes : Spelling UInt8 where
  code := UInt8.toNat
  spell := String.utf8EncodeChar
  filled _ := String.utf8EncodeChar_ne_nil
  ascii h := ⟨_, Text.utf8EncodeChar_of_ascii h, Text.toNat_toUInt8_of_ascii h⟩
  other h _ hu := Text.le_toNat_of_mem_utf8EncodeChar h hu

def characters : Spelling Char where
  code := Char.toNat
  spell c := [c]
  filled _ := List.cons_ne_nil _ _
  ascii _ := ⟨_, rfl, rfl⟩
  other h _ hu := List.mem_singleton.1 hu ▸ h

variable {α : Type} (sp : Spelling α)

def row (cs : List Char) : List α := cs.flatMap sp.spell

theorem row_append (cs ds : List Char) : sp.row (cs ++ ds) = sp.row cs ++ sp.row ds :=
  List.flatMap_append

theorem row_cons (c : Char) (cs : List Char) : sp.row (c :: cs) = sp.spell c ++ sp.row cs :=
  List.flatMap_cons

theorem length_row_snoc (cs : List Char) (c : Char) :
    (sp.row (cs ++ [c])).length = (sp.row cs).length + (sp.spell c).length := by
  rw [row_append, List.length_append, row_cons]
  simp [row]

theorem row_bytes (s : String) : bytes.row s.toList = Text.utf8 s := (Text.utf8_eq_flatMap s).symm

theorem length_row_bytes (cs : List Char) : (bytes.row cs).length = Text.width cs := rfl

theorem row_characters (cs : List Char) : characters.row cs = cs := List.flatMap_singleton' cs

end Spelling

/-! ## Agreement with the nesting of the characters -/

namespace Nesting

variable {α : Type} {s : Nesting} {c : Char}

/-- The state of the search in front of a character that begins at `place`. -/
def search (place : Nat) : Nesting → Search
  | .code depth => ⟨depth + 1, false, place⟩
  | .quoted depth => ⟨depth + 1, true, place⟩
  | .escaped depth => ⟨depth + 1, true, place + 1⟩

theorem read_search (s : Nesting) (c : Char) (place : Nat) (awake : ∀ depth, s ≠ .escaped depth) :
    (s.search place).read c.toNat =
      .ok (match s.step c with
        | none => .done (some place)
        | some s' => .again (s'.search (place + 1))) := by
  cases s with
  | escaped depth => exact absurd rfl (awake depth)
  | code depth =>
    simp only [search, Search.read, step, Char.toNat_inj, Bool.false_eq_true, if_false]
    split_ifs
    · rfl
    · rfl
    · cases depth <;> rfl
    · rfl
  | quoted depth =>
    simp only [search, Search.read, step, Char.toNat_inj, if_true]
    split_ifs
    · rfl
    · rfl
    · rfl

theorem step_other (s : Nesting) (h : 128 ≤ c.toNat) (awake : ∀ depth, s ≠ .escaped depth) :
    s.step c = some s := by
  have sign (d : Char) (ascii : d.toNat < 128) : c ≠ d := by
    rintro rfl
    omega
  cases s with
  | escaped depth => exact absurd rfl (awake depth)
  | code depth =>
    simp only [step, if_neg (sign '"' (by decide)), if_neg (sign '\x7b' (by decide)),
      if_neg (sign '\x7d' (by decide))]
  | quoted depth =>
    simp only [step, if_neg (sign '\\' (by decide)), if_neg (sign '"' (by decide))]

/-- A character takes the search over its units, from the state in front of it to the one behind. -/
theorem run_search_cons (sp : Spelling α) (before after : List Char) (c : Char) (s : Nesting) :
    (Search.loop sp.code (sp.row (before ++ c :: after))).run (s.search (sp.row before).length) =
      match s.step c with
      | none => .ok (some (sp.row before).length)
      | some s' => (Search.loop sp.code (sp.row (before ++ c :: after))).run
          (s'.search (sp.row (before ++ [c])).length) := by
  have units : sp.row (before ++ c :: after) = sp.row before ++ sp.spell c ++ sp.row after := by
    rw [sp.row_append, sp.row_cons, List.append_assoc]
  rw [units, sp.length_row_snoc]
  by_cases asleep : ∃ depth, s = .escaped depth
  · -- One unit is skipped already; what is left of the character lies outside of ASCII.
    obtain ⟨depth, rfl⟩ := asleep
    obtain ⟨u, us, cons⟩ := List.exists_cons_of_ne_nil (sp.filled c)
    have others : ∀ v ∈ us, 128 ≤ sp.code v := by
      rcases Nat.lt_or_ge c.toNat 128 with low | high
      · obtain ⟨v, one, -⟩ := sp.ascii low
        obtain ⟨-, rfl⟩ : v = u ∧ [] = us := by simpa [one] using cons
        simp
      · exact fun v hv => sp.other high v (cons ▸ List.mem_cons_of_mem u hv)
    have passed := Search.run_others (sp.row before ++ [u]) (sp.row after) others (depth + 1) true
    rw [cons]
    simpa [search, step, Nat.add_assoc, Nat.add_comm] using passed
  · have awake := not_exists.1 asleep
    rcases Nat.lt_or_ge c.toNat 128 with low | high
    · obtain ⟨u, one, same⟩ := sp.ascii low
      have found :
          (sp.row before ++ sp.spell c ++ sp.row after)[(sp.row before).length]? = some u := by
        simp [one]
      have place : (s.search (sp.row before).length).position = (sp.row before).length := by
        cases s with
        | escaped depth => exact absurd rfl (awake depth)
        | code depth | quoted depth => rfl
      have round := Search.round_of_some sp.code (place ▸ found)
      rw [same, read_search s c _ awake, one] at round
      rw [one, List.length_singleton]
      cases step : s.step c with
      | none => exact Loop.run_of_done (by simpa only [step] using round)
      | some s' => exact Loop.run_of_again (by simpa only [step] using round)
    · rw [step_other s high awake]
      cases s with
      | escaped depth => exact absurd rfl (awake depth)
      | code depth => exact Search.run_others _ _ (sp.other high) (depth + 1) false
      | quoted depth => exact Search.run_others _ _ (sp.other high) (depth + 1) true

theorem run_search_nil (sp : Spelling α) (before : List Char) (s : Nesting) :
    (Search.loop sp.code (sp.row before)).run (s.search (sp.row before).length) = .ok none := by
  refine Loop.run_of_done (Search.round_of_none _ (List.getElem?_eq_none ?_))
  cases s with
  | code depth | quoted depth => exact Nat.le_refl _
  | escaped depth => exact Nat.le_succ _

/-- The search finds the place at which the characters are split. -/
theorem run_search (sp : Spelling α) (before after : List Char) (s : Nesting) :
    (Search.loop sp.code (sp.row (before ++ after))).run (s.search (sp.row before).length) =
      .ok ((s.split? after).map fun found => (sp.row (before ++ found.1)).length) := by
  induction after generalizing before s with
  | nil =>
    rw [List.append_nil, run_search_nil]
    rfl
  | cons c after ih =>
    rw [run_search_cons, split?]
    cases step : s.step c with
    | none => simp
    | some s' =>
      have whole : before ++ c :: after = before ++ [c] ++ after := by simp
      dsimp only
      rw [whole, ih]
      simp [Function.comp_def]

end Nesting

theorem closing_row {α : Type} (sp : Spelling α) (before after : List Char) :
    closing sp.code (sp.row (before ++ '\x7b' :: after)) (sp.row before).length =
      .ok (((Nesting.code 0).split? after).map fun found =>
        (sp.row (before ++ '\x7b' :: found.1)).length) := by
  obtain ⟨u, one, same⟩ := sp.ascii (c := '\x7b') (by decide)
  have units : sp.row (before ++ '\x7b' :: after) = sp.row before ++ u :: sp.row after := by
    rw [sp.row_append, sp.row_cons, one, List.singleton_append]
  have opened : (Search.loop sp.code (sp.row (before ++ '\x7b' :: after))).round
      (.start (sp.row before).length) =
        .ok (.again ((Nesting.code 0).search (sp.row (before ++ ['\x7b'])).length)) := by
    have here : (sp.row (before ++ '\x7b' :: after))[(sp.row before).length]? = some u := by
      simp [units]
    rw [Search.round_of_some sp.code here, same, sp.length_row_snoc, one]
    rfl
  rw [closing, Loop.run_of_again opened, List.append_cons, Nesting.run_search]
  simp

/-- Over bytes the same brace is found as over characters. -/
theorem closing_utf8 {text : String} {before after : List Char}
    (h : text.toList = before ++ '\x7b' :: after) :
    ∃ answer, closing Char.toNat text.toList before.length = .ok answer ∧
      closing UInt8.toNat (Text.utf8 text) (Text.width before) =
        .ok (answer.map (Text.offset text)) ∧
      ∀ last ∈ answer, ∃ inside rest, text.toList = before ++ '\x7b' :: inside ++ '\x7d' :: rest ∧
        last = (before ++ '\x7b' :: inside).length := by
  have characters := closing_row .characters before after
  have bytes := closing_row .bytes before after
  simp only [← h, Spelling.row_characters] at characters
  rw [← h, Spelling.row_bytes] at bytes
  simp only [Spelling.length_row_bytes] at bytes
  cases split : (Nesting.code 0).split? after with
  | none =>
    rw [split] at characters bytes
    exact ⟨none, characters, bytes, by simp⟩
  | some found =>
    rw [split] at characters bytes
    have whole : text.toList = before ++ '\x7b' :: found.1 ++ '\x7d' :: found.2 := by
      simp [h, Nesting.eq_of_split? split]
    refine ⟨_, characters, ?_, ?_⟩
    · rw [Option.map_some, Option.map_some, Text.offset_of_split whole]
      exact bytes
    · rintro last ⟨rfl⟩
      exact ⟨found.1, found.2, whole, rfl⟩

end Stencil
