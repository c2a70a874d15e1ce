import Stencil.Resolver
import Stencil.Proofs.Spec

/-!
# What a resolver answers

The values that a resolver keeps are those of the fields of its spec, so that keeping them cannot be
noticed: a name stands for the mode of emission, for the value of a field, or for nothing.  However
many questions a script asks, the spec stays as it is, and the names without a field are recorded
once each.
-/

namespace Stencil

open Script

namespace Resolver

/-! ## Records of names -/

def note (seen : List String) (name : String) : List String :=
  if seen.contains name then seen else seen ++ [name]

def noteAll (seen names : List String) : List String := names.foldl note seen

@[simp]
theorem noteAll_nil (seen : List String) : noteAll seen [] = seen := rfl

@[simp]
theorem noteAll_cons (seen : List String) (name : String) (names : List String) :
    noteAll seen (name :: names) = noteAll (note seen name) names := rfl

theorem noteAll_append (seen names more : List String) :
    noteAll seen (names ++ more) = noteAll (noteAll seen names) more := by
  simp [noteAll, List.foldl_append]

theorem mem_note {seen : List String} {name other : String} :
    other ∈ note seen name ↔ other ∈ seen ∨ other = name := by
  unfold note
  split
  · rename_i h
    constructor
    · exact .inl
    · rintro (hs | rfl)
      · exact hs
      · simpa using h
  · simp

theorem nodup_note {seen : List String} {name : String} (h : seen.Nodup) :
    (note seen name).Nodup := by
  unfold note
  split
  · exact h
  · rename_i hs
    refine List.nodup_append.2 ⟨h, by simp, ?_⟩
    rintro a ha b hb rfl
    rw [List.mem_singleton] at hb
    subst hb
    exact hs (by simpa using ha)

/-- A record gathers the names of a row that are new to it, each where it comes first. -/
theorem noteAll_eq (seen names : List String) :
    noteAll seen names = seen ++ (names.filter (!seen.contains ·)).eraseDups := by
  induction names generalizing seen with
  | nil => simp
  | cons name rest ih =>
    rw [noteAll_cons, ih, note]
    by_cases h : name ∈ seen
    · simp [h]
    · have split : rest.filter (fun n => !(seen ++ [name]).contains n) =
          (rest.filter (fun n => !seen.contains n)).filter (fun n => !n == name) := by
        rw [List.filter_filter]
        congr 1
        funext n
        by_cases hn : n = name <;> simp [hn]
      have new : seen.contains name = false := by simpa using h
      simp only [new, Bool.false_eq_true, if_false, Bool.not_false, List.filter_cons_of_pos,
        List.eraseDups_cons, split, List.append_assoc, List.singleton_append]

theorem noteAll_empty (names : List String) : noteAll [] names = names.eraseDups := by
  have new : names.filter (fun name => !([] : List String).contains name) = names :=
    List.filter_eq_self.2 (by simp)
  rw [noteAll_eq, new, List.nil_append]

theorem nodup_eraseDups (names : List String) : names.eraseDups.Nodup := by
  have nodup : ∀ seen : List String, seen.Nodup → (noteAll seen names).Nodup := by
    induction names with
    | nil => exact fun seen h => h
    | cons name rest ih => exact fun seen h => ih _ (nodup_note h)
  rw [← noteAll_empty]
  exact nodup [] List.nodup_nil

/-! ## Values that are kept -/

/-- What a name stands for: the mode of emission, or the value of a field. -/
def meaning? (r : Resolver) (name : String) : Option Json :=
  if name = modeName then some (.bool r.deferred) else r.spec.get? name

/-- Every value that is kept is that of the field. -/
def Remembers (r : Resolver) : Prop :=
  ∀ name v, r.known.lookup name = some v →
    ∃ json, r.spec.get? name = some json ∧ v = Value.ofJson json

theorem lookup_cons_known {name key : String} {value v : Value}
    {known : List (String × Value)} (h : ((name, value) :: known).lookup key = some v) :
    (key = name ∧ v = value) ∨ known.lookup key = some v := by
  rw [List.lookup_cons] at h
  by_cases hk : key = name
  · subst hk
    simp only [BEq.rfl, Option.some.injEq] at h
    exact .inl ⟨rfl, h.symm⟩
  · rw [beq_false_of_ne hk] at h
    exact .inr h

/-- Keeping values cannot be noticed, and a name without a meaning is noted. -/
theorem resolve_of_remembers {r : Resolver} (h : r.Remembers) (name : String) :
    ∃ known, Remembers { r with known } ∧
      r.resolve name = ((r.meaning? name).map Value.ofJson,
        { r with
          known
          undefined := noteAll r.undefined (if (r.meaning? name).isSome then [] else [name]) }) := by
  unfold resolve meaning?
  by_cases hm : name = modeName
  · exact ⟨r.known, h, by simp [hm, Value.ofJson]⟩
  simp only [hm, if_false]
  cases hk : r.known.lookup name with
  | some v =>
    obtain ⟨json, hj, rfl⟩ := h name v hk
    exact ⟨r.known, h, by simp [hj]⟩
  | none =>
    cases hs : r.spec.get? name with
    | some json =>
      refine ⟨(name, Value.ofJson json) :: r.known, ?_, rfl⟩
      intro key v hv
      rcases lookup_cons_known hv with ⟨rfl, rfl⟩ | hv
      · exact ⟨json, hs, rfl⟩
      · exact h key v hv
    | none =>
      refine ⟨r.known, h, ?_⟩
      simp only [Option.map_none, Option.isSome_none, Bool.false_eq_true, if_false, noteAll_cons,
        noteAll_nil, note]
      split <;> rfl

/-! ## Sound resolvers -/

structure Sound (r : Resolver) : Prop where
  known : ∀ name v, r.known.lookup name = some v →
    ∃ json, r.spec.get? name = some json ∧ v = Value.ofJson json
  nodup : r.undefined.Nodup
  absent : ∀ name ∈ r.undefined, r.spec.get? name = none

theorem sound_start (spec : Spec) (deferred : Bool) : (start spec deferred).Sound :=
  ⟨by simp [start], List.nodup_nil, by simp [start]⟩

/-- A resolver later in a run, by which the names `names` were missed in between. -/
structure Later (before : Resolver) (names : List String) (after : Resolver) : Prop where
  sound : after.Sound
  spec : after.spec = before.spec
  deferred : after.deferred = before.deferred
  undefined : after.undefined = noteAll before.undefined names

namespace Later

variable {r r' r'' : Resolver} {names more : List String}

theorem refl (h : r.Sound) : Later r [] r := ⟨h, rfl, rfl, rfl⟩

theorem trans (first : Later r names r') (second : Later r' more r'') :
    Later r (names ++ more) r'' where
  sound := second.sound
  spec := second.spec.trans first.spec
  deferred := second.deferred.trans first.deferred
  undefined := by rw [second.undefined, first.undefined, noteAll_append]

theorem meaning? (h : Later r names r') (name : String) : r'.meaning? name = r.meaning? name := by
  rw [Resolver.meaning?, Resolver.meaning?, h.spec, h.deferred]

end Later

/-- A name without a meaning is recorded, and the resolver stays sound. -/
theorem resolve_spec {r : Resolver} (h : r.Sound) (name : String) :
    (r.resolve name).1 = (r.meaning? name).map Value.ofJson ∧
      Later r (if (r.meaning? name).isSome then [] else [name]) (r.resolve name).2 := by
  obtain ⟨known, kept, eq⟩ := resolve_of_remembers h.known name
  have recorded : (noteAll r.undefined (if (r.meaning? name).isSome then [] else [name])).Nodup ∧
      ∀ other ∈ noteAll r.undefined (if (r.meaning? name).isSome then [] else [name]),
        r.spec.get? other = none := by
    cases found : r.meaning? name with
    | some json => exact ⟨h.nodup, h.absent⟩
    | none =>
      refine ⟨nodup_note h.nodup, fun other ho => ?_⟩
      rcases mem_note.1 ho with ho | rfl
      · exact h.absent other ho
      · unfold meaning? at found
        split at found
        · cases found
        · exact found
  rw [eq]
  exact ⟨rfl, ⟨kept, recorded.1, recorded.2⟩, rfl, rfl, rfl⟩

theorem run_later {α : Type} (q : Inquiry α) {r : Resolver} (h : r.Sound) :
    ∃ names, Later r names (q.run answerer r).2 := by
  induction q generalizing r with
  | done a => exact ⟨[], Later.refl h⟩
  | field name next ih =>
    have first := (resolve_spec h name).2
    obtain ⟨names, second⟩ := ih (r.resolve name).1 first.sound
    exact ⟨_, first.trans second⟩
  | header next ih => exact ih r.spec.embeddingHeader h

/-! ## Resolvers that answer alike -/

/-- Resolvers that answer alike, whatever values they keep. -/
structure Alike (r r' : Resolver) : Prop where
  sound : r.Sound
  sound' : r'.Sound
  spec : r'.spec = r.spec
  deferred : r'.deferred = r.deferred
  undefined : r'.undefined = r.undefined

theorem Alike.resolve {r r' : Resolver} (h : Alike r r') (name : String) :
    (r'.resolve name).1 = (r.resolve name).1 ∧ Alike (r.resolve name).2 (r'.resolve name).2 := by
  have meaning : r'.meaning? name = r.meaning? name := by
    rw [meaning?, meaning?, h.spec, h.deferred]
  obtain ⟨answer, later⟩ := resolve_spec h.sound name
  obtain ⟨answer', later'⟩ := resolve_spec h.sound' name
  rw [meaning] at answer' later'
  refine ⟨answer'.trans answer.symm, later.sound, later'.sound, ?_, ?_, ?_⟩
  · rw [later.spec, later'.spec, h.spec]
  · rw [later.deferred, later'.deferred, h.deferred]
  · rw [later.undefined, later'.undefined, h.undefined]

theorem run_field {α : Type} (name : String) (next : Option Value → Inquiry α) (r : Resolver) :
    (Inquiry.field name next).run answerer r =
      (next (r.resolve name).1).run answerer (r.resolve name).2 := rfl

theorem run_header {α : Type} (next : String → Inquiry α) (r : Resolver) :
    (Inquiry.header next).run answerer r = (next r.spec.embeddingHeader).run answerer r := rfl

/-- What a script does depends on the spec and the mode alone, not on the values that are kept. -/
theorem Alike.run {α : Type} (q : Inquiry α) {r r' : Resolver} (h : Alike r r') :
    (q.run answerer r').1 = (q.run answerer r).1 ∧
      Alike (q.run answerer r).2 (q.run answerer r').2 := by
  induction q generalizing r r' with
  | done a => exact ⟨rfl, h⟩
  | field name next ih =>
    obtain ⟨answer, later⟩ := h.resolve name
    rw [run_field, run_field, answer]
    exact ih _ later
  | header next ih =>
    rw [run_header, run_header, h.spec]
    exact ih _ h

/-! ## Between runs -/

theorem sound_takeUndefined {r : Resolver} (h : r.Sound) : r.takeUndefined.2.Sound :=
  ⟨h.known, List.nodup_nil, by simp [takeUndefined]⟩

theorem lookup_filter_ne {name key : String} {v : Value} {known : List (String × Value)}
    (h : (known.filter (·.1 ≠ name)).lookup key = some v) :
    key ≠ name ∧ known.lookup key = some v := by
  induction known with
  | nil => simp at h
  | cons entry rest ih =>
    obtain ⟨n, w⟩ := entry
    by_cases hn : n = name
    · subst hn
      simp only [ne_eq, decide_not, List.filter_cons, decide_true, Bool.not_true,
        Bool.false_eq_true, if_false] at h
      obtain ⟨hk, hl⟩ := ih (by simpa using h)
      refine ⟨hk, ?_⟩
      rw [List.lookup_cons, beq_false_of_ne hk]
      exact hl
    · have keep : ((n, w) :: rest).filter (·.1 ≠ name) =
          (n, w) :: rest.filter (·.1 ≠ name) := by simp [hn]
      rw [keep] at h
      rcases lookup_cons_known h with ⟨rfl, rfl⟩ | hl
      · exact ⟨hn, by simp⟩
      · obtain ⟨hk, hr⟩ := ih hl
        refine ⟨hk, ?_⟩
        rw [List.lookup_cons]
        split
        · rename_i heq
          rw [beq_iff_eq] at heq
          subst heq
          -- The kept row has the first entry of the name in front.
          simp only [List.lookup_cons, BEq.rfl] at h
          exact h
        · exact hr

theorem remembers_placehold {r : Resolver} (h : r.Remembers) (name : String) :
    (r.placehold name).Remembers := by
  intro key v hv
  obtain ⟨-, hl⟩ := lookup_filter_ne hv
  obtain ⟨json, hj, rfl⟩ := h key v hl
  refine ⟨json, ?_, rfl⟩
  change (r.spec.placehold name).get? key = some json
  rw [Spec.get?_placehold, hj, Option.some_or]

theorem sound_placehold {r : Resolver} (h : r.Sound) {name : String}
    (none_recorded : r.undefined = []) : (r.placehold name).Sound := by
  refine ⟨remembers_placehold h.known name, ?_, ?_⟩
  · exact none_recorded ▸ List.nodup_nil
  · intro other ho
    change other ∈ r.undefined at ho
    simp [none_recorded] at ho

theorem foldl_placehold_spec (names : List String) (r : Resolver) :
    (names.foldl (fun s n => s.placehold n) r).spec = names.foldl Spec.placehold r.spec := by
  induction names generalizing r with
  | nil => rfl
  | cons name rest ih => exact ih (r.placehold name)

theorem foldl_placehold_deferred (names : List String) (r : Resolver) :
    (names.foldl (fun s n => s.placehold n) r).deferred = r.deferred := by
  induction names generalizing r with
  | nil => rfl
  | cons name rest ih => exact ih (r.placehold name)

theorem foldl_placehold_undefined (names : List String) (r : Resolver) :
    (names.foldl (fun s n => s.placehold n) r).undefined = r.undefined := by
  induction names generalizing r with
  | nil => rfl
  | cons name rest ih => exact ih (r.placehold name)

theorem sound_foldl_placehold (names : List String) {r : Resolver} (h : r.Sound)
    (none_recorded : r.undefined = []) :
    (names.foldl (fun s n => s.placehold n) r).Sound := by
  induction names generalizing r with
  | nil => exact h
  | cons name rest ih => exact ih (sound_placehold h none_recorded) none_recorded

end Resolver

end Stencil
