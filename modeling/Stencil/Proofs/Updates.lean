import Stencil.Proofs.Bytes
import Stencil.Proofs.Spec

/-!
# A spec under changes

Whatever is done to a spec, it stays a finite map with its names in order.  A name has the value
that was written to it last since the spec was replaced as a whole, and otherwise its value in the
object that replaced it.  A placeholder is written for an absent name only, and only an object
replaces a spec.
-/

namespace Stencil

namespace Fields

variable {α : Type} {fields : Fields α} {name : String}

/-- The names are strictly increasing in the order of their bytes. -/
def Increasing (fields : Fields α) : Prop :=
  fields.names.Pairwise fun a b => Text.utf8 a < Text.utf8 b

theorem increasing_iff : fields.Increasing ↔ fields.names.Pairwise (· < ·) := by
  simp only [Increasing, Text.utf8_lt_iff]

theorem mem_names_iff : name ∈ fields.names ↔ ∃ value, fields.get? name = some value := by
  refine ⟨fun h => ?_, fun ⟨value, found⟩ => mem_names_of_get? found⟩
  induction fields with
  | nil => simp [names] at h
  | cons field rest ih =>
    obtain ⟨n, v⟩ := field
    rw [get?]
    by_cases hn : n = name
    · exact ⟨v, if_pos hn⟩
    · rw [if_neg hn]
      exact ih ((List.mem_cons.1 h).resolve_left (Ne.symm hn))

theorem mem_names_insert {key : String} (value : α) :
    key ∈ (fields.insert name value).names ↔ key = name ∨ key ∈ fields.names := by
  rw [mem_names_iff, mem_names_iff, get?_insert]
  by_cases h : name = key <;> simp [h, eq_comm]

theorem increasing_insert (h : fields.Increasing) (name : String) (value : α) :
    (fields.insert name value).Increasing := by
  rw [increasing_iff] at h ⊢
  induction fields with
  | nil => exact List.pairwise_singleton _ _
  | cons field rest ih =>
    obtain ⟨n, v⟩ := field
    obtain ⟨first, later⟩ := List.pairwise_cons.1 h
    rw [insert]
    split
    · rename_i same
      exact same ▸ h
    · rename_i other
      split
      · rename_i before
        refine List.pairwise_cons.2 ⟨fun key hk => ?_, h⟩
        rcases List.mem_cons.1 hk with rfl | hk
        · exact before
        · exact lt_trans before (first key hk)
      · rename_i behind
        refine List.pairwise_cons.2 ⟨fun key hk => ?_, ih later⟩
        rcases (mem_names_insert value).1 hk with rfl | hk
        · exact lt_of_le_of_ne (not_lt.1 behind) other
        · exact first key hk

end Fields

/-! ## Changes -/

namespace Spec

/-- What is done to a spec.  A spec is built by setting one field after the other. -/
inductive Change where
  | set (name : String) (value : Json)
  | placehold (name : String)
  | replace (value : Json)

inductive Reply where
  | done
  | placed (inserted : Bool)
  | refused (fault : Fault)

def change (spec : Spec) : Change → Reply × Spec
  | .set name value => (.done, spec.set name value)
  | .placehold name => (.placed (!spec.has name), spec.placehold name)
  | .replace value =>
    match ofJson value with
    | .ok next => (.done, next)
    | .error fault => (.refused fault, spec)

def after (spec : Spec) (changes : List Change) : Spec :=
  changes.foldl (fun spec c => (spec.change c).2) spec

/-- An object and the writes since it became the spec, the last one in front. -/
structure Log where
  base : Fields Json
  writes : List (String × Json)

namespace Log

def get? (log : Log) (name : String) : Option Json :=
  (log.writes.lookup name).or (log.base.get? name)

def write (log : Log) (name : String) (value : Json) : Log :=
  { log with writes := (name, value) :: log.writes }

def record (log : Log) : Change → Log
  | .set name value => log.write name value
  | .placehold name => if (log.get? name).isNone then log.write name (.object []) else log
  | .replace (.object fields) => ⟨fields, []⟩
  | .replace _ => log

def after (log : Log) (changes : List Change) : Log := changes.foldl record log

theorem get?_write (log : Log) (name key : String) (value : Json) :
    (log.write name value).get? key = if name = key then some value else log.get? key := by
  rw [get?, write, List.lookup_cons]
  by_cases h : name = key
  · subst h
    simp
  · rw [beq_false_of_ne (Ne.symm h), if_neg h]
    rfl

end Log

variable {spec : Spec} {log : Log}

theorem ofJson_of_not_object {value : Json} (other : ∀ fields, value ≠ .object fields) :
    ofJson value = .error (.invalidSpec ("expected an object, found " ++ kindName value)) := by
  cases value with
  | object fields => exact absurd rfl (other fields)
  | _ => rfl

theorem change_replace_of_not_object {value : Json} (other : ∀ fields, value ≠ .object fields) :
    spec.change (.replace value) =
      (.refused (.invalidSpec ("expected an object, found " ++ kindName value)), spec) := by
  rw [change, ofJson_of_not_object other]

theorem record_replace_of_not_object {value : Json} (other : ∀ fields, value ≠ .object fields) :
    log.record (.replace value) = log := by
  cases value with
  | object fields => exact absurd rfl (other fields)
  | _ => rfl

theorem has_iff {name : String} : spec.has name = true ↔ ∃ value, spec.get? name = some value := by
  rw [has, Option.isSome_iff_exists]

theorem get?_change (same : ∀ name, spec.get? name = log.get? name) (c : Change) (name : String) :
    (spec.change c).2.get? name = (log.record c).get? name := by
  cases c with
  | set key value =>
    change (spec.set key value).get? name = (log.write key value).get? name
    rw [get?_set, Log.get?_write, same]
  | placehold key =>
    change (spec.placehold key).get? name = (if (log.get? key).isNone then _ else log).get? name
    rw [get?_placehold, same]
    cases found : log.get? key with
    | none =>
      rw [Option.isNone_none, if_pos rfl, Log.get?_write]
      by_cases h : key = name
      · subst h
        simp [found]
      · simp [h]
    | some value =>
      rw [Option.isNone_some, if_neg Bool.false_ne_true]
      by_cases h : key = name
      · subst h
        simp [found]
      · simp [h]
  | replace value =>
    by_cases object : ∃ fields, value = .object fields
    · obtain ⟨fields, rfl⟩ := object
      rfl
    · rw [not_exists] at object
      rw [change_replace_of_not_object object, record_replace_of_not_object object, same]

theorem increasing_change (h : spec.fields.Increasing) (c : Change)
    (object : ∀ fields, c = .replace (.object fields) → Fields.Increasing fields) :
    (spec.change c).2.fields.Increasing := by
  cases c with
  | set name value => exact Fields.increasing_insert h name value
  | placehold name =>
    change (spec.placehold name).fields.Increasing
    unfold placehold
    split
    · exact h
    · exact Fields.increasing_insert h name _
  | replace value =>
    by_cases is_object : ∃ fields, value = .object fields
    · obtain ⟨fields, rfl⟩ := is_object
      exact object fields rfl
    · rw [change_replace_of_not_object (not_exists.1 is_object)]
      exact h

theorem get?_after (same : ∀ name, spec.get? name = log.get? name) (changes : List Change)
    (name : String) : (spec.after changes).get? name = (log.after changes).get? name := by
  induction changes generalizing spec log with
  | nil => exact same name
  | cons c rest ih => exact ih (get?_change same c)

theorem increasing_after (h : spec.fields.Increasing) (changes : List Change)
    (objects : ∀ fields, .replace (.object fields) ∈ changes → Fields.Increasing fields) :
    (spec.after changes).fields.Increasing := by
  induction changes generalizing spec with
  | nil => exact h
  | cons c rest ih =>
    refine ih (increasing_change h c fun fields eq => ?_) fun fields hf => ?_
    · exact objects fields (eq ▸ List.mem_cons_self)
    · exact objects fields (List.mem_cons_of_mem c hf)

/--
After any row of changes, a name has the value that was written to it last since the last object
replaced the spec, or else its value in this object.  A placeholder is written, and said to be,
exactly where the name is absent, and what is no object is refused and changes nothing.  What the
readers tell of a name agrees, the names are increasing, and a spec is the spec of its JSON value.
-/
theorem after_recorded {base : Fields Json} (increasing : base.Increasing) (changes : List Change)
    (objects : ∀ fields, .replace (.object fields) ∈ changes → Fields.Increasing fields) :
    let spec := (⟨base⟩ : Spec).after changes
    let log := (⟨base, []⟩ : Log).after changes
    (∀ name, spec.get? name = log.get? name) ∧
    (∀ name, (spec.change (.placehold name)).1 = .placed (log.get? name).isNone) ∧
    (∀ value, (∀ fields, value ≠ .object fields) → spec.change (.replace value) =
      (.refused (.invalidSpec ("expected an object, found " ++ kindName value)), spec)) ∧
    (∀ name, (spec.has name = true ↔ ∃ value, spec.get? name = some value) ∧
      (spec.has name = true ↔ name ∈ spec.names)) ∧
    spec.names.Pairwise (fun a b => Text.utf8 a < Text.utf8 b) ∧
    ofJson spec.toJson = .ok spec := by
  intro spec log
  have same : ∀ name, spec.get? name = log.get? name := get?_after (fun name => rfl) changes
  refine ⟨same, fun name => ?_, fun value other => change_replace_of_not_object other,
    fun name => ⟨has_iff, has_iff.trans Fields.mem_names_iff.symm⟩,
    increasing_after increasing changes objects, rfl⟩
  rw [change, has, same]
  cases log.get? name <;> rfl

/-- A list replaces nothing, an object replaces all, and a placeholder stands behind it. -/
theorem after_recorded_of_replacement :
    let base : Fields Json := [("a", .null), ("é", .null)]
    let changes : List Change :=
      [.set "b" .null, .replace (.array []), .replace (.object [("c", .null)]), .placehold "a"]
    let spec := (⟨base⟩ : Spec).after changes
    base.Increasing ∧
    (∀ fields, .replace (.object fields) ∈ changes → Fields.Increasing fields) ∧
    spec.get? "a" = some (.object []) ∧ spec.get? "b" = none ∧
    (spec.change (.placehold "c")).1 = .placed false ∧
    spec.change (.replace (.array [])) =
      (.refused (.invalidSpec "expected an object, found an array"), spec) ∧
    "c" ∈ spec.names ∧
    spec.names.Pairwise (fun a b => Text.utf8 a < Text.utf8 b) ∧
    ofJson spec.toJson = .ok spec := by
  intro base changes spec
  have increasing : base.Increasing := Fields.increasing_iff.2 (by decide)
  have objects : ∀ fields, .replace (.object fields) ∈ changes → Fields.Increasing fields := by
    intro fields h
    obtain rfl : fields = [("c", .null)] := by simpa [changes] using h
    exact List.pairwise_singleton _ _
  obtain ⟨same, placed, refused, readers, ordered, again⟩ :=
    after_recorded increasing changes objects
  have kept : "c" ∈ spec.names :=
    (readers "c").2.1 ((readers "c").1.2 ⟨.null, (same "c").trans rfl⟩)
  exact ⟨increasing, objects, (same "a").trans rfl, (same "b").trans rfl, (placed "c").trans rfl,
    refused _ (by simp), kept, ordered, again⟩

end Spec

end Stencil
