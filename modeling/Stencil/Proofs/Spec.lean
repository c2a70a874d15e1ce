import Stencil.Spec

/-!
# Fields that are added to a spec

Putting a name into a finite map changes the value of that name and of no other.  A spec therefore
grows by placeholders only: every field that it had before stays as it was.
-/

namespace Stencil

namespace Fields

variable {α : Type}

theorem get?_insert (name key : String) (value : α) (fields : Fields α) :
    (fields.insert name value).get? key = if name = key then some value else fields.get? key := by
  induction fields with
  | nil => simp [insert, get?]
  | cons field rest ih =>
    obtain ⟨n, v⟩ := field
    rw [insert]
    split
    · rename_i hn
      subst hn
      by_cases hk : n = key <;> simp [get?, hk]
    · rename_i hn
      split
      · by_cases hk : name = key <;> simp [get?, hk]
      · rw [get?, get?]
        by_cases hk : n = key
        · subst hk
          simp [Ne.symm hn]
        · simp [hk, ih]

theorem mem_names_of_get? {fields : Fields α} {name : String} {value : α}
    (h : fields.get? name = some value) : name ∈ fields.names := by
  induction fields with
  | nil => simp [get?] at h
  | cons field rest ih =>
    obtain ⟨n, v⟩ := field
    rw [get?] at h
    by_cases hn : n = name
    · simp [names, hn]
    · rw [if_neg hn] at h
      exact List.mem_cons_of_mem _ (ih h)

theorem insert_last {fields : Fields α} {name : String} (value : α)
    (last : ∀ n ∈ fields.names, n < name) :
    fields.insert name value = fields ++ [(name, value)] := by
  induction fields with
  | nil => rfl
  | cons field rest ih =>
    obtain ⟨n, v⟩ := field
    have before : n < name := last n (by simp [names])
    have ne : n ≠ name := by
      rintro rfl
      exact String.lt_irrefl n before
    rw [insert, if_neg ne, if_neg (String.lt_asymm before), ih, List.cons_append]
    exact fun n' h => last n' (List.mem_cons_of_mem _ h)

/-- Fields in the order of their names are their own map. -/
theorem ofList_eq_self {fields : Fields α} (ordered : fields.names.Pairwise (· < ·)) :
    ofList fields = fields := by
  have onto (before : Fields α) (h : (before ++ fields).names.Pairwise (· < ·)) :
      fields.foldl (fun fields field => fields.insert field.1 field.2) before =
        before ++ fields := by
    induction fields generalizing before with
    | nil => simp
    | cons field rest ih =>
      obtain ⟨name, value⟩ := field
      have last : ∀ n ∈ before.names, n < name := by
        intro n hn
        simp only [names, List.map_append, List.map_cons, List.pairwise_append] at h
        exact h.2.2 n hn name (by simp)
      have next := ih (List.pairwise_cons.1 ordered).2 (before ++ [(name, value)]) (by simpa using h)
      rw [List.append_assoc, List.singleton_append, ← insert_last value last] at next
      exact next
  exact onto [] ordered

end Fields

namespace Spec

theorem get?_set (spec : Spec) (name key : String) (value : Json) :
    (spec.set name value).get? key = if name = key then some value else spec.get? key :=
  Fields.get?_insert name key value spec.fields

theorem has_eq_false_iff {spec : Spec} {name : String} :
    spec.has name = false ↔ spec.get? name = none := by
  simp [has]

theorem get?_placehold_of_none {spec : Spec} {name : String} (absent : spec.get? name = none)
    (key : String) :
    (spec.placehold name).get? key =
      if name = key then some (.object []) else spec.get? key := by
  rw [placehold, has_eq_false_iff.2 absent]
  exact get?_set spec name key (.object [])

/-- A placeholder is seen where there is no field. -/
theorem get?_placehold (spec : Spec) (name key : String) :
    (spec.placehold name).get? key =
      (spec.get? key).or (if name = key then some (.object []) else none) := by
  cases found : spec.get? name with
  | none =>
    rw [get?_placehold_of_none found]
    by_cases hk : name = key
    · subst hk
      simp [found]
    · simp [hk]
  | some json =>
    have field : spec.has name = true := by simp [has, found]
    rw [placehold, if_pos field]
    by_cases hk : name = key
    · subst hk
      simp [found]
    · simp [hk]

/-! ## Extensions -/

/-- `after` has what `before` has and an empty object for each of the names `added`. -/
structure Extends (before : Spec) (added : List String) (after : Spec) : Prop where
  nodup : added.Nodup
  absent : ∀ name ∈ added, before.get? name = none
  get? : ∀ name, after.get? name =
    if name ∈ added then some (.object []) else before.get? name

namespace Extends

variable {before middle after : Spec} {names more : List String} {name : String}

theorem refl (spec : Spec) : Extends spec [] spec :=
  ⟨List.nodup_nil, by simp, by simp⟩

theorem trans (first : Extends before names middle) (second : Extends middle more after) :
    Extends before (names ++ more) after := by
  -- A name of the second step was absent in the middle, so it is none of the first step.
  have fresh : ∀ name ∈ more, name ∉ names := by
    intro name hm hn
    have := second.absent name hm
    rw [first.get?, if_pos hn] at this
    simp at this
  refine ⟨?_, ?_, ?_⟩
  · exact List.nodup_append.2 ⟨first.nodup, second.nodup,
      fun a ha b hb hab => fresh b hb (hab ▸ ha)⟩
  · intro name h
    rcases List.mem_append.1 h with hn | hm
    · exact first.absent name hn
    · have := second.absent name hm
      rwa [first.get?, if_neg (fresh name hm)] at this
  · intro name
    rw [second.get?, first.get?]
    by_cases hm : name ∈ more <;> by_cases hn : name ∈ names <;> simp [hm, hn]

theorem get?_of_some (h : Extends before names after) {value : Json}
    (found : before.get? name = some value) : after.get? name = some value := by
  rw [h.get?, if_neg, found]
  intro hn
  rw [h.absent name hn] at found
  simp at found

theorem placehold (absent : before.get? name = none) :
    Extends before [name] (before.placehold name) := by
  refine ⟨by simp, by simpa using absent, fun key => ?_⟩
  rw [get?_placehold_of_none absent]
  simp only [List.mem_singleton, eq_comm]

theorem foldl_placehold (nodup : names.Nodup) (absent : ∀ name ∈ names, before.get? name = none) :
    Extends before names (names.foldl Spec.placehold before) := by
  induction names generalizing before with
  | nil => exact refl before
  | cons name rest ih =>
    obtain ⟨hname, hrest⟩ := List.nodup_cons.1 nodup
    have first : Extends before [name] (before.placehold name) :=
      placehold (absent name (by simp))
    refine first.trans (ih hrest fun other ho => ?_)
    rw [first.get?, if_neg]
    · exact absent other (by simp [ho])
    · rintro h
      rw [List.mem_singleton] at h
      exact hname (h ▸ ho)

end Extends

end Spec

end Stencil
