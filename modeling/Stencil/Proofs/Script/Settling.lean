import Stencil.Proofs.Script.Plain
import Stencil.Proofs.Script.Running

/-!
# Evaluations without effect

A plain expression calls nothing and changes nothing.  Where its variables are fields, evaluation comes to
its value, and where it has none, to a fault that a handler can catch; no name is missed.
-/

namespace Stencil.Script

variable {known : String → Bool} {names : Names} {e e' : Expr}

/-! ## Faults that can be caught -/

namespace Operator

/-- What an operator fails with can be caught by a handler. -/
def Catchable (result : Applied) : Prop := ∀ t, result = some (.error t) → t.catchable = true

theorem catchable_none : Catchable none := nofun

theorem catchable_ok (v : Value) : Catchable (some (.ok v)) := by
  rintro t ⟨⟩

theorem catchable_arithmetic (message : String) :
    Catchable (some (.error (.arithmetic message))) := by
  rintro t ⟨⟩
  rfl

theorem catchable_checked (i : Int) (message : String) : Catchable (some (checked i message)) := by
  unfold checked
  split
  · exact catchable_ok _
  · exact catchable_arithmetic message

theorem catchable_power (a b : Int) : Catchable (some (power a b)) := by
  unfold power
  dsimp only
  repeat' split
  all_goals first
    | exact catchable_ok _
    | exact catchable_arithmetic _
    | exact catchable_checked _ _

theorem catchable_onInts (op : String) (a b : Int) : Catchable (onInts op a b) := by
  unfold onInts
  repeat' split
  all_goals first
    | exact catchable_ok _
    | exact catchable_none
    | exact catchable_arithmetic _
    | exact catchable_checked _ _
    | exact catchable_power _ _

theorem catchable_onFloats (op : String) (a b : Float) : Catchable (onFloats op a b) := by
  unfold onFloats
  split <;> first | exact catchable_ok _ | exact catchable_none

theorem catchable_compared (op : String) (equal less : Bool) :
    Catchable (compared op equal less) := by
  unfold compared
  split <;> first | exact catchable_ok _ | exact catchable_none

theorem catchable_comparedFloats (op : String) (a b : Float) :
    Catchable (comparedFloats op a b) := by
  unfold comparedFloats
  split <;> first | exact catchable_ok _ | exact catchable_none

theorem catchable_unary (op : String) (v : Value) : Catchable (unary op v) := by
  unfold unary
  split <;> first | exact catchable_ok _ | exact catchable_none | exact catchable_checked _ _

theorem catchable_binary (op : String) (a b : Value) : Catchable (binary op a b) := by
  unfold binary
  repeat' split
  all_goals first
    | exact catchable_ok _
    | exact catchable_none
    | exact catchable_onInts _ _ _
    | exact catchable_onFloats _ _ _
    | exact catchable_compared _ _ _
    | exact catchable_comparedFloats _ _ _

theorem catchable_contains (container item : Value) : Catchable (contains container item) := by
  unfold contains
  split <;> first | exact catchable_ok _ | exact catchable_none

theorem catchable_apply (op : String) (vs : List Value) : Catchable (apply op vs) := by
  unfold apply
  split
  · exact catchable_unary _ _
  · split
    · exact catchable_contains _ _
    · exact catchable_binary _ _ _
  · exact catchable_none

end Operator

namespace Value

theorem catchable_readProperty {v : Value} {name : String} {t : Trouble}
    (h : v.readProperty name = .error t) : t.catchable = true := by
  unfold readProperty at h
  split at h
  · cases h
  · split at h
    · cases h
    · cases h
      rfl

theorem catchable_arrayPlace {count : Nat} {i : Value} {t : Trouble}
    (h : arrayPlace count i = .error t) : t.catchable = true := by
  unfold arrayPlace at h
  split at h
  · split at h <;> cases h
    rfl
  · cases h
    rfl

theorem catchable_charPlace {count : Nat} {i : Value} {t : Trouble}
    (h : charPlace count i = .error t) : t.catchable = true := by
  unfold charPlace at h
  split at h
  · split at h <;> cases h
    rfl
  · cases h
    rfl

theorem catchable_readIndex {v i : Value} {t : Trouble} (h : v.readIndex i = .error t) :
    t.catchable = true := by
  unfold readIndex at h
  split at h
  · cases place : arrayPlace _ i with
    | error t' =>
      rw [place] at h
      cases h
      exact catchable_arrayPlace place
    | ok k =>
      rw [place] at h
      cases h
  · cases h
  · cases h
    rfl
  · cases place : charPlace _ i with
    | error t' =>
      rw [place] at h
      cases h
      exact catchable_charPlace place
    | ok k =>
      rw [place] at h
      cases h
  · split at h <;> cases h
    rfl
  · cases h
  · cases h
    rfl

/-- What has been read of an array can be written back. -/
theorem writeIndex_of_readIndex {items : List Value} {i part : Value}
    (h : readIndex (.array items) i = .ok part) (v : Value) :
    ∃ w, writeIndex (.array items) i v = .ok w := by
  simp only [readIndex] at h
  simp only [writeIndex]
  cases place : arrayPlace items.length i with
  | error t =>
    rw [place] at h
    cases h
  | ok k => exact ⟨_, rfl⟩

theorem writeProperty_of_hasField {v : Value} {name : String} (h : v.hasField name = true)
    (part : Value) : ∃ w, v.writeProperty name part = .ok w := by
  cases v with
  | map fields => exact ⟨_, rfl⟩
  | _ => simp [hasField] at h

end Value

namespace Eval

variable {α β : Type} {scope : List Binding} {r : Resolver} {fs : List Function} {below : Below}

/-! ## Chains -/

/-- Following a chain comes to a value, or to a fault that can be caught, whatever the state is. -/
def Walks (e : Eval (Value × Value)) : Option Value → Prop
  | some w => ∃ v, e = ok (w, v)
  | none => ∃ t p, e = fault t p ∧ t.catchable = true

/-- A step is followed by the rest of the chain, and what became of the part is written back. -/
theorem walks_step {read : Except Trouble Value} {p : Pos} {rest : Value → Eval (Value × Value)}
    {result : Value → Option Value} {back : Value × Value → Eval (Value × Value)}
    (catchable : ∀ t, read = .error t → t.catchable = true)
    (later : ∀ part, read = .ok part → Walks (rest part) (result part))
    (written : ∀ part, read = .ok part → ∀ end_, ∃ v, back end_ = ok (end_.1, v)) :
    Walks (do
      let part ← located p read
      back (← rest part)) (read.toOption.bind result) := by
  cases read with
  | error t => exact ⟨t, p, rfl, catchable t rfl⟩
  | ok part =>
    change Walks (rest part >>= back) (result part)
    have reached := later part rfl
    cases found : result part with
    | none =>
      rw [found] at reached
      obtain ⟨t, q, eq, caught⟩ := reached
      exact ⟨t, q, by rw [eq]; rfl, caught⟩
    | some w =>
      rw [found] at reached
      obtain ⟨part', eq⟩ := reached
      obtain ⟨v, back_eq⟩ := written part rfl (w, part')
      exact ⟨v, by rw [eq]; exact back_eq⟩

theorem walks_of_plain {as : List Access} (plain : ∀ name args p o, .method name args p o ∉ as)
    (engine : Engine) (constant : Bool) (v : Value) :
    Walks (walk engine below as constant v) (reach? as v) := by
  induction as generalizing constant v with
  | nil => exact ⟨v, rfl⟩
  | cons a rest ih =>
    have later := ih fun name args p o h => plain name args p o (List.mem_cons_of_mem a h)
    cases a with
    | method name args p o => exact absurd List.mem_cons_self (plain name args p o)
    | property name p o =>
      by_cases skips : o = true ∧ v = .unit
      · obtain ⟨rfl, rfl⟩ := skips
        exact ⟨.unit, rfl⟩
      · rw [reach?.eq_def, walk.eq_def]
        dsimp only
        rw [if_neg, if_neg]
        · refine walks_step (fun t => Value.catchable_readProperty)
            (fun part _ => later constant part) fun part read end_ => ?_
          split
          · exact ⟨v, rfl⟩
          · split
            · rename_i has
              obtain ⟨v', eq⟩ := Value.writeProperty_of_hasField has end_.2
              exact ⟨v', by rw [eq]; rfl⟩
            · exact ⟨v, rfl⟩
        all_goals cases v <;> simp_all
    | index i p o =>
      by_cases skips : o = true ∧ v = .unit
      · obtain ⟨rfl, rfl⟩ := skips
        exact ⟨.unit, rfl⟩
      · rw [reach?.eq_def, walk.eq_def]
        dsimp only
        rw [if_neg, if_neg]
        · refine walks_step (fun t => Value.catchable_readIndex)
            (fun part _ => later constant part) fun part read end_ => ?_
          split
          · exact ⟨_, rfl⟩
          · obtain ⟨v', eq⟩ := Value.writeIndex_of_readIndex read end_.2
            exact ⟨v', by rw [eq]; rfl⟩
          · split
            · exact ⟨_, rfl⟩
            · exact ⟨_, rfl⟩
          · exact ⟨_, rfl⟩
        all_goals cases v <;> simp_all

/-! ## Evaluations without effect -/

/--
From the variables `scope` and the resolver `r` an evaluation comes to a value, or to a fault that can
be caught.  It changes no variable and misses no name.
-/
def Settles (e : Eval α) (scope : List Binding) (r : Resolver) : Option α → Prop
  | some a => ∃ r', Ends e scope r (.ok a) scope r' ∧ Resolver.Later r [] r'
  | none => ∃ failure r', Ends e scope r (.error (.fault failure)) scope r' ∧
      failure.catchable = true ∧ Resolver.Later r [] r'

namespace Settles

variable {e : Eval α} {f : α → Eval β} {a : α} {p : Pos} {x : Option α} {g : α → Option β}

theorem ok (hr : r.Sound) : Settles (Eval.ok a) scope r (some a) :=
  ⟨r, Ends.ok, Resolver.Later.refl hr⟩

theorem fault {t : Trouble} (hr : r.Sound) (caught : t.catchable = true) :
    Settles (Eval.fault t p : Eval α) scope r none :=
  ⟨.here t (some p), r, Ends.fault, caught, Resolver.Later.refl hr⟩

theorem tick (hr : r.Sound) : Settles (Eval.tick 0 p) scope r (some ()) :=
  ⟨r, Ends.tick, Resolver.Later.refl hr⟩

theorem bind (first : Settles e scope r x)
    (second : ∀ a r', x = some a → Resolver.Later r [] r' → Settles (f a) scope r' (g a)) :
    Settles (e >>= f) scope r (x.bind g) := by
  cases x with
  | none =>
    obtain ⟨failure, r', ends, caught, later⟩ := first
    exact ⟨failure, r', Ends.bind_error ends, caught, later⟩
  | some a =>
    obtain ⟨r', ends, later⟩ := first
    have behind := second a r' rfl later
    rw [Option.bind_some]
    cases result : g a with
    | none =>
      rw [result] at behind
      obtain ⟨failure, r'', ends', caught, later'⟩ := behind
      exact ⟨failure, r'', Ends.bind ends ends', caught, later.trans later'⟩
    | some b =>
      rw [result] at behind
      obtain ⟨r'', ends', later'⟩ := behind
      exact ⟨r'', Ends.bind ends ends', later.trans later'⟩

/-- Behind a step that always succeeds. -/
theorem after {y : Option β} (first : Settles e scope r (some a))
    (second : ∀ r', Resolver.Later r [] r' → Settles (f a) scope r' y) :
    Settles (e >>= f) scope r y :=
  @bind _ _ _ _ _ _ _ (fun _ => y) first fun _ r' eq later => Option.some.inj eq ▸ second r' later

theorem map {g : α → β} (first : Settles e scope r x) :
    Settles (do return g (← e)) scope r (x.map g) := by
  rw [Option.map_eq_bind]
  exact first.bind fun a r' _ later => ok later.sound

end Settles

/-- What stands for fields: names that no variable in sight has. -/
def Shows (scope : List Binding) (names : Names) (known : String → Bool) : Prop :=
  ∀ name, known name = true →
    scope.find? (·.name = name) = none ∧ ∃ v, names name = some v

/-- A field is found as a constant that is no variable of the script. -/
theorem settles_lookup {name : String} {v : Json} {p : Pos} (hr : r.Sound)
    (hidden : scope.find? (·.name = name) = none) (found : r.meaning? name = some v) :
    Settles (lookup (engine fs) name p) scope r (some ⟨Value.ofJson v, true, false⟩) := by
  have absent := @Ends.binding? scope r name
  rw [hidden] at absent
  have asked := @Ends.field scope r name
  obtain ⟨answer, later⟩ := Resolver.resolve_spec hr name
  rw [found] at answer later
  rw [answer] at asked
  exact ⟨(r.resolve name).2, Ends.bind absent (Ends.bind asked Ends.pure), later⟩

theorem settles_located {result : Except Trouble α} {p : Pos} (hr : r.Sound)
    (caught : ∀ t, result = .error t → t.catchable = true) :
    Settles (located p result) scope r result.toOption := by
  cases result with
  | ok a => exact .ok hr
  | error t => exact .fault hr (caught t rfl)

theorem settles_applied {op : String} {vs : List Value} {p : Pos} (hr : r.Sound) :
    Settles (match Operator.apply op vs with
      | some r => located p r
      | none => fault (.unknownFunction (signature op vs)) p) scope r
        ((Operator.apply op vs).bind Except.toOption) := by
  have caught := Operator.catchable_apply op vs
  cases result : Operator.apply op vs with
  | none => exact .fault hr rfl
  | some r =>
    rw [result] at caught
    exact settles_located hr fun t failed => caught t (by rw [failed])

theorem settles_walk {as : List Access} (plain : ∀ name args p o, .method name args p o ∉ as)
    {engine : Engine} {constant : Bool} {v : Value} (hr : r.Sound) {f : Value → Value → Eval Value}
    (back : ∀ w v, f w v = Eval.ok w) :
    Settles (do
      let (w, v) ← walk engine below as constant v
      f w v) scope r (reach? as v) := by
  have walks := @walks_of_plain below as plain engine constant v
  cases found : reach? as v with
  | none =>
    rw [found] at walks
    obtain ⟨t, p, eq, caught⟩ := walks
    rw [eq]
    exact .fault hr caught
  | some w =>
    rw [found] at walks
    obtain ⟨v', eq⟩ := walks
    rw [eq]
    change Settles (f w v') scope r (some w)
    rw [back]
    exact .ok hr

theorem method_not_mem {ss : List Step} {as : List Access} (h : accesses? names ss = some as)
    (name : String) (args : List Value) (p : Pos) (o : Bool) : .method name args p o ∉ as := by
  induction ss generalizing as with
  | nil =>
    cases h
    simp
  | cons s rest ih =>
    cases s with
    | method => cases h
    | property name' p' o' =>
      rw [accesses?, Option.map_eq_some_iff] at h
      obtain ⟨as', later, rfl⟩ := h
      simp [ih later]
    | index e p' o' =>
      rw [accesses?, Option.bind_eq_some_iff] at h
      obtain ⟨v, -, h⟩ := h
      rw [Option.map_eq_some_iff] at h
      obtain ⟨as', later, rfl⟩ := h
      simp [ih later]

theorem meaning?_of_later {r' : Resolver} (same : r.meaning? = names)
    (later : Resolver.Later r [] r') : r'.meaning? = names :=
  (funext later.meaning?).trans same

/-- A chain whose root is no place that could be written to. -/
theorem settles_chain {root : Expr} {ss : List Step} (same : r.meaning? = names)
    (no_variable : ∀ name p, root ≠ .variable name p) (no_receiver : ∀ p, root ≠ .this p)
    (first : Settles (accesses (engine fs) below ss) scope r (accesses? names ss))
    (second : ∀ r' : Resolver, r'.Sound → r'.meaning? = names →
      Settles (expr (engine fs) below root) scope r' (root.value? names)) :
    Settles (expr (engine fs) below (.chain root ss)) scope r
      ((Expr.chain root ss).value? names) := by
  rw [expr, Expr.value?]
  · refine first.bind fun as r' steps later => ?_
    refine (second r' later.sound (meaning?_of_later same later)).bind fun v r'' _ later' => ?_
    exact settles_walk (method_not_mem steps) later'.sound fun w v => rfl
  · exact fun name p eq => no_variable name p eq
  · exact fun p eq => no_receiver p eq

mutual

/-- A plain expression whose variables are fields comes to its value. -/
theorem settles_expr (shows : Shows scope names known) : ∀ e : Expr, e.isPlain known = true →
    ∀ r : Resolver, r.Sound → r.meaning? = names →
      Settles (expr (engine fs) below e) scope r (e.value? names)
  | .const v p, _, r, hr, _ => (Settles.tick hr).after fun r' later => .ok later.sound
  | .variable name p, h, r, hr, same => by
    obtain ⟨hidden, v, found⟩ := shows name h
    rw [expr, Expr.value?, found]
    refine (Settles.tick hr).after fun r' later => ?_
    exact (settles_lookup later.sound hidden
      (by rw [meaning?_of_later same later, found])).map (g := Found.value)
  | .operator op args p, h, r, hr, same => by
    rw [expr, Expr.value?]
    refine (Settles.tick hr).after fun r' later => ?_
    exact (settles_exprs shows args h r' later.sound (meaning?_of_later same later)).bind
      fun vs r'' _ later' => settles_applied later'.sound
  | .chain (.variable name p) ss, h, r, hr, same => by
    rw [Expr.isPlain, Bool.and_eq_true] at h
    obtain ⟨hidden, v, found⟩ := shows name h.1
    rw [expr, Expr.value?, Expr.value?, found, Option.map_some]
    refine (settles_accesses shows ss h.2 r hr same).bind fun as r' steps later => ?_
    refine (Settles.tick later.sound).after fun r'' later' => ?_
    have within := meaning?_of_later (meaning?_of_later same later) later'
    refine (settles_lookup later'.sound hidden (by rw [within, found])).after fun u later'' => ?_
    exact settles_walk (method_not_mem steps) later''.sound fun w v => rfl
  | .chain (.const v p) ss, h, r, hr, same => by
    rw [Expr.isPlain, Bool.and_eq_true] at h
    exact settles_chain same nofun nofun (settles_accesses shows ss h.2 r hr same)
      (settles_expr shows (.const v p) h.1)
  | .chain (.operator op args p) ss, h, r, hr, same => by
    rw [Expr.isPlain, Bool.and_eq_true] at h
    exact settles_chain same nofun nofun (settles_accesses shows ss h.2 r hr same)
      (settles_expr shows (.operator op args p) h.1)
  | .chain (.chain root inner) ss, h, r, hr, same => by
    rw [Expr.isPlain, Bool.and_eq_true] at h
    exact settles_chain same nofun nofun (settles_accesses shows ss h.2 r hr same)
      (settles_expr shows (.chain root inner) h.1)

theorem settles_exprs (shows : Shows scope names known) : ∀ es : List Expr,
    plainExprs known es = true → ∀ r : Resolver, r.Sound → r.meaning? = names →
      Settles (exprs (engine fs) below es) scope r (values? names es)
  | [], _, r, hr, _ => .ok hr
  | e :: rest, h, r, hr, same => by
    rw [plainExprs, Bool.and_eq_true] at h
    rw [exprs, values?]
    refine (settles_expr shows e h.1 r hr same).bind fun v r' _ later => ?_
    exact (settles_exprs shows rest h.2 r' later.sound (meaning?_of_later same later)).map

theorem settles_accesses (shows : Shows scope names known) : ∀ ss : List Step,
    plainSteps known ss = true → ∀ r : Resolver, r.Sound → r.meaning? = names →
      Settles (accesses (engine fs) below ss) scope r (accesses? names ss)
  | [], _, r, hr, _ => .ok hr
  | .property name p o :: rest, h, r, hr, same => by
    rw [accesses, accesses?]
    exact (settles_accesses shows rest h r hr same).map
  | .index e p o :: rest, h, r, hr, same => by
    rw [plainSteps, Bool.and_eq_true] at h
    rw [accesses, accesses?]
    refine (settles_expr shows e h.1 r hr same).bind fun v r' _ later => ?_
    exact (settles_accesses shows rest h.2 r' later.sound (meaning?_of_later same later)).map

end

/-! ## Rendering -/

/-- An argument that is no variable of the script is left alone by the call. -/
theorem settles_render_value {q : Pos} (no_variable : ∀ name p, e ≠ .variable name p)
    (hr : r.Sound) (value : ∀ r' : Resolver, Resolver.Later r [] r' →
      Settles (expr (engine []) below e) scope r' (e.value? names)) :
    Settles (expr (engine []) below (.call "_render" [e] q)) scope r
      ((e.value? names).map fun v => .string v.render) := by
  rw [expr]
  · refine (Settles.tick hr).after fun r' later => ?_
    rw [exprs]
    have argument := value r' later
    cases found : e.value? names with
    | none =>
      rw [found] at argument
      obtain ⟨failure, r'', ends, caught, later'⟩ := argument
      exact ⟨failure, r'', Ends.bind_error (Ends.bind_error ends), caught, later'⟩
    | some v =>
      rw [found] at argument
      obtain ⟨r'', ends, later'⟩ := argument
      refine ⟨r'', Ends.bind (Ends.bind ends (Ends.bind Ends.ok Ends.pure)) ?_, later'⟩
      exact (Ends.ok : Ends (Eval.ok (Value.string v.render)) scope r'' _ scope r'')
  · intro name p more eq
    simp only [List.cons.injEq] at eq
    exact no_variable name p eq.1

theorem settles_render {q : Pos} (shows : Shows scope names known)
    (plain : e.isPlain known = true) (hr : r.Sound) (same : r.meaning? = names) :
    Settles (expr (engine []) below (.call "_render" [e] q)) scope r
      ((e.value? names).map fun v => .string v.render) := by
  by_cases named : ∃ name p, e = .variable name p
  · obtain ⟨name, p, rfl⟩ := named
    obtain ⟨hidden, v, found⟩ := shows name plain
    rw [expr, Expr.value?, found]
    refine (Settles.tick hr).after fun r' later => ?_
    rw [if_neg (by decide)]
    refine (Settles.ok later.sound).after fun r'' later' => ?_
    refine (Settles.tick later'.sound).after fun u later'' => ?_
    have within :=
      meaning?_of_later (meaning?_of_later (meaning?_of_later same later) later') later''
    refine (settles_lookup later''.sound hidden (by rw [within, found])).after fun w last => ?_
    exact Settles.ok last.sound
  · exact settles_render_value (fun name p eq => named ⟨name, p, eq⟩) hr fun r' later =>
      settles_expr shows e plain r' later.sound (meaning?_of_later same later)

end Eval

end Stencil.Script
