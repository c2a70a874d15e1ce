import Stencil.Script.Evaluator
import Stencil.Proofs.Resolver
import Stencil.Proofs.Script.Outline

/-!
# Running outlines

The statements of an outline append its text to the variable `code` and ask for the names that it
misses, in order; a substitution of such a name appends its fallback.  Variables of loops stand in
front of the fields of the spec.  Simplification takes out only what appends nothing.
-/

namespace Stencil.Script

variable {α β : Type}

namespace Eval

/-! ## Evaluations that ask nothing -/

/--
From the variables `scope` an evaluation comes to the result `a` with the variables `scope'`.  It asks
nothing, and of the rest of the state it changes nothing but the count of operations.
-/
def Yields (e : Eval α) (scope : List Binding) (a : α) (scope' : List Binding) : Prop :=
  ∀ m : Machine, m.scope = scope →
    ∃ n, e m = .done (.ok a, { m with scope := scope', operations := n })

theorem rebind_of_find? {name : String} {b : Binding} {scope : List Binding}
    (h : scope.find? (·.name = name) = some b) : rebind name b.value scope = scope := by
  induction scope with
  | nil => rfl
  | cons c rest ih =>
    rw [rebind]
    by_cases hn : c.name = name
    · rw [List.find?_cons_of_pos (by simpa using hn)] at h
      obtain rfl := Option.some.inj h
      rw [if_pos hn]
    · rw [List.find?_cons_of_neg (by simpa using hn)] at h
      rw [if_neg hn, ih h]

namespace Yields

variable {e : Eval α} {f : α → Eval β} {a : α} {b : β} {scope scope' scope'' : List Binding}
  {name : String} {v : Value}

theorem ok : Yields (Eval.ok a) scope a scope := by
  rintro m rfl
  exact ⟨m.operations, rfl⟩

theorem pure : Yields (Pure.pure a) scope a scope := ok

theorem bind (first : Yields e scope a scope') (second : Yields (f a) scope' b scope'') :
    Yields (e >>= f) scope b scope'' := by
  intro m hm
  obtain ⟨n, hn⟩ := first m hm
  obtain ⟨n', hn'⟩ := second { m with scope := scope', operations := n } rfl
  refine ⟨n', ?_⟩
  change (e m).bind _ = _
  rw [hn]
  exact hn'

theorem tick {limit : Nat} {p : Pos} (unlimited : limit = 0) :
    Yields (Eval.tick limit p) scope () scope := by
  rintro m rfl
  subst unlimited
  exact ⟨m.operations + 1, rfl⟩

theorem enclosed (h : Yields e scope a scope') :
    Yields (Eval.enclosed e) scope a (scope'.drop (scope'.length - scope.length)) := by
  intro m hm
  obtain ⟨n, hn⟩ := h m hm
  refine ⟨n, ?_⟩
  subst hm
  change ((e m).bind fun result => Inquiry.done (Except.ok result.1, result.2)).bind _ = _
  rw [hn]
  rfl

theorem declare {constant : Bool} :
    Yields (Eval.declare name v constant) scope () (⟨name, v, constant⟩ :: scope) := by
  rintro m rfl
  exact ⟨m.operations, rfl⟩

theorem binding? : Yields (Eval.binding? name) scope (scope.find? (·.name = name)) scope := by
  rintro m rfl
  exact ⟨m.operations, rfl⟩

theorem contents (plain : ∀ id, v ≠ .cell id) : Yields (Eval.contents v) scope v scope := by
  rintro m rfl
  refine ⟨m.operations, ?_⟩
  rw [Eval.contents]
  exact plain

/-- To give a variable the value that it has changes nothing. -/
theorem assign_self {b : Binding} (found : scope.find? (·.name = name) = some b)
    (plain : ∀ id, b.value ≠ .cell id) : Yields (assign name b.value) scope () scope := by
  rintro m rfl
  refine ⟨m.operations, ?_⟩
  rw [assign, found]
  split
  · rename_i id _ heq
    obtain rfl := Option.some.inj heq
    exact absurd rfl (plain id)
  · rw [rebind_of_find? found]
  · simp_all

section

variable {engine : Engine} {below : Below} {p : Pos} {binding : Binding}

theorem lookup (found : scope.find? (·.name = name) = some binding)
    (plain : ∀ id, binding.value ≠ .cell id) :
    Yields (Eval.lookup engine name p) scope ⟨binding.value, binding.constant, true⟩ scope := by
  have first := @binding? scope name
  rw [found] at first
  exact first.bind ((contents plain).bind pure)

theorem mention (unlimited : engine.limit = 0)
    (found : scope.find? (·.name = name) = some binding)
    (plain : ∀ id, binding.value ≠ .cell id) :
    Yields (expr engine below (.variable name p)) scope binding.value scope :=
  (tick unlimited).bind ((lookup found plain).bind pure)

/-- Reading a field of a variable leaves the variable as it is. -/
theorem index {key : String} {fields : Fields Value} {q u : Pos} (unlimited : engine.limit = 0)
    (found : scope.find? (·.name = name) = some ⟨name, .map fields, false⟩) :
    Yields (expr engine below
        (.chain (.variable name p) [.index (.const (.string key) q) u false])) scope
      ((fields.get? key).getD .unit) scope := by
  have plain : ∀ id, (⟨name, .map fields, false⟩ : Binding).value ≠ .cell id := by simp
  have indices : Yields (accesses engine below [.index (.const (.string key) q) u false]) scope
      [.index (.string key) q false] scope :=
    bind (bind (tick unlimited) pure) (ok.bind pure)
  have walked : Yields (walk engine below [.index (.string key) q false] false (.map fields)) scope
      ((fields.get? key).getD .unit, .map fields) scope :=
    bind ok (ok.bind pure)
  exact indices.bind ((tick unlimited).bind ((lookup found plain).bind
    (walked.bind ((assign_self found plain).bind pure))))

theorem stmts_cons {s : Stmt} {rest : List Stmt} {w : Value} (filled : rest ≠ [])
    (first : Yields (stmt engine below s) scope w scope')
    (others : Yields (stmts engine below rest) scope' v scope'') :
    Yields (stmts engine below (s :: rest)) scope v scope'' := by
  rw [stmts]
  · exact first.bind others
  · exact filled

end

end Yields

/-! ## Evaluations that ask a resolver -/

/--
From the variables `scope` and the resolver `r` an evaluation comes to a result, whatever else the
state of the machine is, of which it changes nothing but the count of operations.
-/
def Ends (e : Eval α) (scope : List Binding) (r : Resolver) (result : Except Stop α)
    (scope' : List Binding) (r' : Resolver) : Prop :=
  ∀ m : Machine, m.scope = scope → ∃ n,
    (e m).run Resolver.answerer r = ((result, { m with scope := scope', operations := n }), r')

namespace Ends

variable {e : Eval α} {f : α → Eval β} {a : α} {s : Stop} {result : Except Stop β}
  {scope scope' scope'' : List Binding} {r r' r'' : Resolver}

theorem of_yields (h : Yields e scope a scope') : Ends e scope r (.ok a) scope' r := by
  intro m hm
  obtain ⟨n, hn⟩ := h m hm
  exact ⟨n, by rw [hn, Inquiry.run_done]⟩

theorem ok : Ends (Eval.ok a) scope r (.ok a) scope r := of_yields .ok

theorem pure : Ends (Pure.pure a) scope r (.ok a) scope r := ok

theorem stop : Ends (Eval.stop s : Eval α) scope r (.error s) scope r := by
  rintro m rfl
  exact ⟨m.operations, rfl⟩

theorem fault {t : Trouble} {p : Pos} :
    Ends (Eval.fault t p : Eval α) scope r (.error (.fault (.here t (some p)))) scope r := stop

theorem bind (first : Ends e scope r (.ok a) scope' r')
    (second : Ends (f a) scope' r' result scope'' r'') :
    Ends (e >>= f) scope r result scope'' r'' := by
  intro m hm
  obtain ⟨n, hn⟩ := first m hm
  obtain ⟨n', hn'⟩ := second { m with scope := scope', operations := n } rfl
  refine ⟨n', ?_⟩
  change ((e m).bind _).run Resolver.answerer r = _
  rw [Inquiry.run_bind, hn]
  exact hn'

theorem bind_error (first : Ends e scope r (.error s) scope' r') :
    Ends (e >>= f) scope r (.error s) scope' r' := by
  intro m hm
  obtain ⟨n, hn⟩ := first m hm
  refine ⟨n, ?_⟩
  change ((e m).bind _).run Resolver.answerer r = _
  rw [Inquiry.run_bind, hn]
  rfl

theorem tick {p : Pos} : Ends (Eval.tick 0 p) scope r (.ok ()) scope r := of_yields (.tick rfl)

theorem outcome {result : Except Stop α} (h : Ends e scope r result scope' r') :
    Ends (Eval.outcome e) scope r (.ok result) scope' r' := by
  intro m hm
  obtain ⟨n, hn⟩ := h m hm
  refine ⟨n, ?_⟩
  change ((e m).bind _).run Resolver.answerer r = _
  rw [Inquiry.run_bind, hn]
  rfl

theorem ofOutcome {result : Except Stop α} :
    Ends (Eval.ofOutcome result) scope r result scope r := by
  cases result with
  | ok a => exact ok
  | error s => exact stop

theorem enclosed {result : Except Stop α} (h : Ends e scope r result scope' r') :
    Ends (Eval.enclosed e) scope r result (scope'.drop (scope'.length - scope.length)) r' := by
  intro m hm
  obtain ⟨n, hn⟩ := outcome h m hm
  refine ⟨n, ?_⟩
  subst hm
  change ((Eval.outcome e m).bind _).run Resolver.answerer r = _
  rw [Inquiry.run_bind, hn]
  cases result <;> rfl

theorem declare {name : String} {v : Value} {constant : Bool} :
    Ends (Eval.declare name v constant) scope r (.ok ()) (⟨name, v, constant⟩ :: scope) r :=
  of_yields .declare

theorem binding? {name : String} :
    Ends (Eval.binding? name) scope r (.ok (scope.find? (·.name = name))) scope r :=
  of_yields .binding?

theorem field {name : String} :
    Ends (Eval.field name) scope r (.ok (r.resolve name).1) scope (r.resolve name).2 := by
  rintro m rfl
  exact ⟨m.operations, rfl⟩

theorem attempt {body : Eval Value} {handler : Value → Eval Value} {failure : Failure} {v : Value}
    (first : Ends body scope r (.error (.fault failure)) scope' r')
    (catchable : failure.catchable = true)
    (second : Ends (handler (caught failure)) scope' r' (.ok v) scope'' r'') :
    Ends (Eval.attempt body handler) scope r (.ok .unit) scope'' r'' := by
  apply bind (outcome first)
  simp only [catchable, if_true]
  exact bind (outcome second) (bind ofOutcome pure)

theorem attempt_ok {body : Eval Value} {handler : Value → Eval Value} {v : Value}
    (h : Ends body scope r (.ok v) scope' r') :
    Ends (Eval.attempt body handler) scope r (.ok v) scope' r' :=
  bind (outcome h) ofOutcome

end Ends

/-! ## Variables -/

/--
The variables of a running outline: those of the loops around it, innermost first, behind them the
variable `code` with the text `out`, and behind it `outer`, where nothing else has a name.
-/
inductive Scope (outer : List Binding) : List (String × Json) → String → List Binding → Prop
  | code (out : String) (hidden : ∀ b ∈ outer, b.name = "code") :
      Scope outer [] out (⟨"code", .string out, false⟩ :: outer)
  | item {vars out scope name} (v : Json) (constant : Bool) (other : name ≠ "code")
      (behind : Scope outer vars out scope) :
      Scope outer ((name, v) :: vars) out (⟨name, Value.ofJson v, constant⟩ :: scope)

/-- What names stand for among the variables of loops and the fields of a spec. -/
def sight (vars : List (String × Json)) (r : Resolver) : Names :=
  fun name => (vars.lookup name).or (r.meaning? name)

theorem sight_cons (name : String) (v : Json) (vars : List (String × Json)) (r : Resolver) :
    sight ((name, v) :: vars) r = (sight vars r).shadow name v := by
  funext other
  by_cases h : other = name
  · simp [sight, Names.shadow, h]
  · simp [sight, Names.shadow, h, List.lookup_cons, beq_false_of_ne h]

theorem sight_of_later {vars : List (String × Json)} {r r' : Resolver} {names : List String}
    (h : Resolver.Later r names r') : sight vars r' = sight vars r := by
  funext name
  rw [sight, sight, h.meaning?]

theorem ofJson_ne_cell (v : Json) (id : Nat) : Value.ofJson v ≠ .cell id := by
  cases v with
  | integer i =>
    rw [Value.ofJson]
    split <;> simp
  | _ => simp [Value.ofJson]

namespace Scope

variable {outer : List Binding} {vars : List (String × Json)} {out : String}
  {scope : List Binding} {name : String}

theorem length (h : Scope outer vars out scope) :
    scope.length = vars.length + outer.length + 1 := by
  induction h with
  | code out hidden => simp
  | item v constant other behind ih =>
    rw [List.length_cons, ih, List.length_cons]
    omega

theorem find?_of_some {v : Json} (h : Scope outer vars out scope) (hv : vars.lookup name = some v) :
    ∃ constant, scope.find? (·.name = name) = some ⟨name, Value.ofJson v, constant⟩ := by
  induction h with
  | code out hidden => simp at hv
  | @item vars out scope other w constant _ behind ih =>
    by_cases hn : name = other
    · subst hn
      simp only [List.lookup_cons_self, Option.some.injEq] at hv
      subst hv
      exact ⟨constant, by simp⟩
    · rw [List.lookup_cons, beq_false_of_ne hn] at hv
      obtain ⟨c, hc⟩ := ih hv
      exact ⟨c, by rw [List.find?_cons_of_neg (by simpa using Ne.symm hn), hc]⟩

theorem find?_of_none (h : Scope outer vars out scope) (hn : name ≠ "code")
    (hv : vars.lookup name = none) : scope.find? (·.name = name) = none := by
  induction h with
  | code out hidden =>
    rw [List.find?_eq_none]
    intro b hb
    rcases List.mem_cons.1 hb with rfl | hb
    · simpa using hn.symm
    · simpa [hidden b hb] using hn.symm
  | @item vars out scope other w constant _ behind ih =>
    by_cases ho : name = other
    · subst ho
      simp at hv
    · rw [List.lookup_cons, beq_false_of_ne ho] at hv
      rw [List.find?_cons_of_neg (by simpa using Ne.symm ho), ih hv]

theorem find?_code (h : Scope outer vars out scope) :
    scope.find? (·.name = "code") = some ⟨"code", .string out, false⟩ := by
  induction h with
  | code out hidden => simp
  | item v constant other behind ih =>
    rw [List.find?_cons_of_neg (by simpa using other), ih]

theorem rebind_code (h : Scope outer vars out scope) (text : String) :
    Scope outer vars text (rebind "code" (.string text) scope) := by
  induction h with
  | code out hidden =>
    rw [rebind, if_pos rfl]
    exact code text hidden
  | item v constant other behind ih =>
    rw [rebind, if_neg other]
    exact item v constant other ih

theorem drop_item {v : Json} {scope' : List Binding} {text : String} (h : Scope outer vars out scope)
    (h' : Scope outer ((name, v) :: vars) text scope') :
    Scope outer vars text (scope'.drop (scope'.length - scope.length)) := by
  have one : scope'.length - scope.length = 1 := by
    rw [h'.length, h.length, List.length_cons]
    omega
  rw [one]
  cases h' with
  | item _ _ _ behind => exact behind

theorem drop_none {scope' : List Binding} {text : String} (h : Scope outer vars out scope)
    (h' : Scope outer vars text scope') : scope'.drop (scope'.length - scope.length) = scope' := by
  rw [h'.length, h.length, Nat.sub_self, List.drop_zero]

end Scope

/-! ## Names -/

/-- The scripts of emitters have no limit on their operations, those of outlines no functions. -/
def engine (functions : List Function) : Engine := ⟨functions, 0, true⟩

/-- No function of a script stands in for the rendering of a substitution. -/
def Renders (functions : List Function) : Prop := (engine functions).function? "_render" 1 = none

variable {fs : List Function} {outer : List Binding} {vars : List (String × Json)} {out : String}
  {scope : List Binding} {name : String} {r : Resolver} {p : Pos}

/-- A name in sight is found with its value; if it is a variable, it is one of a loop. -/
theorem lookup_of_some {v : Json} (hs : Scope outer vars out scope) (hr : r.Sound)
    (hn : name ≠ "code") (hv : sight vars r name = some v) :
    ∃ found r', Ends (lookup (engine fs) name p) scope r (.ok found) scope r' ∧
      found.value = Value.ofJson v ∧ (found.own = true → vars.lookup name = some v) ∧
      Resolver.Later r [] r' := by
  cases hl : vars.lookup name with
  | some w =>
    obtain rfl : w = v := by simpa [sight, hl] using hv
    obtain ⟨constant, hf⟩ := hs.find?_of_some hl
    exact ⟨⟨Value.ofJson w, constant, true⟩, r, Ends.of_yields (.lookup hf (ofJson_ne_cell w)), rfl,
      fun _ => rfl, Resolver.Later.refl hr⟩
  | none =>
    have hm : r.meaning? name = some v := by simpa [sight, hl] using hv
    have absent := @Ends.binding? scope r name
    rw [hs.find?_of_none hn hl] at absent
    have asked := @Ends.field scope r name
    obtain ⟨answer, later⟩ := Resolver.resolve_spec hr name
    rw [hm] at answer later
    rw [answer] at asked
    refine ⟨⟨Value.ofJson v, true, false⟩, (r.resolve name).2, ?_, rfl, by simp, later⟩
    exact Ends.bind absent (Ends.bind asked Ends.pure)

theorem lookup_of_none (hs : Scope outer vars out scope) (hr : r.Sound) (hn : name ≠ "code")
    (hv : sight vars r name = none) :
    ∃ r', Ends (lookup (engine []) name p) scope r
        (.error (.fault (.here (.unknownVariable name) (some p)))) scope r' ∧
      Resolver.Later r [name] r' := by
  obtain ⟨hl, hm⟩ : vars.lookup name = none ∧ r.meaning? name = none := by
    simpa [sight] using hv
  have absent := @Ends.binding? scope r name
  rw [hs.find?_of_none hn hl] at absent
  have asked := @Ends.field scope r name
  obtain ⟨answer, later⟩ := Resolver.resolve_spec hr name
  rw [hm] at answer later
  rw [answer] at asked
  exact ⟨(r.resolve name).2, Ends.bind absent (Ends.bind asked Ends.fault), later⟩

theorem lookup_code (hs : Scope outer vars out scope) :
    Ends (lookup (engine fs) "code" p) scope r (.ok ⟨.string out, false, true⟩) scope r :=
  Ends.of_yields (.lookup hs.find?_code (by simp))

theorem assign_code (hs : Scope outer vars out scope) (text : String) :
    Ends (assign "code" (.string text)) scope r (.ok ()) (rebind "code" (.string text) scope) r := by
  rintro m rfl
  refine ⟨m.operations, ?_⟩
  rw [assign, hs.find?_code]
  rfl

theorem putBack_self {found : Found} {v : Json} (hs : Scope outer vars out scope)
    (value : found.value = Value.ofJson v)
    (own : found.own = true → vars.lookup name = some v) :
    Ends (putBack name found found.value) scope r (.ok ()) scope r := by
  unfold putBack
  split
  · rename_i h
    obtain ⟨constant, hf⟩ := hs.find?_of_some (own (by simp_all))
    rw [value]
    exact Ends.of_yields (.assign_self hf (ofJson_ne_cell v))
  · exact Ends.ok

/-! ## Expressions -/

variable {below : Below} {e : Expr} {q u : Pos}

theorem ends_const {v : Value} :
    Ends (expr (engine fs) below (.const v p)) scope r (.ok v) scope r := by
  exact Ends.bind Ends.tick Ends.pure

theorem ends_variable {v : Json} (hs : Scope outer vars out scope) (hr : r.Sound)
    (hn : name ≠ "code") (hv : sight vars r name = some v) :
    ∃ r', Ends (expr (engine fs) below (.variable name p)) scope r (.ok (Value.ofJson v)) scope r' ∧
      Resolver.Later r [] r' := by
  obtain ⟨found, r', ends, value, -, later⟩ := @lookup_of_some _ _ _ _ _ _ _ p _ hs hr hn hv
  refine ⟨r', ?_, later⟩
  apply Ends.bind Ends.tick
  exact Ends.bind ends (value ▸ Ends.pure)

theorem ends_code (hs : Scope outer vars out scope) :
    Ends (expr (engine fs) below (.variable "code" p)) scope r (.ok (.string out)) scope r := by
  apply Ends.bind Ends.tick
  exact Ends.bind (lookup_code hs) Ends.pure

theorem ends_render {v : Json} (renders : Renders fs) (hs : Scope outer vars out scope)
    (hr : r.Sound) (hn : name ≠ "code") (hv : sight vars r name = some v) :
    ∃ r', Ends (expr (engine fs) below (.call "_render" [.variable name p] q)) scope r
        (.ok (.string (Value.ofJson v).render)) scope r' ∧ Resolver.Later r [] r' := by
  obtain ⟨found, r', ends, value, own, later⟩ := @lookup_of_some _ _ _ _ _ _ _ p _ hs hr hn hv
  refine ⟨r', ?_, later⟩
  apply Ends.bind Ends.tick
  rw [if_neg (by decide)]
  apply Ends.bind Ends.ok
  apply Ends.bind Ends.tick
  apply Ends.bind ends
  have noSpecial : special (engine fs) below "_render" [found.value] [p] q = none := rfl
  have noFunction : (engine fs).function? "_render" 1 = none := renders
  have render (fixed : Bool) : library (engine fs) below "_render" found.value fixed [] q =
      Eval.ok (.string found.value.render, found.value) := rfl
  simp only [List.map_nil, List.length_nil, Nat.zero_add, noSpecial, noFunction, render]
  rw [← value]
  apply Ends.bind Ends.ok
  exact Ends.bind (putBack_self hs value own) Ends.pure

theorem ends_render_error (hs : Scope outer vars out scope) (hr : r.Sound) (hn : name ≠ "code")
    (hv : sight vars r name = none) :
    ∃ r', Ends (expr (engine []) below (.call "_render" [.variable name p] q)) scope r
        (.error (.fault (.here (.unknownVariable name) (some p)))) scope r' ∧
      Resolver.Later r [name] r' := by
  obtain ⟨r', ends, later⟩ := @lookup_of_none _ _ _ _ _ _ p hs hr hn hv
  refine ⟨r', ?_, later⟩
  apply Ends.bind Ends.tick
  rw [if_neg (by decide)]
  apply Ends.bind Ends.ok
  apply Ends.bind Ends.tick
  exact Ends.bind_error ends

/-! ## Rows of statements -/

inductive Performs (fs : List Function) (lower : Below) :
    List Stmt → List Binding → Resolver → List Binding → Resolver → Prop
  | nil {scope : List Binding} {r : Resolver} : Performs fs lower [] scope r scope r
  | cons {s : Stmt} {rest : List Stmt} {v : Value} {scope scope' scope'' : List Binding}
      {r r' r'' : Resolver}
      (first : Ends (stmt (engine fs) lower s) scope r (.ok v) scope' r')
      (others : Performs fs lower rest scope' r' scope'' r'') :
      Performs fs lower (s :: rest) scope r scope'' r''

variable {ss : List Stmt} {scope' scope'' : List Binding} {r' r'' : Resolver}

theorem Performs.append {more : List Stmt} (h : Performs fs below ss scope r scope' r')
    (behind : Performs fs below more scope' r' scope'' r'') :
    Performs fs below (ss ++ more) scope r scope'' r'' := by
  induction h with
  | nil => exact behind
  | cons first others ih => exact .cons first (ih behind)

theorem ends_stmts (h : Performs fs below ss scope r scope' r') :
    ∃ v, Ends (stmts (engine fs) below ss) scope r (.ok v) scope' r' := by
  induction h with
  | nil => exact ⟨.unit, Ends.ok⟩
  | @cons s rest v _ _ _ _ _ _ first others ih =>
    cases rest with
    | nil =>
      cases others
      exact ⟨v, first⟩
    | cons next more =>
      obtain ⟨w, hw⟩ := ih
      exact ⟨w, Ends.bind first hw⟩

theorem ends_stmts_append {last : Stmt} {v : Value} (h : Performs fs below ss scope r scope' r')
    (behind : Ends (stmt (engine fs) below last) scope' r' (.ok v) scope'' r'') :
    Ends (stmts (engine fs) below (ss ++ [last])) scope r (.ok v) scope'' r'' := by
  induction h with
  | nil =>
    rw [List.nil_append, stmts]
    exact behind
  | cons first others ih =>
    rw [List.cons_append, stmts]
    · exact Ends.bind first (ih behind)
    · simp

theorem ends_block {result : Except Stop Value} {text : String} (hs : Scope outer vars out scope)
    (hs' : Scope outer vars text scope')
    (h : Ends (stmts (engine fs) below ss) scope r result scope' r') :
    Ends (stmt (engine fs) below (.block ss p)) scope r result scope' r' := by
  have inside := h.enclosed
  rw [hs.drop_none hs'] at inside
  exact Ends.bind Ends.tick inside

theorem ends_appending {text : String} (hs : Scope outer vars out scope)
    (h : Ends (expr (engine fs) below e) scope r (.ok (.string text)) scope r') :
    ∃ scope', Ends (stmt (engine fs) below (Outline.appending e p q)) scope r (.ok .unit) scope'
      r' ∧ Scope outer vars (out ++ text) scope' := by
  refine ⟨_, ?_, hs.rebind_code (out ++ text)⟩
  rw [Outline.appending]
  apply Ends.bind Ends.tick
  apply Ends.bind h
  apply Ends.bind Ends.tick
  apply Ends.bind (lookup_code hs)
  rw [if_neg (by simp)]
  have joined : combine (some "+") (.string out) (.string text) q =
      Eval.ok (.string (out ++ text)) := rfl
  rw [joined]
  apply Ends.bind Ends.ok
  exact Ends.bind (assign_code hs (out ++ text)) Ends.pure

theorem ends_block_appending {text : String} {b : Pos} (hs : Scope outer vars out scope)
    (h : Ends (expr (engine fs) below e) scope r (.ok (.string text)) scope r') :
    ∃ scope', Ends (stmt (engine fs) below (.block [Outline.appending e p q] b)) scope r (.ok .unit)
        scope' r' ∧ Scope outer vars (out ++ text) scope' := by
  obtain ⟨scope', appended, hs'⟩ := @ends_appending _ _ _ _ _ _ p below _ q _ _ hs h
  exact ⟨scope', ends_block hs hs' appended, hs'⟩

theorem ends_block_error {s : Stop} {b : Pos} (hs : Scope outer vars out scope)
    (h : Ends (expr (engine fs) below e) scope r (.error s) scope r') :
    Ends (stmt (engine fs) below (.block [Outline.appending e p q] b)) scope r (.error s) scope
      r' := by
  apply ends_block hs hs
  apply Ends.bind Ends.tick
  exact Ends.bind_error h

/-! ## Substitutions -/

/-- Where an expression faults, the handler around its statement appends a text in its place. -/
theorem ends_fallback {fallback : String} {failure : Failure}
    {body handler p1 p2 q1 q2 q3 q4 : Pos} (hs : Scope outer vars out scope)
    (failed : Ends (expr (engine fs) below e) scope r (.error (.fault failure)) scope r')
    (catchable : failure.catchable = true) :
    ∃ scope', Ends (stmt (engine fs) below
        (.attempt (.block [Outline.appending e p1 p2] body) none
          (.block [Outline.appending (.const (.string fallback) q3) q1 q2] handler) q4))
        scope r (.ok .unit) scope' r' ∧ Scope outer vars (out ++ fallback) scope' := by
  have fault := @ends_block_error _ _ _ _ _ _ p1 below _ p2 _ _ body hs failed
  have text := @ends_const fs scope r' q3 below (.string fallback)
  obtain ⟨scope', appended, hs'⟩ :=
    @ends_block_appending _ _ _ _ _ _ q1 below _ q2 _ _ handler hs text
  have handled := (Ends.bind (a := ()) (f := fun _ => stmt (engine fs) below
    (.block [Outline.appending (.const (.string fallback) q3) q1 q2] handler))
    Ends.ok appended).enclosed
  rw [hs.drop_none hs'] at handled
  refine ⟨scope', ?_, hs'⟩
  rw [stmt]
  exact Ends.bind Ends.tick (Ends.attempt fault catchable handled)

theorem ends_guarded {fallback : String} {body handler p1 p2 p3 p4 q1 q2 q3 q4 : Pos}
    (hs : Scope outer vars out scope) (hr : r.Sound) (hn : name ≠ "code") :
    ∃ v scope' r', Ends (stmt (engine []) below
        (.attempt (.block [Outline.appending (.call "_render" [.variable name p3] p4) p1 p2] body)
          none (.block [Outline.appending (.const (.string fallback) q3) q1 q2] handler) q4))
        scope r (.ok v) scope' r' ∧
      Scope outer vars (out ++ (sight vars r).rendered name fallback) scope' ∧
      Resolver.Later r (if (sight vars r name).isSome then [] else [name]) r' := by
  cases hv : sight vars r name with
  | some v =>
    obtain ⟨r', rendered, later⟩ := @ends_render [] _ _ _ _ _ _ p3 below p4 _ rfl hs hr hn hv
    obtain ⟨scope', appended, hs'⟩ :=
      @ends_block_appending _ _ _ _ _ _ p1 below _ p2 _ _ body hs rendered
    refine ⟨.unit, scope', r', ?_, ?_, later⟩
    · rw [stmt]
      apply Ends.bind Ends.tick
      exact Ends.attempt_ok appended
    · rwa [Names.rendered, hv]
  | none =>
    -- The name is recorded before its fault is handled, so that the fallback does not hide it.
    obtain ⟨r', failed, later⟩ := @ends_render_error _ _ _ _ _ _ p3 below p4 hs hr hn hv
    obtain ⟨scope', handled, hs'⟩ :=
      @ends_fallback _ _ _ _ _ _ below _ _ fallback _ body handler p1 p2 q1 q2 q3 q4 hs failed rfl
    refine ⟨.unit, scope', r', handled, ?_, later⟩
    rwa [Names.rendered, hv]

/-! ## Conditionals -/

theorem ends_branch {yes no : Stmt} {b : Bool} (hs : Scope outer vars out scope) (hr : r.Sound)
    (hn : name ≠ "code") (hv : sight vars r name = some (.bool b)) :
    ∃ r', Resolver.Later r [] r' ∧ ∀ result scope' r'',
      Ends (stmt (engine fs) below (if b then yes else no)) scope r' result scope' r'' →
      Ends (stmt (engine fs) below (.branch (.variable name p) yes no q)) scope r result scope'
        r'' := by
  obtain ⟨r', ends, later⟩ := @ends_variable _ _ _ _ _ _ _ p below _ hs hr hn hv
  refine ⟨r', later, fun result scope' r'' h => ?_⟩
  apply Ends.bind Ends.tick
  apply Ends.bind ends
  apply Ends.bind (Ends.ok : Ends (Eval.ok b) scope r' _ _ _)
  cases b with
  | true => exact h
  | false => exact h

theorem ends_empty_branch {v : Json} {keep : Bool} {c : Expr} {yes no : Stmt}
    (hs : Scope outer vars out scope) (hr : r.Sound) (hn : name ≠ "code")
    (hv : sight vars r name = some v) (hc : c = .variable name p)
    (empty : (Simplify.isEmpty yes && Simplify.isEmpty no) = true) :
    ∃ w r', Ends (stmt (engine fs) below (Simplify.branch keep c yes no q)) scope r (.ok w) scope
      r' ∧ Resolver.Later r [] r' := by
  subst hc
  obtain ⟨r', ends, later⟩ := @ends_variable _ _ _ _ _ _ _ p below _ hs hr hn hv
  have read : Ends (stmt (engine fs) below (.expr (.variable name p))) scope r
      (.ok (Value.ofJson v)) scope r' := by
    exact Ends.bind Ends.tick ends
  rw [Simplify.branch, if_pos empty]
  cases keep with
  | false => exact ⟨_, r', read, later⟩
  | true =>
    refine ⟨.unit, r', ?_, later⟩
    apply ends_block hs hs
    apply Ends.bind read
    exact Ends.ok

/-! ## Loops -/

theorem ends_round {body : Stmt} {v : Value}
    (h : Ends (stmt (engine fs) below body) scope r (.ok v) scope' r') :
    Ends (round (stmt (engine fs) below body)) scope r (.ok none) scope' r' :=
  Ends.bind h.outcome Ends.pure

/--
A loop whose body appends a text for each item appends these texts in order.  The names that the
body sees are `names` and the item in front of them.
-/
theorem ends_eachItem {names : Names} {body : Stmt} {fixed : Bool} {text : Json → String}
    {missing : Json → List String} {items : List Json} (hn : name ≠ "code")
    (rounds : ∀ v ∈ items, ∀ out scope r, Scope outer ((name, v) :: vars) out scope → r.Sound →
      sight vars r = names → ∃ w scope' r',
        Ends (stmt (engine fs) below body) scope r (.ok w) scope' r' ∧
        Scope outer ((name, v) :: vars) (out ++ text v) scope' ∧ Resolver.Later r (missing v) r')
    (i : Nat) (hs : Scope outer vars out scope) (hr : r.Sound) (hv : sight vars r = names) :
    ∃ scope' r', Ends (eachItem (fun item _ => Eval.enclosed do
          Eval.ok ()
          Eval.declare name item fixed
          round (stmt (engine fs) below body)) i (Value.ofItems items)) scope r (.ok .unit) scope'
        r' ∧
      Scope outer vars (out ++ String.join (items.map text)) scope' ∧
      Resolver.Later r (items.flatMap missing) r' := by
  induction items generalizing i out scope r with
  | nil =>
    refine ⟨scope, r, Ends.ok, ?_, Resolver.Later.refl hr⟩
    simpa using hs
  | cons v rest ih =>
    have inside : Scope outer ((name, v) :: vars) out (⟨name, Value.ofJson v, fixed⟩ :: scope) :=
      .item v fixed hn hs
    obtain ⟨w, scope', r', ends, hs', later⟩ := rounds v (by simp) _ _ r inside hr hv
    have behind := hs.drop_item hs'
    have hv' : sight vars r' = names := (sight_of_later later).trans hv
    obtain ⟨scope'', r'', others, hs'', later'⟩ :=
      ih (fun other ho => rounds other (by simp [ho])) (i + 1) behind later.sound hv'
    have once := (Ends.bind (a := ()) (f := fun _ => do
        Eval.declare name (Value.ofJson v) fixed
        round (stmt (engine fs) below body))
      Ends.ok (Ends.bind Ends.declare (ends_round ends))).enclosed
    refine ⟨scope'', r'', ?_, ?_, ?_⟩
    · rw [Value.ofItems, eachItem]
      exact Ends.bind once others
    · simpa [String.append_assoc] using hs''
    · simpa using later.trans later'

/-! ## Outlines -/

/-- Simplified statements append the text of an outline and ask for the names that it misses. -/
def Works (below : Below) (o : Outline) (ss : List Stmt) : Prop :=
  ∀ k keep outer vars out scope r, Scope outer vars out scope → r.Sound → o.Fits (sight vars r) →
    ∃ scope' r', Performs [] below (Simplify.prune k (Simplify.stmts keep ss)) scope r scope' r' ∧
      Scope outer vars (out ++ o.text (sight vars r)) scope' ∧
      Resolver.Later r (o.missing (sight vars r)) r'

theorem Works.block {o : Outline} (h : Works below o ss) {k keep : Bool}
    (hs : Scope outer vars out scope) (hr : r.Sound) (fits : o.Fits (sight vars r)) :
    ∃ v scope' r', Ends (stmt (engine []) below
        (.block (Simplify.prune k (Simplify.stmts keep ss)) p)) scope r (.ok v) scope' r' ∧
      Scope outer vars (out ++ o.text (sight vars r)) scope' ∧
      Resolver.Later r (o.missing (sight vars r)) r' := by
  obtain ⟨scope', r', performs, hs', later⟩ := h k keep outer vars out scope r hs hr fits
  obtain ⟨v, ends⟩ := ends_stmts performs
  exact ⟨v, scope', r', ends_block hs hs' ends, hs', later⟩

theorem Works.behind {o : Outline} (h : Works below o ss) (k keep : Bool) {names : List String}
    (fits : o.Fits (sight vars r)) (hs' : Scope outer vars out scope') (later : Resolver.Later r names r') :
    ∃ scope'' r'',
      Performs [] below (Simplify.prune k (Simplify.stmts keep ss)) scope' r' scope'' r'' ∧
      Scope outer vars (out ++ o.text (sight vars r)) scope'' ∧
      Resolver.Later r' (o.missing (sight vars r)) r'' := by
  have names := @sight_of_later vars _ _ _ later
  rw [← names] at fits ⊢
  exact h k keep outer vars out scope' r' hs' later.sound fits

theorem performs_prune_cons {k : Bool} {s : Stmt} {rest : List Stmt} {text text' : String}
    {names names' : List String} (hs : Scope outer vars out scope) (hr : r.Sound)
    (silent : Simplify.pureStmt s = true → text = "" ∧ names = [])
    (first : ∃ v scope' r', Ends (stmt (engine fs) below s) scope r (.ok v) scope' r' ∧
      Scope outer vars (out ++ text) scope' ∧ Resolver.Later r names r')
    (others : ∀ scope' r', Scope outer vars (out ++ text) scope' → Resolver.Later r names r' →
      ∃ scope'' r'', Performs fs below (Simplify.prune k rest) scope' r' scope'' r'' ∧
        Scope outer vars (out ++ text ++ text') scope'' ∧ Resolver.Later r' names' r'') :
    ∃ scope' r', Performs fs below (Simplify.prune k (s :: rest)) scope r scope' r' ∧
      Scope outer vars (out ++ (text ++ text')) scope' ∧ Resolver.Later r (names ++ names') r' := by
  -- Pruning keeps the statement, or takes it out as one that appends nothing.
  rcases Simplify.prune_cases k s rest with eq | ⟨noEffect, eq⟩
  · obtain ⟨v, scope', r', ends, hs', later⟩ := first
    obtain ⟨scope'', r'', performs, hs'', later'⟩ := others scope' r' hs' later
    rw [eq, ← String.append_assoc]
    exact ⟨scope'', r'', .cons ends performs, hs'', later.trans later'⟩
  · obtain ⟨rfl, rfl⟩ := silent noEffect
    rw [eq, ← String.append_assoc]
    exact others scope r (by rwa [String.append_empty]) (Resolver.Later.refl hr)

theorem works_append {o : Outline} {text : String} (h : Works below o ss) :
    Works below (.append text o) (Outline.appending (.const (.string text) u) p q :: ss) := by
  intro k keep outer vars out scope r hs hr fits
  rw [Simplify.stmts, Outline.stmt_appending]
  change ∃ scope' r', _ ∧ _ ∧ Resolver.Later r ([] ++ o.missing (sight vars r)) r'
  apply performs_prune_cons hs hr
  · intro noEffect
    simp [Outline.appending, Simplify.pureStmt] at noEffect
  · obtain ⟨scope', ends, hs'⟩ := @ends_appending _ _ _ _ _ _ p below _ q _ _ hs ends_const
    exact ⟨.unit, scope', r, ends, hs', Resolver.Later.refl hr⟩
  · intro scope' r' hs' later
    exact h.behind k keep fits hs' later

theorem works_guarded {o : Outline} {fallback : String}
    {body handler p1 p2 p3 p4 q1 q2 q3 q4 : Pos} (hn : name ≠ "code") (h : Works below o ss) :
    Works below (.guarded name fallback o)
      (.attempt (.block [Outline.appending (.call "_render" [.variable name p3] p4) p1 p2] body)
        none (.block [Outline.appending (.const (.string fallback) q3) q1 q2] handler) q4 :: ss) := by
  intro k keep outer vars out scope r hs hr fits
  rw [Simplify.stmts, Outline.stmt_guarded]
  apply performs_prune_cons hs hr
  · intro noEffect
    simp [Outline.appending, Simplify.pureStmt, Simplify.pureStmts] at noEffect
  · exact ends_guarded hs hr hn
  · intro scope' r' hs' later
    exact h.behind k keep fits hs' later

/-- A simplified conditional does what the chosen part of it does. -/
theorem ends_chosen_branch {yes no : Stmt} {b keep : Bool} {text : String} {names : List String}
    {p1 p2 : Pos} (hn : name ≠ "code") (hs : Scope outer vars out scope) (hr : r.Sound)
    (hb : sight vars r name = some (.bool b))
    (silent : (Simplify.isEmpty yes && Simplify.isEmpty no) = true → text = "" ∧ names = [])
    (chosen : ∀ r', Resolver.Later r [] r' → ∃ v scope' r'',
      Ends (stmt (engine fs) below (if b then yes else no)) scope r' (.ok v) scope' r'' ∧
      Scope outer vars (out ++ text) scope' ∧ Resolver.Later r' names r'') :
    ∃ v scope' r', Ends (stmt (engine fs) below
        (Simplify.branch keep (.variable name p1) yes no p2)) scope r (.ok v) scope' r' ∧
      Scope outer vars (out ++ text) scope' ∧ Resolver.Later r names r' := by
  by_cases empty : (Simplify.isEmpty yes && Simplify.isEmpty no) = true
  · obtain ⟨v, r', ends, later⟩ :=
      @ends_empty_branch fs _ _ _ _ _ _ p1 below p2 _ keep _ _ _ hs hr hn hb rfl empty
    obtain ⟨rfl, rfl⟩ := silent empty
    exact ⟨v, scope, r', ends, by rwa [String.append_empty], later⟩
  · obtain ⟨r', asked, goes_on⟩ := @ends_branch fs _ _ _ _ _ _ p1 below p2 yes no b hs hr hn hb
    obtain ⟨v, scope', r'', ends, hs', later⟩ := chosen r' asked
    rw [Simplify.branch, if_neg empty]
    exact ⟨v, scope', r'', goes_on _ _ _ ends, hs', asked.trans later⟩

theorem ends_simplified_branch {yes no rest : Outline} {ys ns : List Stmt} {keep : Bool}
    {p1 p2 p3 p4 : Pos} (hn : name ≠ "code") (shape_yes : Outline.Shape yes ys)
    (shape_no : Outline.Shape no ns) (hy : Works below yes ys) (hno : Works below no ns)
    (hs : Scope outer vars out scope) (hr : r.Sound)
    (fits : (Outline.branch name yes no rest).Fits (sight vars r)) :
    ∃ v scope' r', Ends (stmt (engine []) below (Simplify.branch keep (.variable name p1)
        (.block (Simplify.prune keep (Simplify.stmts keep ys)) p2)
        (.block (Simplify.prune keep (Simplify.stmts keep ns)) p3) p4)) scope r (.ok v) scope' r' ∧
      Scope outer vars (out ++ if (sight vars r).isTrue name then yes.text (sight vars r)
        else no.text (sight vars r)) scope' ∧
      Resolver.Later r (if (sight vars r).isTrue name then yes.missing (sight vars r)
        else no.missing (sight vars r)) r' := by
  obtain ⟨⟨b, hb⟩, chosen, -⟩ := fits
  have truth : (sight vars r).isTrue name = b := by rw [Names.isTrue, hb]
  rw [truth] at chosen ⊢
  refine ends_chosen_branch hn hs hr hb (fun empty => ?_) fun r' asked => ?_
  · rw [Bool.and_eq_true] at empty
    have silent_yes := shape_yes.silent (Outline.pureStmts_of_isEmpty empty.1)
    have silent_no := shape_no.silent (Outline.pureStmts_of_isEmpty empty.2)
    rw [Outline.text_of_silent silent_yes, Outline.text_of_silent silent_no,
      Outline.missing_of_silent silent_yes, Outline.missing_of_silent silent_no]
    exact ⟨ite_self _, ite_self _⟩
  · have names := @sight_of_later vars _ _ _ asked
    rw [← names] at chosen ⊢
    cases b with
    | true => exact hy.block hs asked.sound chosen
    | false => exact hno.block hs asked.sound chosen

theorem works_branch {yes no rest : Outline} {ys ns : List Stmt} {p1 p2 p3 p4 : Pos}
    (hn : name ≠ "code") (shape_yes : Outline.Shape yes ys) (shape_no : Outline.Shape no ns)
    (hy : Works below yes ys) (hno : Works below no ns) (h : Works below rest ss) :
    Works below (.branch name yes no rest)
      (.branch (.variable name p1) (.block ys p2) (.block ns p3) p4 :: ss) := by
  intro k keep outer vars out scope r hs hr fits
  apply performs_prune_cons hs hr
  · intro noEffect
    obtain ⟨empty_yes, empty_no⟩ := Outline.pureStmt_branch noEffect
    have silent_yes := shape_yes.silent empty_yes
    have silent_no := shape_no.silent empty_no
    constructor
    · rw [Outline.text_of_silent silent_yes, Outline.text_of_silent silent_no, ite_self]
    · rw [Outline.missing_of_silent silent_yes, Outline.missing_of_silent silent_no, ite_self]
  · exact ends_simplified_branch hn shape_yes shape_no hy hno hs hr fits
  · intro scope' r' hs' later
    exact h.behind k keep fits.2.2 hs' later

theorem ends_each {item : String} {body : Outline} {bs : List Stmt} {items : List Json}
    {p1 p2 p3 : Pos} (hi : item ≠ "code") (hn : name ≠ "code") (hb : Works below body bs)
    (hs : Scope outer vars out scope) (hr : r.Sound) (subject : sight vars r name = some (.array items))
    (inside : ∀ v ∈ items, body.Fits ((sight vars r).shadow item v)) :
    ∃ scope' r', Ends (stmt (engine []) below (.each item none (.variable name p1)
        (.block (Simplify.prune false (Simplify.stmts false bs)) p2) p3)) scope r (.ok .unit)
        scope' r' ∧
      Scope outer vars (out ++ String.join (items.map fun v =>
        body.text ((sight vars r).shadow item v))) scope' ∧
      Resolver.Later r (items.flatMap fun v => body.missing ((sight vars r).shadow item v)) r' := by
  obtain ⟨found, r', ends, value, -, later⟩ := @lookup_of_some _ _ _ _ _ _ _ p1 _ hs hr hn subject
  have names := @sight_of_later vars _ _ _ later
  have rounds : ∀ v ∈ items, ∀ out scope r1, Scope outer ((item, v) :: vars) out scope → r1.Sound →
      sight vars r1 = sight vars r → ∃ w scope' r'',
        Ends (stmt (engine []) below (.block (Simplify.prune false (Simplify.stmts false bs)) p2))
          scope r1 (.ok w) scope' r'' ∧
        Scope outer ((item, v) :: vars) (out ++ body.text ((sight vars r).shadow item v)) scope' ∧
        Resolver.Later r1 (body.missing ((sight vars r).shadow item v)) r'' := by
    intro v hv out scope r1 hs1 hr1 same
    have shadowed : sight ((item, v) :: vars) r1 = (sight vars r).shadow item v := by
      rw [sight_cons, same]
    rw [← shadowed]
    exact hb.block hs1 hr1 (by rw [shadowed]; exact inside v hv)
  obtain ⟨scope', r'', loop, hs', later'⟩ := @ends_eachItem _ _ _ _ _ _ _ below (sight vars r) _
    (found.constant && !found.own) _ _ _ hi rounds 0 hs later.sound names
  refine ⟨scope', r'', ?_, hs', later.trans later'⟩
  apply Ends.bind Ends.tick
  apply Ends.bind Ends.tick
  apply Ends.bind ends
  apply Ends.bind Ends.pure
  rw [value]
  exact loop

theorem works_each {item : String} {body rest : Outline} {bs : List Stmt} {p1 p2 p3 : Pos}
    (hi : item ≠ "code") (hn : name ≠ "code") (hb : Works below body bs)
    (h : Works below rest ss) :
    Works below (.each item name body rest)
      (.each item none (.variable name p1) (.block bs p2) p3 :: ss) := by
  intro k keep outer vars out scope r hs hr fits
  obtain ⟨⟨items, hitems⟩, inside, fits_rest⟩ := fits
  have subject : (sight vars r).items name = items := by rw [Names.items, hitems]
  rw [subject] at inside
  apply performs_prune_cons hs hr
  · intro noEffect
    simp [Simplify.stmt, Simplify.pureStmt] at noEffect
  · obtain ⟨scope', r', ends, hs', later⟩ :=
      @ends_each _ _ _ _ _ _ below item body bs items p1 p2 p3 hi hn hb hs hr hitems inside
    rw [subject]
    exact ⟨.unit, scope', r', ends, hs', later⟩
  · intro scope' r' hs' later
    exact h.behind k keep fits_rest hs' later

theorem works_of_shape {o : Outline} (proper : o.Proper) (h : Outline.Shape o ss) :
    Works below o ss := by
  induction h with
  | done =>
    intro k keep outer vars out scope r hs hr fits
    refine ⟨scope, r, .nil, ?_, Resolver.Later.refl hr⟩
    rwa [Outline.text, String.append_empty]
  | append p q u behind ih => exact works_append (ih proper)
  | guarded body handler p q u v p' q' u' v' behind ih =>
    exact works_guarded proper.1 (ih proper.2)
  | branch p q u v inside otherwise behind ihy ihn ih =>
    obtain ⟨hn, hy, hno, hr⟩ := proper
    exact works_branch hn inside otherwise (ihy hy) (ihn hno) (ih hr)
  | each p q u inside behind ihb ih =>
    obtain ⟨hi, hn, hb, hr⟩ := proper
    exact works_each hi hn (ihb hb) (ih hr)

/-- A row of statements declares a variable `code`, fills it and ends with it. -/
theorem ends_frame {text : String} {names : List String} {u : Pos}
    (fills : ∃ scope' r', Performs fs below (Simplify.prune false (Simplify.stmts true ss))
        (⟨"code", .string "", false⟩ :: outer) r scope' r' ∧
      Scope outer vars text scope' ∧ Resolver.Later r names r') :
    ∃ scope' r', Ends (stmts (engine fs) below (Simplify.body
        (.declare "code" (.const (.string "") p) false q :: (ss ++ [.expr (.variable "code" u)]))))
        outer r (.ok (.string text)) scope' r' ∧
      Scope outer vars text scope' ∧ Resolver.Later r names r' := by
  obtain ⟨scope', r', performs, hs', later⟩ := fills
  have declared : Ends (stmt (engine fs) below (.declare "code" (.const (.string "") p) false q))
      outer r (.ok .unit) (⟨"code", .string "", false⟩ :: outer) r := by
    apply Ends.bind Ends.tick
    apply Ends.bind ends_const
    exact Ends.bind Ends.declare Ends.pure
  have last : Ends (stmt (engine fs) below (.expr (.variable "code" u))) scope' r'
      (.ok (.string text)) scope' r' := by
    exact Ends.bind Ends.tick (ends_code hs')
  rw [Outline.simplify_script]
  exact ⟨scope', r', ends_stmts_append (.cons declared performs) last, hs', later⟩

theorem ends_script {o : Outline} (proper : o.Proper) {body : List Stmt} (h : o.IsScript body)
    (hidden : ∀ b ∈ outer, b.name = "code") (hr : r.Sound) (fits : o.Fits (sight [] r)) :
    ∃ scope' r', Ends (stmts (engine []) below (Simplify.body body)) outer r
        (.ok (.string (o.text (sight [] r)))) scope' r' ∧
      Scope outer [] (o.text (sight [] r)) scope' ∧
      Resolver.Later r (o.missing (sight [] r)) r' := by
  obtain ⟨ss, p, q, u, shape, rfl⟩ := h
  have works : Works below o ss := works_of_shape proper shape
  have fills := works false true outer [] "" _ r (.code "" hidden) hr fits
  rw [String.empty_append] at fills
  exact ends_frame fills

end Eval

end Stencil.Script
