import Stencil.Script.Evaluator
import Stencil.Resolver

/-!
# Scripts that are blind to the mode

A script learns the mode of emission by the one name that tells it.  One that looks this name up only
to choose between two copies of the same code, and evaluates no texts, does the same in both modes: it
asks the same questions, gives the same values, and fails at the same places.
-/

namespace Stencil.Script

open Stencil (Resolver)

/-! ## Computations -/

namespace Inquiry

variable {α β : Type} {q : Inquiry α} {f : α → Inquiry β}

/-- A computation that goes on alike whichever mode it is told. -/
def IsBlind : Inquiry α → Prop
  | .done _ => True
  | .field name next => (∀ v, (next v).IsBlind) ∧
    (name = Resolver.modeName → ∀ b b', next (some (.bool b)) = next (some (.bool b')))
  | .header next => ∀ t, (next t).IsBlind

theorem IsBlind.bind (first : q.IsBlind) (second : ∀ a, (f a).IsBlind) : (q.bind f).IsBlind := by
  induction q with
  | done a => exact second a
  | field name next ih =>
    obtain ⟨others, same⟩ := first
    exact ⟨fun v => ih v (others v), fun mode b b' => congrArg (Inquiry.bind · f) (same mode b b')⟩
  | header next ih => exact fun t => ih t (first t)

theorem resolve_mode {name : String} (h : name ≠ Resolver.modeName) (mode : Bool) (r : Resolver) :
    Resolver.resolve name { r with deferred := mode } =
      ((Resolver.resolve name r).1, { (Resolver.resolve name r).2 with deferred := mode }) := by
  unfold Resolver.resolve
  rw [if_neg h, if_neg h]
  dsimp only
  cases r.known.lookup name with
  | some v => rfl
  | none =>
    cases r.spec.get? name with
    | some json => rfl
    | none =>
      dsimp only
      split <;> rfl

/-- In another mode a blind computation comes to the same result, and learns the same. -/
theorem IsBlind.run (h : q.IsBlind) (mode : Bool) (r : Resolver) :
    q.run Resolver.answerer { r with deferred := mode } =
      ((q.run Resolver.answerer r).1, { (q.run Resolver.answerer r).2 with deferred := mode }) := by
  induction q generalizing r with
  | done a => rfl
  | field name next ih =>
    obtain ⟨others, same⟩ := h
    rw [Inquiry.run, Inquiry.run]
    by_cases asked : name = Resolver.modeName
    · subst asked
      have told (r : Resolver) : Resolver.answerer.field Resolver.modeName r =
          (some (.bool r.deferred), r) := rfl
      rw [told, told]
      dsimp only
      rw [same rfl mode r.deferred]
      exact ih _ (others _) r
    · have told := resolve_mode asked mode r
      change (next (Resolver.resolve name { r with deferred := mode }).1).run Resolver.answerer
        (Resolver.resolve name { r with deferred := mode }).2 = _
      rw [told]
      exact ih _ (others _) _
  | header next ih => exact ih _ (h _) r

end Inquiry

/-! ## Evaluations -/

namespace Eval

variable {α β : Type} {e e' : Eval α} {f : α → Eval β}

def IsBlind (e : Eval α) : Prop := ∀ m, (e m).IsBlind

namespace IsBlind

theorem ok {a : α} : IsBlind (ok a) := fun _ => trivial

theorem pure {a : α} : IsBlind (Pure.pure a) := fun _ => trivial

theorem stop {s : Stop} : IsBlind (stop s : Eval α) := fun _ => trivial

theorem fault {t : Trouble} {p : Pos} : IsBlind (fault t p : Eval α) := fun _ => trivial

theorem bind (first : IsBlind e) (second : ∀ a, IsBlind (f a)) : IsBlind (e >>= f) := by
  intro m
  refine (first m).bind fun result => ?_
  obtain ⟨r, m'⟩ := result
  cases r with
  | ok a => exact second a m'
  | error s => trivial

theorem ite {c : Prop} [Decidable c] {e e' : Eval α} (yes : IsBlind e) (no : IsBlind e') :
    IsBlind (if c then e else e') := by
  split
  · exact yes
  · exact no

theorem outcome (h : IsBlind e) : IsBlind (outcome e) := fun m => (h m).bind fun _ => trivial

theorem ofOutcome (r : Except Stop α) : IsBlind (ofOutcome r) := by
  cases r with
  | ok a => exact ok
  | error s => exact stop

theorem machine : IsBlind machine := fun _ => trivial

theorem update {f : Machine → Machine} : IsBlind (update f) := fun _ => trivial

theorem restoring {restore : Machine → Machine → Machine} (h : IsBlind e) :
    IsBlind (restoring e restore) :=
  machine.bind fun _ => h.outcome.bind fun r => update.bind fun _ => ofOutcome r

theorem enclosed (h : IsBlind e) : IsBlind (enclosed e) := h.restoring

theorem framed {params : List Binding} {receiver : Option Receiver} (h : IsBlind e) :
    IsBlind (framed params receiver e) :=
  machine.bind fun _ => update.bind fun _ => h.outcome.bind fun _ => machine.bind fun _ =>
    update.bind fun _ => pure

theorem tick {limit : Nat} {p : Pos} : IsBlind (tick limit p) := by
  intro m
  unfold Eval.tick
  dsimp only
  split <;> trivial

theorem declare {name : String} {value : Value} {constant : Bool} :
    IsBlind (declare name value constant) := update

theorem contents {v : Value} : IsBlind (contents v) := by
  intro m
  unfold Eval.contents
  split <;> trivial

theorem binding? {name : String} : IsBlind (binding? name) := fun _ => trivial

theorem assign {name : String} {value : Value} : IsBlind (assign name value) := by
  intro m
  unfold Eval.assign
  split <;> trivial

theorem share {b : Binding} : IsBlind (share b) := by
  intro m
  unfold Eval.share
  split <;> trivial

theorem field {name : String} (h : name ≠ Resolver.modeName) : IsBlind (field name) :=
  fun _ => ⟨fun _ => trivial, fun mode => absurd mode h⟩

theorem header : IsBlind header := fun _ _ => trivial

theorem located {p : Pos} (r : Except Trouble α) : IsBlind (located p r) := by
  cases r with
  | ok a => exact ok
  | error t => exact fault

theorem calling {function : String} {closure : Bool} {p : Pos} (h : IsBlind e) :
    IsBlind (calling function closure p e) := by
  refine h.outcome.bind fun r => ?_
  split
  · exact stop
  · exact ofOutcome r

end IsBlind

/-! ## Calls -/

section

variable {engine : Engine} {below : Below} {name : String} {p : Pos} {v w : Value}
  {vs ws : List Value}

theorem blind_lookup (h : name ≠ Resolver.modeName) : IsBlind (lookup engine name p) := by
  refine IsBlind.binding?.bind fun found => ?_
  cases found with
  | some b => exact IsBlind.contents.bind fun _ => .pure
  | none =>
    refine (IsBlind.field h).bind fun found => ?_
    cases found with
    | some v => exact .pure
    | none =>
      dsimp only
      split
      · exact .pure
      · exact .fault

theorem blind_putBack {found : Found} : IsBlind (putBack name found v) := by
  unfold putBack
  split
  · exact .assign
  · exact .ok

/-- The functions of an engine and what is evaluated a level further down are blind. -/
structure BlindBelow (engine : Engine) (below : Below) : Prop where
  body : ∀ f ∈ engine.functions, IsBlind (below [f.body])

theorem BlindBelow.invoke (h : BlindBelow engine below) {f : Function} (known : f ∈ engine.functions)
    {receiver : Option Receiver} : IsBlind (invoke engine below f vs receiver p) := by
  refine IsBlind.tick.bind fun _ => (IsBlind.framed (h.body f known)).bind fun result => ?_
  dsimp only
  split
  · exact .pure
  · exact .pure
  · exact .stop
  · exact .stop

theorem mem_of_function? {n : Nat} {f : Function} (h : engine.function? name n = some f) :
    f ∈ engine.functions :=
  List.mem_of_find?_eq_some h

theorem BlindBelow.apply (h : BlindBelow engine below) {subject : Option Value}
    {curried items extras : List Value} :
    IsBlind (apply engine below name curried subject items extras p) := by
  unfold Eval.apply
  dsimp only
  split
  · rename_i found
    exact (h.invoke (mem_of_function? found)).bind fun _ => .pure
  split
  · rename_i found
    exact (h.invoke (mem_of_function? found)).bind fun _ => .pure
  split
  · rename_i found
    exact (h.invoke (mem_of_function? found)).bind fun _ => .pure
  split
  · exact .pure
  · exact .pure
  · exact .fault
  · exact .fault

end

end Eval

/-! ## Functions of the library that call others -/

namespace Higher

open Eval (IsBlind)

variable {f : OnItem} {g : Value → Value → Nat → Eval Value} {after : Value → Value → Eval Bool}

theorem blind_results (h : ∀ v i, IsBlind (f v i)) (i : Nat) (items : List Value) :
    IsBlind (results f i items) := by
  induction items generalizing i with
  | nil => exact .ok
  | cons v rest ih => exact (h v i).bind fun _ => (ih (i + 1)).bind fun _ => .pure

theorem blind_parted (h : ∀ v i, IsBlind (f v i)) (i : Nat) (items : List Value) :
    IsBlind (parted f i items) := by
  induction items generalizing i with
  | nil => exact .ok
  | cons v rest ih =>
    refine (h v i).bind fun _ => (ih (i + 1)).bind fun _ => ?_
    dsimp only
    split <;> exact .pure

theorem blind_first? (h : ∀ v i, IsBlind (f v i)) (i : Nat) (items : List Value) :
    IsBlind (first? f i items) := by
  induction items generalizing i with
  | nil => exact .ok
  | cons v rest ih =>
    refine (h v i).bind fun _ => ?_
    dsimp only
    split
    · exact .pure
    · exact ih (i + 1)

theorem blind_firstResult (h : ∀ v i, IsBlind (f v i)) (i : Nat) (items : List Value) :
    IsBlind (firstResult f i items) := by
  induction items generalizing i with
  | nil => exact .ok
  | cons v rest ih =>
    refine (h v i).bind fun _ => ?_
    dsimp only
    split
    · exact ih (i + 1)
    · exact .pure

theorem blind_gathered (h : ∀ v w i, IsBlind (g v w i)) (acc : Value)
    (items : List (Value × Nat)) : IsBlind (gathered g acc items) := by
  induction items generalizing acc with
  | nil => exact .ok
  | cons item rest ih => exact (h _ _ _).bind fun acc => ih acc

theorem blind_insertSorted (h : ∀ v w, IsBlind (after v w)) (v : Value) (items : List Value) :
    IsBlind (insertSorted after v items) := by
  induction items with
  | nil => exact .ok
  | cons w rest ih =>
    refine (h w v).bind fun _ => ?_
    split
    · exact .pure
    · exact ih.bind fun _ => .pure

theorem blind_sorted (h : ∀ v w, IsBlind (after v w)) (done items : List Value) :
    IsBlind (sorted after done items) := by
  induction items generalizing done with
  | nil => exact .ok
  | cons v rest ih => exact (blind_insertSorted h v done).bind fun done => ih done

theorem blind_onArray {name : String} {items rest : List Value}
    {e : Eval (Value × Option Value)} (hf : ∀ v i, IsBlind (f v i))
    (hg : ∀ v w i, IsBlind (g v w i)) (h : onArray name items rest f g = some e) : IsBlind e := by
  unfold onArray at h
  dsimp only at h
  split at h
  all_goals first
    | cases h
    | skip
  · exact ((blind_results hf 0 items).bind fun _ => .pure).bind fun _ => .pure
  · exact ((blind_parted hf 0 items).bind fun _ => .pure).bind fun _ => .pure
  · exact ((blind_first? hf 0 items).bind fun _ => .pure).bind fun _ => .pure
  · exact ((blind_first? (fun v i => (hf v i).bind fun _ => .pure) 0 items).bind fun _ => .pure).bind
      fun _ => .pure
  · exact ((blind_first? hf 0 items).bind fun _ => .pure).bind fun _ => .pure
  · exact (blind_firstResult hf 0 items).bind fun _ => .pure
  · exact ((blind_first? hf 0 items).bind fun _ => .pure).bind fun _ => .pure
  · exact (blind_gathered hg _ _).bind fun _ => .pure
  · exact (blind_gathered hg _ _).bind fun _ => .pure
  · exact (blind_gathered hg _ _).bind fun _ => .pure
  · exact (blind_gathered hg _ _).bind fun _ => .pure
  · exact (blind_results hf 0 items).bind fun _ => .pure
  · exact (blind_parted hf 0 items).bind fun _ => .pure
  · exact (blind_parted hf 0 items).bind fun _ => .pure
  · refine (blind_sorted (fun v w => (hg v w 0).outcome.bind fun r => ?_) [] items).bind
      fun _ => .pure
    split <;> exact .pure

end Higher

namespace Eval

/-! ## Chains -/

section

variable {engine : Engine} {below : Below} {name : String} {p : Pos} {v w : Value}
  {vs ws : List Value}

theorem BlindBelow.library (h : BlindBelow engine below) {constant : Bool} :
    IsBlind (library engine below name v constant vs p) := by
  unfold Eval.library
  dsimp only
  split
  · exact .ok
  · split
    · exact .fault
    · exact .ok
  · exact .fault
  · split
    · split
      · exact .fault
      · rename_i e found
        split
        · exact .fault
        · refine IsBlind.bind
            (IsBlind.calling (Higher.blind_onArray (fun _ _ => ?_) (fun _ _ _ => ?_) found))
            fun _ => .pure
          · exact h.apply.bind fun _ => .pure
          · exact h.apply.bind fun _ => .pure
    · exact .fault

theorem BlindBelow.call (h : BlindBelow engine below) : IsBlind (call engine below name vs p) := by
  unfold Eval.call
  split
  · rename_i found
    exact (h.invoke (mem_of_function? found)).bind fun _ => .pure
  split
  · exact h.library.bind fun _ => .pure
  · split
    · exact IsBlind.header.bind fun _ => .pure
    · split
      · exact .pure
      · exact .fault

theorem blind_mapM_contents (vs : List Value) : IsBlind (vs.mapM Eval.contents) := by
  suffices h : ∀ acc, IsBlind (List.mapM.loop Eval.contents vs acc) from h []
  induction vs with
  | nil => exact fun acc => .pure
  | cons v rest ih => exact fun acc => IsBlind.contents.bind fun w => ih (w :: acc)

theorem BlindBelow.callPointer (h : BlindBelow engine below) {receiver : Option Receiver} :
    IsBlind (callPointer engine below v vs receiver p) := by
  unfold Eval.callPointer
  split
  · dsimp only
    split
    · rename_i found
      exact h.invoke (mem_of_function? found)
    · exact (blind_mapM_contents _).bind fun _ => h.call.bind fun _ => .pure
  · exact .fault

theorem BlindBelow.method (h : BlindBelow engine below) {constant : Bool} :
    IsBlind (method engine below name v constant vs p) := by
  refine IsBlind.tick.bind fun _ => ?_
  dsimp only
  split
  · exact h.callPointer.bind fun _ => .pure
  split
  · exact h.callPointer.bind fun _ => .pure
  · exact h.callPointer.bind fun _ => .pure
  · exact .pure
  · exact .pure
  · split
    · rename_i found
      exact (h.invoke (mem_of_function? found)).bind fun _ => .pure
    · exact h.library

theorem BlindBelow.walk (h : BlindBelow engine below) (as : List Access) (constant : Bool)
    (v : Value) : IsBlind (walk engine below as constant v) := by
  induction as generalizing constant v with
  | nil => exact .ok
  | cons a rest ih =>
    cases a with
    | property name pos optional =>
      unfold Eval.walk
      refine .ite .pure ((IsBlind.located _).bind fun part => (ih constant part).bind fun result => ?_)
      dsimp only
      split
      · exact .pure
      · exact .ite ((IsBlind.located _).bind fun _ => .pure) .pure
    | index index pos optional =>
      unfold Eval.walk
      refine .ite .pure ((IsBlind.located _).bind fun part => (ih constant part).bind fun result => ?_)
      dsimp only
      split
      · exact .pure
      · exact (IsBlind.located _).bind fun _ => .pure
      · exact .ite ((IsBlind.located _).bind fun _ => .pure) .pure
      · exact .pure
    | method name args pos optional =>
      unfold Eval.walk
      exact .ite .pure (h.method.bind fun result => (ih false result.1).bind fun _ => .pure)

theorem blind_combine {op : Option String} : IsBlind (combine op v w p) := by
  unfold combine
  split
  · exact .ok
  · split
    · exact .located _
    · exact .fault

theorem blind_store {op : Option String} (as : List Access) (v : Value) :
    IsBlind (store op w p as v) := by
  induction as generalizing v with
  | nil => exact blind_combine
  | cons a rest ih =>
    cases a with
    | property name pos optional =>
      unfold store
      refine .ite .pure ?_
      split
      · exact .located _
      · exact (IsBlind.located _).bind fun part => (ih part).bind fun _ => .located _
    | index index pos optional =>
      unfold store
      refine .ite .pure ?_
      split
      · exact .located _
      · exact (IsBlind.located _).bind fun part => (ih part).bind fun _ => .located _
    | method name args pos optional => exact .ok

end

end Eval

end Stencil.Script
