import Stencil.Script.Value

/-!
# Inquiries

A running script knows its own variables and asks its surroundings for everything else: for the
field of a name, and for the text that makes a spec addressable in a generated script.  An inquiry
is a computation with its questions left open.  What a script does is therefore one tree for all
specs, and a spec only decides which branch is taken.
-/

namespace Stencil.Script

/-- A computation that may ask questions before it is done. -/
inductive Inquiry (α : Type) where
  | done (result : α)
  | field (name : String) (next : Option Value → Inquiry α)
  | header (next : String → Inquiry α)

namespace Inquiry

variable {α β γ σ : Type}

def bind : Inquiry α → (α → Inquiry β) → Inquiry β
  | done a, f => f a
  | field name next, f => field name fun v => (next v).bind f
  | header next, f => header fun t => (next t).bind f

instance : Monad Inquiry where
  pure := done
  bind := bind

@[simp]
theorem done_bind (a : α) (f : α → Inquiry β) : (done a).bind f = f a := rfl

@[simp]
theorem bind_done (q : Inquiry α) : q.bind done = q := by
  induction q with
  | done a => rfl
  | field name next ih => exact congrArg (field name) (funext ih)
  | header next ih => exact congrArg header (funext ih)

theorem bind_bind (q : Inquiry α) (f : α → Inquiry β) (g : β → Inquiry γ) :
    (q.bind f).bind g = q.bind fun a => (f a).bind g := by
  induction q with
  | done a => rfl
  | field name next ih => exact congrArg (field name) (funext ih)
  | header next ih => exact congrArg header (funext ih)

/-- One who answers questions, and may change by doing so. -/
structure Answerer (σ : Type) where
  field : String → σ → Option Value × σ
  header : σ → String

def run (answerer : Answerer σ) : Inquiry α → σ → α × σ
  | done a, s => (a, s)
  | field name next, s =>
    let (v, s) := answerer.field name s
    (next v).run answerer s
  | header next, s => (next (answerer.header s)).run answerer s

@[simp]
theorem run_done (answerer : Answerer σ) (a : α) (s : σ) : (done a).run answerer s = (a, s) := rfl

theorem run_bind (answerer : Answerer σ) (q : Inquiry α) (f : α → Inquiry β) (s : σ) :
    (q.bind f).run answerer s =
      (f (q.run answerer s).1).run answerer (q.run answerer s).2 := by
  induction q generalizing s with
  | done a => rfl
  | field name next ih => exact ih _ _
  | header next ih => exact ih _ _

end Inquiry

end Stencil.Script
