import Monkey.Machine

/-!
Evaluations: they take a machine to an outcome, which is a result, a fault, or neither if the depth
of evaluation did not suffice. One evaluation after another stops at the first that has no result,
and what it changed before that stays changed.
-/

namespace Monkey

/-- How an evaluation ends: with a result, with a fault, or not within its depth. The machine is
the one at the end, or at the fault. -/
inductive Outcome (α : Type) where
  | done (result : α) (m : Machine)
  | failed (f : Fault) (m : Machine)
  | unfinished

/-- Evaluations that change the machine. -/
def Eval (α : Type) : Type := Machine → Outcome α

namespace Eval

variable {α β : Type}

/-- What is evaluated after a result. -/
@[inline] protected def bind (x : Eval α) (f : α → Eval β) : Eval β := fun m =>
  match x m with
  | .done a m => f a m
  | .failed e m => .failed e m
  | .unfinished => .unfinished

@[always_inline] instance : Monad Eval where
  pure a := fun m => .done a m
  bind := Eval.bind

@[inline] def fail (f : Fault) : Eval α := fun m => .failed f m

@[inline] def unfinished : Eval α := fun _ => .unfinished

@[inline] def ofExcept : Except Fault α → Eval α
  | .ok a => pure a
  | .error f => fail f

/-- An evaluation that changes the machine in one certain way. -/
@[inline] def update (f : Machine → α × Machine) : Eval α := fun m => let (a, m) := f m; .done a m

def openScope (outer : Option ScopeId) (bindings : List (String × Value)) : Eval ScopeId :=
  update (·.openScope outer bindings)

def assign (scope : ScopeId) (x : String) (v : Value) : Eval Unit :=
  update fun m => ((), m.assign scope x v)

def lookup (scope : ScopeId) (x : String) : Eval (Option Value) :=
  update fun m => (m.lookup scope x, m)

def newIdentity : Eval Identity := update Machine.newIdentity

def print (line : String) : Eval Unit := update fun m => ((), m.print line)

/-- An array that nothing else is identical to. -/
def newArray (elements : List Value) : Eval Value := do return .array (← newIdentity) elements

/-- A hash that nothing else is identical to. -/
def newHash (content : Hash Value) : Eval Value := do return .hash (← newIdentity) content

/-- A function that nothing else is identical to. -/
def newFunction (c : Closure) : Eval Value := do return .function (← newIdentity) c

theorem pure_apply (a : α) (m : Machine) : (pure a : Eval α) m = .done a m := rfl

theorem bind_apply (x : Eval α) (f : α → Eval β) (m : Machine) :
    (x >>= f) m = match x m with
      | .done a m => f a m
      | .failed e m => .failed e m
      | .unfinished => .unfinished := rfl

theorem bind_of_done {x : Eval α} {m m' : Machine} {a : α} (h : x m = .done a m')
    (f : α → Eval β) : (x >>= f) m = f a m' := by
  rw [bind_apply, h]

theorem bind_of_failed {x : Eval α} {m m' : Machine} {e : Fault} (h : x m = .failed e m')
    (f : α → Eval β) : (x >>= f) m = .failed e m' := by
  rw [bind_apply, h]

instance : LawfulMonad Eval :=
  LawfulMonad.mk' Eval
    (fun x => by
      funext m
      show (match x m with | .done a m => _ | .failed e m => _ | .unfinished => _) = x m
      cases x m <;> rfl)
    (fun _ _ => rfl)
    (fun x f g => by
      funext m
      simp only [bind_apply]
      cases x m <;> rfl)

end Eval

end Monkey
