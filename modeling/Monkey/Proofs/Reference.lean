import Monkey.Evaluator

/-!
A semantics in which `return` is an outcome of its own. It leaves all that is being evaluated, up to
the nearest call or to the program, and its value is the result there; no value stands for it on
its way. In all else evaluation is as the evaluator has it.
-/

namespace Monkey.Reference

/-- Evaluations that a `return` can leave; it is thrown with its value. -/
abbrev Control := ExceptT Value Eval

/-- What a `return` leaves last: its value is the result. -/
def catchReturn (x : Control Value) : Eval Value := do
  match ← x.run with
  | .ok v => return v
  | .error v => return v

/-- An evaluator with `return` as an outcome of its own. -/
abbrev Evaluator := ScopeId → Expr → Control Value

section

-- The evaluator for the expressions one level down.
variable (eval : Evaluator)

def expressions (scope : ScopeId) : List Expr → Control (List Value)
  | [] => return []
  | e :: es => do
    let v ← eval scope e
    let vs ← expressions scope es
    return v :: vs

def pairs (scope : ScopeId) (h : Hash Value) : List (Expr × Expr) → Control (Hash Value)
  | [] => return h
  | (key, value) :: ps => do
    let k ← eval scope key
    match k.key? with
    | none => ExceptT.lift (.fail (.notHashable k.kind))
    | some filed =>
      let v ← eval scope value
      pairs scope (h.insert filed (k, v)) ps

def statement (scope : ScopeId) : Stmt → Control Value
  | .bind _ x value => do
    let v ← eval scope value
    ExceptT.lift (Eval.assign scope x.text v)
    return v
  | .return _ value => do
    let v ← eval scope value
    throw v
  | .expr _ value => eval scope value

/-- The result of the last statement; `last` if there is none. -/
def statements (scope : ScopeId) (last : Value) : List Stmt → Control Value
  | [] => return last
  | s :: ss => do
    let v ← statement eval scope s
    statements scope v ss

def block (scope : ScopeId) (b : Block) : Control Value :=
  statements eval scope .null b.statements

/-- A call is left by no `return`. -/
def apply (callee : Value) (args : List Value) : Eval Value :=
  match callee with
  | .function _ c => do
    let scope ← .openScope (some c.scope) ((c.parameters.map Name.text).zip args).reverse
    catchReturn (block eval scope c.body)
  | .builtin b => b.call args
  | v => .fail (.notFunction v.kind)

/-- One layer of evaluation. -/
def layer (scope : ScopeId) : Expr → Control Value
  | .name x => ExceptT.lift (x.resolve scope)
  | .integer _ n => return .integer n
  | .string t => return .string t.literal
  | .boolean _ b => return .boolean b
  | .function _ parameters body => ExceptT.lift (.newFunction ⟨parameters, body, scope⟩)
  | .array _ elements => do
    let vs ← expressions eval scope elements
    ExceptT.lift (.newArray vs)
  | .hash _ ps => do
    let h ← pairs eval scope ∅ ps
    ExceptT.lift (.newHash h)
  | .unary _ op operand => do
    let v ← eval scope operand
    ExceptT.lift (.ofExcept (op.apply v))
  | .binary _ op left right => do
    let v ← eval scope left
    let w ← eval scope right
    ExceptT.lift (.ofExcept (op.apply v w))
  | .cond _ condition consequence alternative => do
    let v ← eval scope condition
    if v.isTruthy then block eval scope consequence
    else
      match alternative with
      | some b => block eval scope b
      | none => return .null
  | .call _ callee arguments => do
    let f ← eval scope callee
    let vs ← expressions eval scope arguments
    ExceptT.lift (apply eval f vs)
  | .index _ collection position => do
    let v ← eval scope collection
    let w ← eval scope position
    ExceptT.lift (.ofExcept (v.index w))

end

/-- Evaluation of expressions that are at most `depth` levels deep, as the evaluator counts them. -/
def eval (depth : Nat) (scope : ScopeId) (e : Expr) : Control Value :=
  match depth with
  | 0 => ExceptT.lift .unfinished
  | depth + 1 => layer (eval depth) scope e

/-- The result of a program in a scope, or the value that it returns. -/
def program (depth : Nat) (scope : ScopeId) (p : Program) : Eval Value :=
  catchReturn (statements (eval depth) scope .null p.statements)

end Monkey.Reference
