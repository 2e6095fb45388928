import Monkey.Operator
import Monkey.Builtin

/-!
Evaluation. Each rule is stated over an evaluator for the expressions one level down, so the rules
make one layer of evaluation, and an expression is evaluated by as many layers as its depth allows:
what needs more layers is left unfinished. Operands, arguments and elements are evaluated from left
to right, and the first fault ends everything.

A function call opens a scope inside the one that the function was made in; the blocks of a
conditional are evaluated in the scope of the conditional. A `return` leaves every enclosing block
as a wrapped value, which the call or the program unwraps.
-/

namespace Monkey

abbrev Evaluator := ScopeId → Expr → Eval Value

/-- A name in the nearest scope that binds it, and otherwise the builtin of that name. -/
def Name.resolve (scope : ScopeId) (x : Name) : Eval Value := do
  match ← Eval.lookup scope x.text with
  | some v => return v
  | none =>
    match Builtin.ofName? x.text with
    | some b => return .builtin b
    | none => .fail (.unboundName x.text)

namespace Evaluator

-- The evaluator for the expressions one level down.
variable (eval : Evaluator)

def expressions (scope : ScopeId) : List Expr → Eval (List Value)
  | [] => return []
  | e :: es => do
    let v ← eval scope e
    let vs ← expressions scope es
    return v :: vs

/-- Adds pairs to a hash; a key is checked before its value is evaluated. -/
def pairs (scope : ScopeId) (h : Hash Value) : List (Expr × Expr) → Eval (Hash Value)
  | [] => return h
  | (key, value) :: ps => do
    let k ← eval scope key
    match k.key? with
    | none => .fail (.notHashable k.kind)
    | some filed =>
      let v ← eval scope value
      pairs scope (h.insert filed (k, v)) ps

def statement (scope : ScopeId) : Stmt → Eval Value
  | .bind _ x value => do
    let v ← eval scope value
    Eval.assign scope x.text v
    return v
  | .return _ value => do
    let v ← eval scope value
    return .returned v
  | .expr _ value => eval scope value

/-- The result of the last statement, or of the first that returns; `last` if there is none. -/
def statements (scope : ScopeId) (last : Value) : List Stmt → Eval Value
  | [] => return last
  | s :: ss => do
    match ← eval.statement scope s with
    | .returned v => return .returned v
    | v => statements scope v ss

def block (scope : ScopeId) (b : Block) : Eval Value := eval.statements scope .null b.statements

/-- Calls a value. Arguments beyond the parameters are ignored, parameters beyond the arguments
stay unbound, and of two parameters with one name the later counts. -/
def apply (callee : Value) (args : List Value) : Eval Value :=
  match callee with
  | .function _ c => do
    let scope ← .openScope (some c.scope) ((c.parameters.map Name.text).zip args).reverse
    let v ← eval.block scope c.body
    return v.unwrap
  | .builtin b => b.call args
  | v => .fail (.notFunction v.kind)

/-- One layer of evaluation. -/
def layer (scope : ScopeId) : Expr → Eval Value
  | .name x => x.resolve scope
  | .integer _ n => return .integer n
  | .string t => return .string t.literal
  | .boolean _ b => return .boolean b
  | .function _ parameters body => .newFunction ⟨parameters, body, scope⟩
  | .array _ elements => do
    let vs ← eval.expressions scope elements
    .newArray vs
  | .hash _ ps => do
    let h ← eval.pairs scope ∅ ps
    .newHash h
  | .unary _ op operand => do
    let v ← eval scope operand
    .ofExcept (op.apply v)
  | .binary _ op left right => do
    let v ← eval scope left
    let w ← eval scope right
    .ofExcept (op.apply v w)
  | .cond _ condition consequence alternative => do
    let v ← eval scope condition
    if v.isTruthy then eval.block scope consequence
    else
      match alternative with
      | some b => eval.block scope b
      | none => return .null
  | .call _ callee arguments => do
    let f ← eval scope callee
    let vs ← eval.expressions scope arguments
    eval.apply f vs
  | .index _ collection position => do
    let v ← eval scope collection
    let w ← eval scope position
    .ofExcept (v.index w)

end Evaluator

/-- Evaluation of expressions that are at most `depth` levels deep, the bodies of called functions
included. -/
def Expr.eval (depth : Nat) (scope : ScopeId) (e : Expr) : Eval Value :=
  match depth with
  | 0 => .unfinished
  | depth + 1 => Evaluator.layer (Expr.eval depth) scope e

theorem Expr.eval_succ (depth : Nat) (scope : ScopeId) (e : Expr) :
    e.eval (depth + 1) scope = Evaluator.layer (Expr.eval depth) scope e := rfl

/-- The result of a program in a scope; a program without statements gives `null`. -/
def Program.eval (depth : Nat) (scope : ScopeId) (p : Program) : Eval Value := do
  let v ← Evaluator.statements (Expr.eval depth) scope .null p.statements
  return v.unwrap

end Monkey
