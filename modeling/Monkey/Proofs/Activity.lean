import Monkey.Evaluator

/-!
All that is carried out in the course of an evaluation. An activity is the evaluation of a piece of
code, or an operation on values that are already there, begun in some machine; its parts are begun
one after another, each in the machine that the ones before it left. The activities within a
program are its parts, their parts and so on, through any number of calls.
-/

namespace Monkey

/-- What can be carried out: the evaluation of some code in a scope, or an operation on values. -/
inductive Action where
  | expression (scope : ScopeId) (e : Expr)
  | expressions (scope : ScopeId) (es : List Expr)
  | pairs (scope : ScopeId) (content : Hash Value) (ps : List (Expr × Expr))
  | statement (scope : ScopeId) (s : Stmt)
  | statements (scope : ScopeId) (last : Value) (ss : List Stmt)
  | resolve (scope : ScopeId) (x : Name)
  | unary (op : UnaryOp) (operand : Value)
  | binary (op : BinaryOp) (left right : Value)
  | choose (condition : Value)
  | index (collection position : Value)
  | call (callee : Value) (arguments : List Value)
  | builtin (b : Builtin) (arguments : List Value)
  | bind (scope : ScopeId) (x : String) (v : Value)
  | wrap (v : Value)
  | file (key : Value)
  | newArray (elements : List Value)
  | newHash (content : Hash Value)

namespace Action

/-- The keys and values of a hash. -/
def contents (h : Hash Value) : List Value := h.pairs.flatMap fun p => [p.1, p.2]

theorem forall_mem_contents {h : Hash Value} {P : Value → Prop} :
    (∀ v ∈ contents h, P v) ↔ ∀ p ∈ h.pairs, P p.1 ∧ P p.2 := by
  simp only [contents, List.forall_mem_flatMap, List.forall_mem_cons, List.not_mem_nil,
    false_implies, implies_true, and_true]

/-- The values that an action is given. -/
def given : Action → List Value
  | expression _ _ | expressions _ _ | statement _ _ | resolve _ _ => []
  | pairs _ content _ | newHash content => contents content
  | statements _ last _ => [last]
  | unary _ v | choose v | bind _ _ v | wrap v | file v => [v]
  | binary _ v w | index v w => [v, w]
  | call f vs => f :: vs
  | builtin _ vs | newArray vs => vs

end Action

/-- An action with the depth that it may use and the machine in which it begins. -/
structure Activity where
  depth : Nat
  action : Action
  machine : Machine

namespace Activity

/-- The second activity is carried out as a direct part of the first. -/
inductive Part : Activity → Activity → Prop
  | resolve : Part ⟨d + 1, .expression scope (.name x), m⟩ ⟨d, .resolve scope x, m⟩
  | elements : Part ⟨d + 1, .expression scope (.array t es), m⟩ ⟨d, .expressions scope es, m⟩
  | newArray (h : Evaluator.expressions (Expr.eval d) scope es m = .done vs m₁) :
      Part ⟨d + 1, .expression scope (.array t es), m⟩ ⟨d, .newArray vs, m₁⟩
  | pairs : Part ⟨d + 1, .expression scope (.hash t ps), m⟩ ⟨d, .pairs scope ∅ ps, m⟩
  | newHash (h : Evaluator.pairs (Expr.eval d) scope ∅ ps m = .done content m₁) :
      Part ⟨d + 1, .expression scope (.hash t ps), m⟩ ⟨d, .newHash content, m₁⟩
  | operand :
      Part ⟨d + 1, .expression scope (.unary t op e), m⟩ ⟨d, .expression scope e, m⟩
  | unary (h : Expr.eval d scope e m = .done v m₁) :
      Part ⟨d + 1, .expression scope (.unary t op e), m⟩ ⟨d, .unary op v, m₁⟩
  | left :
      Part ⟨d + 1, .expression scope (.binary t op e₁ e₂), m⟩ ⟨d, .expression scope e₁, m⟩
  | right (h : Expr.eval d scope e₁ m = .done v m₁) :
      Part ⟨d + 1, .expression scope (.binary t op e₁ e₂), m⟩ ⟨d, .expression scope e₂, m₁⟩
  | binary (h₁ : Expr.eval d scope e₁ m = .done v m₁)
      (h₂ : Expr.eval d scope e₂ m₁ = .done w m₂) :
      Part ⟨d + 1, .expression scope (.binary t op e₁ e₂), m⟩ ⟨d, .binary op v w, m₂⟩
  | condition :
      Part ⟨d + 1, .expression scope (.cond t e b alternative), m⟩ ⟨d, .expression scope e, m⟩
  | choose (h : Expr.eval d scope e m = .done v m₁) :
      Part ⟨d + 1, .expression scope (.cond t e b alternative), m⟩ ⟨d, .choose v, m₁⟩
  | consequence (h : Expr.eval d scope e m = .done v m₁) (hv : Value.isTruthy v = true) :
      Part ⟨d + 1, .expression scope (.cond t e b alternative), m⟩
        ⟨d, .statements scope .null (Block.statements b), m₁⟩
  | alternative (h : Expr.eval d scope e m = .done v m₁) (hv : Value.isTruthy v = false) :
      Part ⟨d + 1, .expression scope (.cond t e b (some a)), m⟩
        ⟨d, .statements scope .null (Block.statements a), m₁⟩
  | callee : Part ⟨d + 1, .expression scope (.call t e es), m⟩ ⟨d, .expression scope e, m⟩
  | arguments (h : Expr.eval d scope e m = .done v m₁) :
      Part ⟨d + 1, .expression scope (.call t e es), m⟩ ⟨d, .expressions scope es, m₁⟩
  | call (h₁ : Expr.eval d scope e m = .done v m₁)
      (h₂ : Evaluator.expressions (Expr.eval d) scope es m₁ = .done vs m₂) :
      Part ⟨d + 1, .expression scope (.call t e es), m⟩ ⟨d, .call v vs, m₂⟩
  | collection : Part ⟨d + 1, .expression scope (.index t e₁ e₂), m⟩ ⟨d, .expression scope e₁, m⟩
  | position (h : Expr.eval d scope e₁ m = .done v m₁) :
      Part ⟨d + 1, .expression scope (.index t e₁ e₂), m⟩ ⟨d, .expression scope e₂, m₁⟩
  | index (h₁ : Expr.eval d scope e₁ m = .done v m₁) (h₂ : Expr.eval d scope e₂ m₁ = .done w m₂) :
      Part ⟨d + 1, .expression scope (.index t e₁ e₂), m⟩ ⟨d, .index v w, m₂⟩
  | first : Part ⟨d, .expressions scope (e :: es), m⟩ ⟨d, .expression scope e, m⟩
  | others (h : Expr.eval d scope e m = .done v m₁) :
      Part ⟨d, .expressions scope (e :: es), m⟩ ⟨d, .expressions scope es, m₁⟩
  | key : Part ⟨d, .pairs scope content ((e₁, e₂) :: ps), m⟩ ⟨d, .expression scope e₁, m⟩
  | file (h : Expr.eval d scope e₁ m = .done k m₁) :
      Part ⟨d, .pairs scope content ((e₁, e₂) :: ps), m⟩ ⟨d, .file k, m₁⟩
  | value (h : Expr.eval d scope e₁ m = .done k m₁) (hk : Value.key? k = some filed) :
      Part ⟨d, .pairs scope content ((e₁, e₂) :: ps), m⟩ ⟨d, .expression scope e₂, m₁⟩
  | otherPairs (h₁ : Expr.eval d scope e₁ m = .done k m₁) (hk : Value.key? k = some filed)
      (h₂ : Expr.eval d scope e₂ m₁ = .done v m₂) :
      Part ⟨d, .pairs scope content ((e₁, e₂) :: ps), m⟩
        ⟨d, .pairs scope (Hash.insert content filed (k, v)) ps, m₂⟩
  | bound :
      Part ⟨d, .statement scope (.bind t x e), m⟩ ⟨d, .expression scope e, m⟩
  | bind (h : Expr.eval d scope e m = .done v m₁) :
      Part ⟨d, .statement scope (.bind t x e), m⟩ ⟨d, .bind scope (Name.text x) v, m₁⟩
  | returned : Part ⟨d, .statement scope (.return t e), m⟩ ⟨d, .expression scope e, m⟩
  | wrap (h : Expr.eval d scope e m = .done v m₁) :
      Part ⟨d, .statement scope (.return t e), m⟩ ⟨d, .wrap v, m₁⟩
  | expression : Part ⟨d, .statement scope (.expr t e), m⟩ ⟨d, .expression scope e, m⟩
  | statement : Part ⟨d, .statements scope last (s :: ss), m⟩ ⟨d, .statement scope s, m⟩
  | statements (h : Evaluator.statement (Expr.eval d) scope s m = .done v m₁)
      (hv : ∀ w, v ≠ .returned w) :
      Part ⟨d, .statements scope last (s :: ss), m⟩ ⟨d, .statements scope v ss, m₁⟩
  | body {m : Machine} {id : Identity} {c : Closure} :
      Part ⟨d, .call (.function id c) vs, m⟩
        ⟨d, .statements m.scopes.size .null c.body.statements,
          (m.openScope (some c.scope) ((c.parameters.map Name.text).zip vs).reverse).2⟩
  | builtin : Part ⟨d, .call (.builtin f) vs, m⟩ ⟨d, .builtin f vs, m⟩

/-- The second activity is carried out within the first, at any depth. -/
inductive Within (a : Activity) : Activity → Prop
  | self : Within a a
  | part {b c : Activity} (h : Within a b) (hc : Part b c) : Within a c

theorem Within.of_part {a b c : Activity} (hb : Part a b) (h : Within b c) : Within a c := by
  induction h with
  | self => exact .part .self hb
  | part _ hc ih => exact .part ih hc

/-- What is carried out when a program is run in a scope. -/
def ofProgram (depth : Nat) (scope : ScopeId) (p : Program) (m : Machine) : Activity :=
  ⟨depth, Action.statements scope .null p.statements, m⟩

/-- A property of the first activity that passes to parts holds of all within it. -/
theorem Within.induct {P : Activity → Prop} (hpart : ∀ {a b}, P a → Part a b → P b)
    {a b : Activity} (h : Within a b) (ha : P a) : P b := by
  induction h with
  | self => exact ha
  | part _ hc ih => exact hpart ih hc

end Activity

end Monkey
