import Monkey.Tree

/-!
The statements of a piece of a program. The ones outside every function literal are its own: they
are the ones that an evaluation of the piece executes in the scope it was given, since the body of
a function is executed in the scope of a call.
-/

namespace Monkey

mutual

/-- The statements that occur in an expression outside every function literal. -/
def Expr.ownStatements : Expr → List Stmt
  | .name _ | .integer _ _ | .string _ | .boolean _ _ | .function _ _ _ => []
  | .array _ elements => Expr.allOwnStatements elements
  | .hash _ pairs => Expr.pairStatements pairs
  | .unary _ _ operand => operand.ownStatements
  | .binary _ _ left right => left.ownStatements ++ right.ownStatements
  | .cond _ condition consequence none => condition.ownStatements ++ consequence.ownStatements
  | .cond _ condition consequence (some alternative) =>
    condition.ownStatements ++ (consequence.ownStatements ++ alternative.ownStatements)
  | .call _ callee arguments => callee.ownStatements ++ Expr.allOwnStatements arguments
  | .index _ collection position => collection.ownStatements ++ position.ownStatements

def Expr.allOwnStatements : List Expr → List Stmt
  | [] => []
  | e :: es => e.ownStatements ++ Expr.allOwnStatements es

def Expr.pairStatements : List (Expr × Expr) → List Stmt
  | [] => []
  | (key, value) :: ps => key.ownStatements ++ (value.ownStatements ++ Expr.pairStatements ps)

/-- The statement itself and those that occur in its expression. -/
def Stmt.ownStatements : Stmt → List Stmt
  | .bind t x value => .bind t x value :: value.ownStatements
  | .return t value => .return t value :: value.ownStatements
  | .expr t value => .expr t value :: value.ownStatements

def Stmt.allOwnStatements : List Stmt → List Stmt
  | [] => []
  | s :: ss => s.ownStatements ++ Stmt.allOwnStatements ss

def Block.ownStatements : Block → List Stmt
  | .mk _ statements => Stmt.allOwnStatements statements

end

def Stmt.boundName? : Stmt → Option String
  | .bind _ x _ => some x.text
  | .return _ _ | .expr _ _ => none

/-- The names that these statements bind. -/
def boundNames (ss : List Stmt) : List String := ss.filterMap Stmt.boundName?

theorem boundNames_mono {ss ts : List Stmt} (h : ss ⊆ ts) : boundNames ss ⊆ boundNames ts := by
  intro x hx
  obtain ⟨s, hs, heq⟩ := List.mem_filterMap.mp hx
  exact List.mem_filterMap.mpr ⟨s, h hs, heq⟩

theorem Block.ownStatements_eq (b : Block) :
    b.ownStatements = Stmt.allOwnStatements b.statements := by
  cases b
  rfl

end Monkey
