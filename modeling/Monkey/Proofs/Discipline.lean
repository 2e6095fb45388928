import Monkey.Proofs.Occurrence

/-!
Where a `return` may stand. In a disciplined piece of code a conditional with a `return` in one of
its blocks is the whole expression of an expression statement, in the bodies of function literals
as well.
-/

namespace Monkey

def Stmt.isReturn : Stmt → Bool
  | .return _ _ => true
  | .bind _ _ _ | .expr _ _ => false

/-- One of these statements is a `return`. -/
def returns (ss : List Stmt) : Bool := ss.any Stmt.isReturn

mutual

/-- Whether an expression is disciplined; `whole` tells that it is the whole expression of an
expression statement. -/
def Expr.disciplined (whole : Bool) : Expr → Bool
  | .name _ | .integer _ _ | .string _ | .boolean _ _ => true
  | .function _ _ body => body.disciplined
  | .array _ elements => Expr.allDisciplined elements
  | .hash _ pairs => Expr.pairsDisciplined pairs
  | .unary _ _ operand => operand.disciplined false
  | .binary _ _ left right => left.disciplined false && right.disciplined false
  | .cond _ condition consequence none =>
    condition.disciplined false && consequence.disciplined &&
      (whole || !returns consequence.ownStatements)
  | .cond _ condition consequence (some alternative) =>
    condition.disciplined false && consequence.disciplined && alternative.disciplined &&
      (whole || !(returns consequence.ownStatements || returns alternative.ownStatements))
  | .call _ callee arguments => callee.disciplined false && Expr.allDisciplined arguments
  | .index _ collection position => collection.disciplined false && position.disciplined false

def Expr.allDisciplined : List Expr → Bool
  | [] => true
  | e :: es => e.disciplined false && Expr.allDisciplined es

def Expr.pairsDisciplined : List (Expr × Expr) → Bool
  | [] => true
  | (key, value) :: ps =>
    key.disciplined false && value.disciplined false && Expr.pairsDisciplined ps

def Stmt.disciplined : Stmt → Bool
  | .bind _ _ value | .return _ value => value.disciplined false
  | .expr _ value => value.disciplined true

def Stmt.allDisciplined : List Stmt → Bool
  | [] => true
  | s :: ss => s.disciplined && Stmt.allDisciplined ss

def Block.disciplined : Block → Bool
  | .mk _ statements => Stmt.allDisciplined statements

end

def Program.disciplined (p : Program) : Bool := Stmt.allDisciplined p.statements

theorem Block.disciplined_eq (b : Block) : b.disciplined = Stmt.allDisciplined b.statements := by
  cases b
  rfl

/-- The parts of a disciplined conditional are disciplined. -/
theorem Expr.disciplined_of_cond {whole : Bool} {t : Token} {condition : Expr} {b : Block}
    {alternative : Option Block}
    (h : (Expr.cond t condition b alternative).disciplined whole = true) :
    condition.disciplined false = true ∧ b.disciplined = true ∧
      ∀ a ∈ alternative, a.disciplined = true := by
  cases alternative with
  | none =>
    simp only [Expr.disciplined, Bool.and_eq_true] at h
    exact ⟨h.1.1, h.1.2, nofun⟩
  | some a =>
    simp only [Expr.disciplined, Bool.and_eq_true] at h
    obtain ⟨⟨⟨hcondition, hb⟩, ha⟩, -⟩ := h
    exact ⟨hcondition, hb, fun _ heq => Option.some.inj heq ▸ ha⟩

theorem returns_append (ss ts : List Stmt) : returns (ss ++ ts) = (returns ss || returns ts) :=
  List.any_append

/-- A disciplined conditional with a `return` in one of its blocks is a whole expression, and the
`return` is among its own statements. -/
theorem Expr.returns_of_cond {whole : Bool} {t : Token} {condition : Expr} {b : Block}
    {alternative : Option Block}
    (h : (Expr.cond t condition b alternative).disciplined whole = true)
    (hreturns : returns b.ownStatements = true ∨
      ∃ a ∈ alternative, returns a.ownStatements = true) :
    (whole && returns (Expr.cond t condition b alternative).ownStatements) = true := by
  cases alternative with
  | none =>
    simp only [Expr.disciplined, Bool.and_eq_true] at h
    have hwhole := h.2
    rcases hreturns with hreturns | ⟨a, ha, -⟩
    · simpa [Expr.ownStatements, returns_append, hreturns] using hwhole
    · cases ha
  | some alternative =>
    simp only [Expr.disciplined, Bool.and_eq_true] at h
    have hwhole := h.2
    rcases hreturns with hreturns | ⟨a, ha, hreturns⟩
    · simpa [Expr.ownStatements, returns_append, hreturns] using hwhole
    · obtain rfl := Option.some.inj ha
      simpa [Expr.ownStatements, returns_append, hreturns] using hwhole

end Monkey
