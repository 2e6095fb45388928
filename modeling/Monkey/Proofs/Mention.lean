import Monkey.Proofs.Occurrence
import Monkey.Value

/-!
The names that a piece of code mentions: where they are looked up, bound by a `let` or declared as
a parameter, the bodies of function literals included. A name that is not mentioned is bound by
none of the statements of the piece.
-/

namespace Monkey

mutual

def Expr.names : Expr → List String
  | .name x => [x.text]
  | .integer _ _ | .string _ | .boolean _ _ => []
  | .function _ parameters body => parameters.map Name.text ++ body.names
  | .array _ elements => Expr.allNames elements
  | .hash _ pairs => Expr.pairNames pairs
  | .unary _ _ operand => operand.names
  | .binary _ _ left right => left.names ++ right.names
  | .cond _ condition consequence none => condition.names ++ consequence.names
  | .cond _ condition consequence (some alternative) =>
    condition.names ++ (consequence.names ++ alternative.names)
  | .call _ callee arguments => callee.names ++ Expr.allNames arguments
  | .index _ collection position => collection.names ++ position.names

def Expr.allNames : List Expr → List String
  | [] => []
  | e :: es => e.names ++ Expr.allNames es

def Expr.pairNames : List (Expr × Expr) → List String
  | [] => []
  | (key, value) :: ps => key.names ++ (value.names ++ Expr.pairNames ps)

def Stmt.names : Stmt → List String
  | .bind _ x value => x.text :: value.names
  | .return _ value => value.names
  | .expr _ value => value.names

def Stmt.allNames : List Stmt → List String
  | [] => []
  | s :: ss => s.names ++ Stmt.allNames ss

def Block.names : Block → List String
  | .mk _ statements => Stmt.allNames statements

end

def Program.names (p : Program) : List String := Stmt.allNames p.statements

/-- The names of the literal that the function was made from. -/
def Closure.names (c : Closure) : List String := c.parameters.map Name.text ++ c.body.names

variable {x : String}

theorem Block.names_eq (b : Block) : b.names = Stmt.allNames b.statements := by
  cases b
  rfl

theorem Expr.forall_mem_names_cond_iff {P : String → Prop} {t : Token} {condition : Expr}
    {b : Block} {alternative : Option Block} :
    (∀ y ∈ (Expr.cond t condition b alternative).names, P y) ↔
      (∀ y ∈ condition.names, P y) ∧ (∀ y ∈ b.names, P y) ∧
        ∀ a ∈ alternative, ∀ y ∈ a.names, P y := by
  cases alternative with
  | none => simp [Expr.names, or_imp, forall_and]
  | some a => simp [Expr.names, or_imp, forall_and]

theorem boundNames_append_subset {ss ts : List Stmt} {xs ys : List String}
    (hs : boundNames ss ⊆ xs) (ht : boundNames ts ⊆ ys) :
    boundNames (ss ++ ts) ⊆ xs ++ ys := by
  rw [boundNames, List.filterMap_append]
  exact List.append_subset.mpr
    ⟨List.subset_append_of_subset_left ys hs, List.subset_append_of_subset_right xs ht⟩

mutual

/-- Whatever is bound is mentioned. -/
theorem Expr.boundNames_subset : ∀ e : Expr, boundNames e.ownStatements ⊆ e.names
  | .name _ | .integer _ _ | .string _ | .boolean _ _ | .function _ _ _ => List.nil_subset _
  | .array _ elements => Expr.boundNames_subset_all elements
  | .hash _ pairs => Expr.boundNames_subset_pairs pairs
  | .unary _ _ operand => operand.boundNames_subset
  | .binary _ _ left right =>
    boundNames_append_subset left.boundNames_subset right.boundNames_subset
  | .cond _ condition consequence none =>
    boundNames_append_subset condition.boundNames_subset consequence.boundNames_subset
  | .cond _ condition consequence (some alternative) =>
    boundNames_append_subset condition.boundNames_subset
      (boundNames_append_subset consequence.boundNames_subset alternative.boundNames_subset)
  | .call _ callee arguments =>
    boundNames_append_subset callee.boundNames_subset (Expr.boundNames_subset_all arguments)
  | .index _ collection position =>
    boundNames_append_subset collection.boundNames_subset position.boundNames_subset

theorem Expr.boundNames_subset_all : ∀ es : List Expr,
    boundNames (Expr.allOwnStatements es) ⊆ Expr.allNames es
  | [] => List.nil_subset _
  | e :: es => boundNames_append_subset e.boundNames_subset (Expr.boundNames_subset_all es)

theorem Expr.boundNames_subset_pairs : ∀ ps : List (Expr × Expr),
    boundNames (Expr.pairStatements ps) ⊆ Expr.pairNames ps
  | [] => List.nil_subset _
  | (key, value) :: ps =>
    boundNames_append_subset key.boundNames_subset
      (boundNames_append_subset value.boundNames_subset (Expr.boundNames_subset_pairs ps))

theorem Stmt.boundNames_subset : ∀ s : Stmt, boundNames s.ownStatements ⊆ s.names
  | .bind _ _ value => List.cons_subset_cons _ value.boundNames_subset
  | .return _ value => value.boundNames_subset
  | .expr _ value => value.boundNames_subset

theorem Stmt.boundNames_subset_all : ∀ ss : List Stmt,
    boundNames (Stmt.allOwnStatements ss) ⊆ Stmt.allNames ss
  | [] => List.nil_subset _
  | s :: ss => boundNames_append_subset s.boundNames_subset (Stmt.boundNames_subset_all ss)

theorem Block.boundNames_subset : ∀ b : Block, boundNames b.ownStatements ⊆ b.names
  | .mk _ statements => Stmt.boundNames_subset_all statements

end

end Monkey
