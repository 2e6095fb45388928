import Monkey.Diagnostic
import Monkey.Tree.Printer

/-!
Programs in another place. Moving a program applies one map to the spans of all its tokens and
leaves everything else as it is; what is written or looked up of a tree does not depend on where
the tree stands.
-/

namespace Monkey

/-- The one span that stands for every place. -/
def Span.erase (_ : Span) : Span := .empty 0

variable (σ τ : Span → Span)

/-- The same token in another place. -/
def Token.move (t : Token) : Token := { t with span := σ t.span }

def Name.move (x : Name) : Name := ⟨x.token.move σ⟩

mutual

def Expr.move : Expr → Expr
  | .name x => .name (x.move σ)
  | .integer t n => .integer (t.move σ) n
  | .string t => .string (t.move σ)
  | .boolean t b => .boolean (t.move σ) b
  | .function t parameters body => .function (t.move σ) (parameters.map (Name.move σ)) body.move
  | .array t elements => .array (t.move σ) (Expr.moveAll elements)
  | .hash t pairs => .hash (t.move σ) (Expr.movePairs pairs)
  | .unary t op operand => .unary (t.move σ) op operand.move
  | .binary t op left right => .binary (t.move σ) op left.move right.move
  | .cond t condition consequence none => .cond (t.move σ) condition.move consequence.move none
  | .cond t condition consequence (some alternative) =>
    .cond (t.move σ) condition.move consequence.move (some alternative.move)
  | .call t callee arguments => .call (t.move σ) callee.move (Expr.moveAll arguments)
  | .index t collection position => .index (t.move σ) collection.move position.move

def Expr.moveAll : List Expr → List Expr
  | [] => []
  | e :: es => e.move :: Expr.moveAll es

def Expr.movePairs : List (Expr × Expr) → List (Expr × Expr)
  | [] => []
  | (key, value) :: pairs => (key.move, value.move) :: Expr.movePairs pairs

def Stmt.move : Stmt → Stmt
  | .bind t x value => .bind (t.move σ) (x.move σ) value.move
  | .return t value => .return (t.move σ) value.move
  | .expr t value => .expr (t.move σ) value.move

def Stmt.moveAll : List Stmt → List Stmt
  | [] => []
  | s :: ss => s.move :: Stmt.moveAll ss

def Block.move : Block → Block
  | .mk t statements => .mk (t.move σ) (Stmt.moveAll statements)

end

def Program.move (p : Program) : Program := ⟨p.statements.map (Stmt.move σ)⟩

def Diagnostic.move (d : Diagnostic) : Diagnostic := { d with span := σ d.span }

@[simp] theorem Token.kind_move (t : Token) : (t.move σ).kind = t.kind := rfl

@[simp] theorem Token.literal_move (t : Token) : (t.move σ).literal = t.literal := rfl

@[simp] theorem Token.move_move (t : Token) : (t.move τ).move σ = t.move (σ ∘ τ) := rfl

@[simp] theorem Name.move_move (x : Name) : (x.move τ).move σ = x.move (σ ∘ τ) := rfl

@[simp] theorem Name.text_move (x : Name) : (x.move σ).text = x.text := rfl

theorem Expr.moveAll_eq_map (es : List Expr) : Expr.moveAll σ es = es.map (Expr.move σ) := by
  induction es with
  | nil => rfl
  | cons e es ih => rw [Expr.moveAll, ih, List.map_cons]

theorem Expr.movePairs_eq_map (ps : List (Expr × Expr)) :
    Expr.movePairs σ ps = ps.map (Prod.map (Expr.move σ) (Expr.move σ)) := by
  induction ps with
  | nil => rfl
  | cons p ps ih =>
    rw [Expr.movePairs, ih, List.map_cons]
    rfl

theorem Stmt.moveAll_eq_map (ss : List Stmt) : Stmt.moveAll σ ss = ss.map (Stmt.move σ) := by
  induction ss with
  | nil => rfl
  | cons s ss ih => rw [Stmt.moveAll, ih, List.map_cons]

theorem Expr.move_cond (t : Token) (condition : Expr) (b : Block) (alternative : Option Block) :
    (Expr.cond t condition b alternative).move σ =
      .cond (t.move σ) (condition.move σ) (b.move σ) (alternative.map (Block.move σ)) := by
  cases alternative <;> rw [Expr.move] <;> rfl

@[simp] theorem Block.statements_move (b : Block) :
    (b.move σ).statements = b.statements.map (Stmt.move σ) := by
  cases b
  rw [Block.move, Block.statements, Stmt.moveAll_eq_map, Block.statements]

theorem Name.map_text_map_move (xs : List Name) :
    (xs.map (Name.move σ)).map Name.text = xs.map Name.text := by
  rw [List.map_map]
  rfl

mutual

/-- The written form of a tree does not tell where it stands. -/
theorem Expr.text_move : ∀ e : Expr, (e.move σ).text = e.text
  | .name _ | .integer _ _ | .string _ | .boolean _ _ => by
    simp only [Expr.move, Expr.text, Name.text_move, Token.literal_move]
  | .function _ parameters body => by
    simp only [Expr.move, Expr.text, functionText, Name.map_text_map_move, body.text_move]
  | .array _ elements => by simp only [Expr.move, Expr.text, Expr.texts_moveAll elements]
  | .hash _ pairs => by simp only [Expr.move, Expr.text, Expr.pairTexts_movePairs pairs]
  | .unary _ _ operand => by simp only [Expr.move, Expr.text, operand.text_move]
  | .binary _ _ left right => by simp only [Expr.move, Expr.text, left.text_move, right.text_move]
  | .cond _ condition consequence none => by
    simp only [Expr.move, Expr.text, condition.text_move, consequence.text_move]
  | .cond _ condition consequence (some alternative) => by
    simp only [Expr.move, Expr.text, condition.text_move, consequence.text_move,
      alternative.text_move]
  | .call _ callee arguments => by
    simp only [Expr.move, Expr.text, callee.text_move, Expr.texts_moveAll arguments]
  | .index _ collection position => by
    simp only [Expr.move, Expr.text, collection.text_move, position.text_move]

theorem Expr.texts_moveAll : ∀ es : List Expr, Expr.texts (Expr.moveAll σ es) = Expr.texts es
  | [] => rfl
  | e :: es => by simp only [Expr.moveAll, Expr.texts, e.text_move, Expr.texts_moveAll es]

theorem Expr.pairTexts_movePairs : ∀ ps : List (Expr × Expr),
    Expr.pairTexts (Expr.movePairs σ ps) = Expr.pairTexts ps
  | [] => rfl
  | (key, value) :: ps => by
    simp only [Expr.movePairs, Expr.pairTexts, key.text_move, value.text_move,
      Expr.pairTexts_movePairs ps]

theorem Stmt.text_move : ∀ s : Stmt, (s.move σ).text = s.text
  | .bind _ _ value => by simp only [Stmt.move, Stmt.text, Name.text_move, value.text_move]
  | .return _ value => by simp only [Stmt.move, Stmt.text, value.text_move]
  | .expr _ value => by simp only [Stmt.move, Stmt.text, value.text_move]

theorem Stmt.texts_moveAll : ∀ ss : List Stmt, Stmt.texts (Stmt.moveAll σ ss) = Stmt.texts ss
  | [] => rfl
  | s :: ss => by simp only [Stmt.moveAll, Stmt.texts, s.text_move, Stmt.texts_moveAll ss]

theorem Block.text_move : ∀ b : Block, (b.move σ).text = b.text
  | .mk _ statements => by simp only [Block.move, Block.text, Stmt.texts_moveAll statements]

end

mutual

/-- Moved twice, a tree has moved once by both maps. -/
theorem Expr.move_move : ∀ e : Expr, (e.move τ).move σ = e.move (σ ∘ τ)
  | .name _ | .integer _ _ | .string _ | .boolean _ _ => by
    simp only [Expr.move, Token.move_move, Name.move_move]
  | .function _ parameters body => by
    have hparameters : (parameters.map (Name.move τ)).map (Name.move σ) =
        parameters.map (Name.move (σ ∘ τ)) := List.map_map
    simp only [Expr.move, Token.move_move, body.move_move, hparameters]
  | .array _ elements => by simp only [Expr.move, Token.move_move, Expr.moveAll_moveAll elements]
  | .hash _ pairs => by simp only [Expr.move, Token.move_move, Expr.movePairs_movePairs pairs]
  | .unary _ _ operand => by simp only [Expr.move, Token.move_move, operand.move_move]
  | .binary _ _ left right => by
    simp only [Expr.move, Token.move_move, left.move_move, right.move_move]
  | .cond _ condition consequence none => by
    simp only [Expr.move, Token.move_move, condition.move_move, consequence.move_move]
  | .cond _ condition consequence (some alternative) => by
    simp only [Expr.move, Token.move_move, condition.move_move, consequence.move_move,
      alternative.move_move]
  | .call _ callee arguments => by
    simp only [Expr.move, Token.move_move, callee.move_move, Expr.moveAll_moveAll arguments]
  | .index _ collection position => by
    simp only [Expr.move, Token.move_move, collection.move_move, position.move_move]

theorem Expr.moveAll_moveAll : ∀ es : List Expr,
    Expr.moveAll σ (Expr.moveAll τ es) = Expr.moveAll (σ ∘ τ) es
  | [] => rfl
  | e :: es => by simp only [Expr.moveAll, e.move_move, Expr.moveAll_moveAll es]

theorem Expr.movePairs_movePairs : ∀ ps : List (Expr × Expr),
    Expr.movePairs σ (Expr.movePairs τ ps) = Expr.movePairs (σ ∘ τ) ps
  | [] => rfl
  | (key, value) :: ps => by
    simp only [Expr.movePairs, key.move_move, value.move_move, Expr.movePairs_movePairs ps]

theorem Stmt.move_move : ∀ s : Stmt, (s.move τ).move σ = s.move (σ ∘ τ)
  | .bind _ _ value => by simp only [Stmt.move, Token.move_move, Name.move_move, value.move_move]
  | .return _ value => by simp only [Stmt.move, Token.move_move, value.move_move]
  | .expr _ value => by simp only [Stmt.move, Token.move_move, value.move_move]

theorem Stmt.moveAll_moveAll : ∀ ss : List Stmt,
    Stmt.moveAll σ (Stmt.moveAll τ ss) = Stmt.moveAll (σ ∘ τ) ss
  | [] => rfl
  | s :: ss => by simp only [Stmt.moveAll, s.move_move, Stmt.moveAll_moveAll ss]

theorem Block.move_move : ∀ b : Block, (b.move τ).move σ = b.move (σ ∘ τ)
  | .mk _ statements => by simp only [Block.move, Token.move_move, Stmt.moveAll_moveAll statements]

end

end Monkey
