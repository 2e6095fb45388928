import Monkey.Tree

/-!
The written form of a tree. Operations and indexings are wrapped in parentheses, so the nesting can
be read off the text. A name, an integer, a string and a boolean are written as they stood in the
source, strings without quotes; an expression statement is written without a semicolon, and
nothing stands between two statements.
-/

namespace Monkey

/-- Items in a row, a comma and a blank between two of them. -/
def listing (items : List String) : String := ", ".intercalate items

/-- A function literal with an already written body. -/
def functionText (parameters : List Name) (body : String) : String :=
  "fn(" ++ listing (parameters.map Name.text) ++ ") " ++ body

mutual

def Expr.text : Expr → String
  | .name x => x.text
  | .integer t _ | .string t | .boolean t _ => t.literal
  | .function _ parameters body => functionText parameters body.text
  | .array _ elements => "[" ++ listing (Expr.texts elements) ++ "]"
  | .hash _ pairs => "\x7b" ++ listing (Expr.pairTexts pairs) ++ "\x7d"
  | .unary _ op operand => "(" ++ op.text ++ operand.text ++ ")"
  | .binary _ op left right => "(" ++ left.text ++ " " ++ op.text ++ " " ++ right.text ++ ")"
  | .cond _ condition consequence none =>
    "if " ++ condition.text ++ " \x7b " ++ consequence.text ++ " \x7d"
  | .cond _ condition consequence (some alternative) =>
    "if " ++ condition.text ++ " \x7b " ++ consequence.text ++ " \x7d else \x7b "
      ++ alternative.text ++ " \x7d"
  | .call _ callee arguments => callee.text ++ "(" ++ listing (Expr.texts arguments) ++ ")"
  | .index _ collection position => "(" ++ collection.text ++ "[" ++ position.text ++ "])"

def Expr.texts : List Expr → List String
  | [] => []
  | e :: es => e.text :: Expr.texts es

def Expr.pairTexts : List (Expr × Expr) → List String
  | [] => []
  | (key, value) :: pairs => (key.text ++ ": " ++ value.text) :: Expr.pairTexts pairs

def Stmt.text : Stmt → String
  | .bind _ x value => "let " ++ x.text ++ " = " ++ value.text ++ ";"
  | .return _ value => "return " ++ value.text ++ ";"
  | .expr _ value => value.text

def Stmt.texts : List Stmt → List String
  | [] => []
  | s :: ss => s.text :: Stmt.texts ss

def Block.text : Block → String
  | .mk _ statements => String.join (Stmt.texts statements)

end

def Program.text (p : Program) : String := String.join (p.statements.map Stmt.text)

theorem Expr.texts_eq_map (es : List Expr) : Expr.texts es = es.map Expr.text := by
  induction es with
  | nil => rfl
  | cons e es ih => rw [Expr.texts, ih, List.map_cons]

theorem Expr.pairTexts_eq_map (ps : List (Expr × Expr)) :
    Expr.pairTexts ps = ps.map fun p => p.1.text ++ ": " ++ p.2.text := by
  induction ps with
  | nil => rfl
  | cons p ps ih => rw [Expr.pairTexts, ih, List.map_cons]

end Monkey
