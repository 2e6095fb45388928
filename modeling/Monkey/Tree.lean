import Monkey.Token

/-!
Syntax trees. Every node keeps the token that it began at: its operator for an operation, the
opening parenthesis for a call, the opening bracket for an indexing, the brace for a block.
Grouping parentheses leave no node.
-/

namespace Monkey

inductive UnaryOp where
  | not | negate
  deriving DecidableEq, Repr

namespace UnaryOp

def text : UnaryOp → String
  | not => "!"
  | negate => "-"

/-- The operator that a token stands for where an operand may begin. -/
def ofKind? : Token.Kind → Option UnaryOp
  | .symbol .bang => some not
  | .symbol .minus => some negate
  | _ => none

end UnaryOp

inductive BinaryOp where
  | add | subtract | multiply | divide | less | greater | equal | notEqual
  deriving DecidableEq, Repr

namespace BinaryOp

def text : BinaryOp → String
  | add => "+"
  | subtract => "-"
  | multiply => "*"
  | divide => "/"
  | less => "<"
  | greater => ">"
  | equal => "=="
  | notEqual => "!="

/-- The operator that a token stands for behind an operand. -/
def ofKind? : Token.Kind → Option BinaryOp
  | .symbol .plus => some add
  | .symbol .minus => some subtract
  | .symbol .asterisk => some multiply
  | .symbol .slash => some divide
  | .symbol .less => some less
  | .symbol .greater => some greater
  | .symbol .equal => some equal
  | .symbol .notEqual => some notEqual
  | _ => none

end BinaryOp

/-- A name where it is bound or looked up. -/
structure Name where
  token : Token
  deriving DecidableEq, Repr

def Name.text (x : Name) : String := x.token.literal

mutual

inductive Expr where
  | name (x : Name)
  | integer (token : Token) (value : Int64)
  | string (token : Token)
  | boolean (token : Token) (value : Bool)
  | function (token : Token) (parameters : List Name) (body : Block)
  | array (token : Token) (elements : List Expr)
  | hash (token : Token) (pairs : List (Expr × Expr))
  | unary (token : Token) (op : UnaryOp) (operand : Expr)
  | binary (token : Token) (op : BinaryOp) (left right : Expr)
  | cond (token : Token) (condition : Expr) (consequence : Block) (alternative : Option Block)
  | call (token : Token) (callee : Expr) (arguments : List Expr)
  | index (token : Token) (collection position : Expr)

inductive Stmt where
  | bind (token : Token) (x : Name) (value : Expr)
  | return (token : Token) (value : Expr)
  | expr (token : Token) (value : Expr)

inductive Block where
  | mk (token : Token) (statements : List Stmt)

end

/-- A program is its statements in source order. -/
structure Program where
  statements : List Stmt

def Expr.token : Expr → Token
  | .name x => x.token
  | .integer t _ | .string t | .boolean t _ | .function t _ _ | .array t _ | .hash t _
  | .unary t _ _ | .binary t _ _ _ | .cond t _ _ _ | .call t _ _ | .index t _ _ => t

def Stmt.token : Stmt → Token
  | .bind t _ _ | .return t _ | .expr t _ => t

def Block.token : Block → Token
  | .mk t _ => t

def Block.statements : Block → List Stmt
  | .mk _ ss => ss

/-- The literal that a program begins with, empty if it has no statement. -/
def Program.literal (p : Program) : String :=
  match p.statements with
  | [] => ""
  | s :: _ => s.token.literal

end Monkey
