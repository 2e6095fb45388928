import Monkey.Tree
import Monkey.Text.Decimal

/-!
What can go wrong while a program runs, and the kinds of values and the builtin functions that
messages name. A fault records the kinds of the values involved rather than the values, so a
message shows no contents; the dividend of a division by zero is the one exception.
-/

namespace Monkey

/-- The type of a value, as programs can tell it. -/
inductive Kind where
  | integer | boolean | null | returned | error | function | string | builtin | array | hash
  deriving DecidableEq, Repr

def Kind.name : Kind → String
  | integer => "INTEGER"
  | boolean => "BOOLEAN"
  | null => "NULL"
  | returned => "RETURN_VALUE"
  | error => "ERROR"
  | function => "FUNCTION"
  | string => "STRING"
  | builtin => "BUILTIN"
  | array => "ARRAY"
  | hash => "HASH"

/-- The functions that every program can use without defining them. -/
inductive Builtin where
  | len | first | last | rest | push | puts
  deriving DecidableEq, Repr

namespace Builtin

def all : List Builtin := [len, first, last, rest, push, puts]

def name : Builtin → String
  | len => "len"
  | first => "first"
  | last => "last"
  | rest => "rest"
  | push => "push"
  | puts => "puts"

def ofName? (x : String) : Option Builtin := all.find? (·.name == x)

end Builtin

inductive Fault where
  | typeMismatch (left : Kind) (op : BinaryOp) (right : Kind)
  | unknownUnary (op : UnaryOp) (operand : Kind)
  | unknownBinary (left : Kind) (op : BinaryOp) (right : Kind)
  | unboundName (x : String)
  | notFunction (found : Kind)
  | notIndexable (found : Kind)
  | notHashable (found : Kind)
  | divisionByZero (dividend : Int64)
  | argumentCount (got want : Nat)
  | unsupportedArgument (builtin : Builtin) (got : Kind)
  | argumentNotArray (builtin : Builtin) (got : Kind)
  deriving DecidableEq, Repr

def Fault.message : Fault → String
  | .typeMismatch l op r => "type mismatch: " ++ l.name ++ " " ++ op.text ++ " " ++ r.name
  | .unknownUnary op k => "unknown operator: " ++ op.text ++ k.name
  | .unknownBinary l op r => "unknown operator: " ++ l.name ++ " " ++ op.text ++ " " ++ r.name
  | .unboundName x => "identifier not found: " ++ x
  | .notFunction k => "not a function: " ++ k.name
  | .notIndexable k => "index operator not supported: " ++ k.name
  | .notHashable k => "unusable as hash key: " ++ k.name
  | .divisionByZero n => "division by zero: " ++ Text.Decimal.text n.toInt ++ " / 0"
  | .argumentCount got want =>
    "wrong number of arguments. Got " ++ Text.Decimal.text got ++ ", want "
      ++ Text.Decimal.text want
  | .unsupportedArgument b k => "argument to '" ++ b.name ++ "' not supported. Got " ++ k.name
  | .argumentNotArray b k => "argument to '" ++ b.name ++ "' must be ARRAY. Got " ++ k.name

end Monkey
