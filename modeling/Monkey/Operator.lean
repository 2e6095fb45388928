import Monkey.Value

/-!
Operators on values. Integers wrap around at 64 bits, and a division rounds toward zero. Strings
know only concatenation. Any two values of one other kind can be compared by identity.
-/

namespace Monkey

def UnaryOp.apply (op : UnaryOp) (operand : Value) : Except Fault Value :=
  match op, operand with
  | .not, v => .ok (.boolean !v.isTruthy)
  | .negate, .integer n => .ok (.integer (-n))
  | .negate, v => .error (.unknownUnary .negate v.kind)

def BinaryOp.applyIntegers (op : BinaryOp) (a b : Int64) : Except Fault Value :=
  match op with
  | .add => .ok (.integer (a + b))
  | .subtract => .ok (.integer (a - b))
  | .multiply => .ok (.integer (a * b))
  | .divide => if b = 0 then .error (.divisionByZero a) else .ok (.integer (a / b))
  | .less => .ok (.boolean (a < b))
  | .greater => .ok (.boolean (b < a))
  | .equal => .ok (.boolean (a == b))
  | .notEqual => .ok (.boolean (a != b))

/-- Operands of different kinds match no operator, so their mismatch is reported first. -/
def BinaryOp.apply (op : BinaryOp) (left right : Value) : Except Fault Value :=
  match left, right with
  | .integer a, .integer b => op.applyIntegers a b
  | .string s, .string t =>
    if op = .add then .ok (.string (s ++ t)) else .error (.unknownBinary .string op .string)
  | v, w =>
    if v.kind ≠ w.kind then .error (.typeMismatch v.kind op w.kind)
    else
      match op with
      | .equal => .ok (.boolean (v.identical w))
      | .notEqual => .ok (.boolean !v.identical w)
      | _ => .error (.unknownBinary v.kind op w.kind)

/-- The element of an array at a position, or the value of a hash under a key; `null` if there is
none. -/
def Value.index (collection position : Value) : Except Fault Value :=
  match collection, position with
  | .array _ elements, .integer i => .ok ((i.toInt.toNat?.bind (elements[·]?)).getD .null)
  | .hash _ content, v =>
    match v.key? with
    | some k => .ok ((content.get? k).elim .null Prod.snd)
    | none => .error (.notHashable v.kind)
  | v, _ => .error (.notIndexable v.kind)

end Monkey
