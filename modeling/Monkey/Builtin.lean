import Monkey.Eval
import Monkey.Value.Printer

/-!
The builtin functions. The number of arguments is checked before their kinds. Arrays are never
changed: `rest` and `push` make new ones.
-/

namespace Monkey.Builtin

/-- The only argument. -/
def single (args : List Value) : Except Fault Value :=
  match args with
  | [v] => .ok v
  | _ => .error (.argumentCount args.length 1)

/-- The elements of an argument that has to be an array. -/
def elements (b : Builtin) : Value → Except Fault (List Value)
  | .array _ vs => .ok vs
  | v => .error (.argumentNotArray b v.kind)

def length : Value → Except Fault Value
  | .string s => .ok (.integer (Int64.ofNat s.length))
  | .array _ vs => .ok (.integer (Int64.ofNat vs.length))
  | v => .error (.unsupportedArgument .len v.kind)

/-- Prints the written form of each value on a line of its own. -/
def printAll : List Value → Eval Unit
  | [] => pure ()
  | v :: vs => do
    Eval.print v.inspect
    printAll vs

def call (b : Builtin) (args : List Value) : Eval Value :=
  match b with
  | .len => .ofExcept (single args >>= length)
  | .first => do
    let vs ← .ofExcept (single args >>= elements .first)
    return vs.head?.getD .null
  | .last => do
    let vs ← .ofExcept (single args >>= elements .last)
    return vs.getLast?.getD .null
  | .rest => do
    match ← .ofExcept (single args >>= elements .rest) with
    | [] => return .null
    | _ :: vs => .newArray vs
  | .push =>
    match args with
    | [array, v] => do
      let vs ← .ofExcept (elements .push array)
      .newArray (vs ++ [v])
    | _ => .fail (.argumentCount args.length 2)
  | .puts => do
    printAll args
    return .null

end Monkey.Builtin
