import Monkey.Value
import Monkey.Tree.Printer
import Monkey.Text.Quoted

/-!
The written form of a value. Strings are written without quotes, a returned value like the value
itself, and a function with its body on lines of its own.
-/

namespace Monkey

/-- A function on three lines, its body on the middle one. -/
def Closure.inspect (c : Closure) : String :=
  "fn(" ++ listing (c.parameters.map Name.text) ++ ") \x7b\n" ++ c.body.text ++ "\n\x7d"

/-- A function on one line, with its literal quoted and the scope left out. -/
def Closure.summary (c : Closure) : String :=
  "Function \x7b literal: " ++ Text.Quoted.text (functionText c.parameters c.body.text)
    ++ ", .. \x7d"

def Builtin.summary (b : Builtin) : String := "Builtin(" ++ Text.Quoted.text b.name ++ ")"

namespace Value

mutual

def inspect : Value → String
  | integer n => Text.Decimal.text n.toInt
  | string s => s
  | boolean b => if b then "true" else "false"
  | null => "null"
  | returned v => inspect v
  | error f => "ERROR: " ++ f.message
  | function _ c => c.inspect
  | builtin _ => "builtin function"
  | array _ elements => "[" ++ listing (inspectAll elements) ++ "]"
  | hash _ ⟨pairs, _⟩ => "\x7b" ++ listing (inspectPairs pairs) ++ "\x7d"

def inspectAll : List Value → List String
  | [] => []
  | v :: vs => inspect v :: inspectAll vs

def inspectPairs : List (Value × Value) → List String
  | [] => []
  | (key, value) :: pairs => (inspect key ++ ": " ++ inspect value) :: inspectPairs pairs

end

theorem inspectAll_eq_map (vs : List Value) : inspectAll vs = vs.map inspect := by
  induction vs with
  | nil => rfl
  | cons v vs ih => rw [inspectAll, ih, List.map_cons]

theorem inspectPairs_eq_map (ps : List (Value × Value)) :
    inspectPairs ps = ps.map fun p => inspect p.1 ++ ": " ++ inspect p.2 := by
  induction ps with
  | nil => rfl
  | cons p ps ih => rw [inspectPairs, ih, List.map_cons]

/-- Functions, of the program or builtin, have a summary; other values have none. -/
def summary? : Value → Option String
  | function _ c => some c.summary
  | builtin b => some b.summary
  | _ => none

end Value

/-- The contents of a hash in insertion order. -/
def Hash.inspect (h : Hash Value) : String :=
  "\x7b" ++ listing (Value.inspectPairs h.pairs) ++ "\x7d"

end Monkey
