import Monkey.Hash
import Monkey.Text.Fingerprint

/-!
Values. An array, a hash and a function carry an identity, given when they were made: the language
compares them by identity, and a copy keeps it. The result of a `return` on its way out of the
enclosing blocks is a value of its own, and so is a fault that ended a program.
-/

namespace Monkey

abbrev Identity := Nat

abbrev ScopeId := Nat

/-- A function literal with the scope in which it was evaluated. -/
structure Closure where
  parameters : List Name
  body : Block
  scope : ScopeId

inductive Value where
  | integer (n : Int64)
  | string (s : String)
  | boolean (b : Bool)
  | null
  | returned (v : Value)
  | error (f : Fault)
  | function (id : Identity) (closure : Closure)
  | builtin (b : Builtin)
  | array (id : Identity) (elements : List Value)
  | hash (id : Identity) (content : Hash Value)

namespace Value

instance : Inhabited Value := ⟨null⟩

def kind : Value → Kind
  | integer _ => .integer
  | string _ => .string
  | boolean _ => .boolean
  | null => .null
  | returned _ => .returned
  | error _ => .error
  | function _ _ => .function
  | builtin _ => .builtin
  | array _ _ => .array
  | hash _ _ => .hash

def isError : Value → Bool
  | error _ => true
  | _ => false

/-- Everything but `null` and `false` counts as true. -/
def isTruthy : Value → Bool
  | null | boolean false => false
  | _ => true

/-- The key that a value is filed under; only integers, booleans and strings have one. -/
def key? : Value → Option Key
  | integer n => some ⟨.integer, n.toUInt64⟩
  | boolean b => some ⟨.boolean, if b then 1 else 0⟩
  | string s => some ⟨.string, Text.Fingerprint.ofString s⟩
  | _ => none

/-- What a `return` leaves where a function or the program ends. -/
def unwrap : Value → Value
  | returned v => v
  | v => v

/-- The comparison of the operators `==` and `!=` outside integers and strings. -/
def identical : Value → Value → Bool
  | boolean a, boolean b => a == b
  | null, null => true
  | array i _, array j _ => i == j
  | hash i _, hash j _ => i == j
  | function i _, function j _ => i == j
  | builtin a, builtin b => a == b
  | _, _ => false

mutual

/-- Equality of contents. Hashes are equal if they have as many pairs and each pair of the first is
equal to the pair that the second files under the same key; which of the two pairs is compared to
which makes no difference (`equal_hash_iff_swap`). -/
def equal : Value → Value → Bool
  | integer a, integer b => a == b
  | string a, string b => a == b
  | boolean a, boolean b => a == b
  | null, null => true
  | returned a, returned b => equal a b
  | error a, error b => a == b
  | function i _, function j _ => i == j
  | builtin a, builtin b => a == b
  | array _ xs, array _ ys => equalAll xs ys
  | hash _ ⟨pairs, index⟩, hash _ other =>
    let tests := pairTests pairs
    pairs.length == other.size && index.all fun entry =>
      match tests[entry.2]?, other.get? entry.1 with
      | some test, some pair => test.1 pair.1 && test.2 pair.2
      | _, _ => false
  | _, _ => false

def equalAll : List Value → List Value → Bool
  | [], [] => true
  | x :: xs, y :: ys => equal x y && equalAll xs ys
  | _, _ => false

/-- For each pair, the tests for equality with its key and with its value. -/
def pairTests : List (Value × Value) → List ((Value → Bool) × (Value → Bool))
  | [] => []
  | (key, value) :: pairs => (equal key, equal value) :: pairTests pairs

end

theorem pairTests_eq_map (ps : List (Value × Value)) :
    pairTests ps = ps.map fun p => (equal p.1, equal p.2) := by
  induction ps with
  | nil => rfl
  | cons p ps ih => rw [pairTests, ih, List.map_cons]

end Value

end Monkey
