import Monkey.Operator
import Monkey.Proofs.Relocation
import Monkey.Value.Printer

/-!
Values whose functions stand in another place. What is written of a value, how it is compared and
used as a key, and what the operators and indexing make of it do not depend on the places.
-/

namespace Monkey

namespace Hash

variable {α β : Type}

/-- The same hash with other key objects and values. -/
def map (f : α → β) (h : Hash α) : Hash β := ⟨h.pairs.map (Prod.map f f), h.index⟩

theorem get?_map (f : α → β) (h : Hash α) (k : Key) :
    (h.map f).get? k = (h.get? k).map (Prod.map f f) := by
  show (h.position? k).bind ((h.pairs.map (Prod.map f f))[·]?) = _
  cases hk : h.position? k with
  | none => simp [get?, hk]
  | some i => simp [get?, hk]

theorem insert_map (f : α → β) (h : Hash α) (k : Key) (pair : α × α) :
    (h.map f).insert k (Prod.map f f pair) = (h.insert k pair).map f := by
  have hposition : (h.map f).position? k = h.position? k := rfl
  unfold insert
  rw [hposition]
  cases h.position? k with
  | some i => simp [map, List.map_set]
  | none => simp [map]

end Hash

variable (σ : Span → Span)

def Closure.move (c : Closure) : Closure :=
  ⟨c.parameters.map (Name.move σ), c.body.move σ, c.scope⟩

theorem Closure.inspect_move (c : Closure) : (c.move σ).inspect = c.inspect := by
  simp only [inspect, move, Name.map_text_map_move, Block.text_move]

namespace Value

mutual

/-- The same value, its functions in another place. -/
def move : Value → Value
  | integer n => integer n
  | string s => string s
  | boolean b => boolean b
  | null => null
  | returned v => returned v.move
  | error f => error f
  | function id c => function id (c.move σ)
  | builtin b => builtin b
  | array id elements => array id (moveAll elements)
  | hash id ⟨pairs, index⟩ => hash id ⟨movePairs pairs, index⟩

def moveAll : List Value → List Value
  | [] => []
  | v :: vs => v.move :: moveAll vs

def movePairs : List (Value × Value) → List (Value × Value)
  | [] => []
  | (key, value) :: pairs => (key.move, value.move) :: movePairs pairs

end

theorem moveAll_eq_map (vs : List Value) : moveAll σ vs = vs.map (move σ) := by
  induction vs with
  | nil => rfl
  | cons v vs ih => rw [moveAll, ih, List.map_cons]

theorem movePairs_eq_map (ps : List (Value × Value)) :
    movePairs σ ps = ps.map (Prod.map (move σ) (move σ)) := by
  induction ps with
  | nil => rfl
  | cons p ps ih =>
    rw [movePairs, ih, List.map_cons]
    rfl

theorem move_array (id : Identity) (vs : List Value) :
    (array id vs).move σ = array id (vs.map (move σ)) := by
  rw [move, moveAll_eq_map]

theorem move_hash (id : Identity) (h : Hash Value) :
    (hash id h).move σ = hash id (h.map (move σ)) := by
  obtain ⟨pairs, index⟩ := h
  rw [move, movePairs_eq_map, Hash.map]

@[simp] theorem kind_move (v : Value) : (v.move σ).kind = v.kind := by
  cases v <;> simp only [move, kind]

@[simp] theorem isTruthy_move (v : Value) : (v.move σ).isTruthy = v.isTruthy := by
  cases v <;> simp only [move, isTruthy]

@[simp] theorem key?_move (v : Value) : (v.move σ).key? = v.key? := by
  cases v <;> simp only [move, key?]

@[simp] theorem unwrap_move (v : Value) : (v.move σ).unwrap = v.unwrap.move σ := by
  cases v <;> simp only [move, unwrap]

@[simp] theorem identical_move (v w : Value) :
    (v.move σ).identical (w.move σ) = v.identical w := by
  cases v <;> cases w <;> simp only [move, identical]

mutual

/-- The written form of a value does not tell where its functions stand. -/
theorem inspect_move : ∀ v : Value, (v.move σ).inspect = v.inspect
  | integer _ | string _ | boolean _ | null | error _ | builtin _ => by simp only [move]
  | returned v => by simp only [move, inspect, v.inspect_move]
  | function _ c => by simp only [move, inspect, c.inspect_move]
  | array _ vs => by simp only [move, inspect, inspectAll_moveAll vs]
  | hash _ ⟨pairs, _⟩ => by simp only [move, inspect, inspectPairs_movePairs pairs]

theorem inspectAll_moveAll : ∀ vs : List Value, inspectAll (moveAll σ vs) = inspectAll vs
  | [] => rfl
  | v :: vs => by simp only [moveAll, inspectAll, v.inspect_move, inspectAll_moveAll vs]

theorem inspectPairs_movePairs : ∀ ps : List (Value × Value),
    inspectPairs (movePairs σ ps) = inspectPairs ps
  | [] => rfl
  | (key, value) :: ps => by
    simp only [movePairs, inspectPairs, key.inspect_move, value.inspect_move,
      inspectPairs_movePairs ps]

end

end Value

theorem UnaryOp.apply_move (op : UnaryOp) (v : Value) :
    op.apply (v.move σ) = (op.apply v).map (Value.move σ) := by
  cases op with
  | not => simp only [apply, Value.isTruthy_move, Except.map, Value.move]
  | negate => cases v <;> simp only [Value.move, apply, Except.map, Value.kind]

theorem BinaryOp.move_of_applyIntegers (op : BinaryOp) (a b : Int64) :
    op.applyIntegers a b = (op.applyIntegers a b).map (Value.move σ) := by
  cases op with
  | divide =>
    simp only [applyIntegers]
    split <;> simp only [Except.map, Value.move]
  | _ => simp only [applyIntegers, Except.map, Value.move]

theorem Value.exists_integer_of_kind {v : Value} (h : v.kind = .integer) : ∃ n, v = .integer n := by
  cases v with
  | integer n => exact ⟨n, rfl⟩
  | _ => cases h

theorem Value.exists_string_of_kind {v : Value} (h : v.kind = .string) : ∃ s, v = .string s := by
  cases v with
  | string s => exact ⟨s, rfl⟩
  | _ => cases h

/-- Outside integers and strings an operator tells values by their kinds and identities. -/
theorem BinaryOp.apply_of_kind {op : BinaryOp} {v w : Value}
    (hi : ¬ (v.kind = .integer ∧ w.kind = .integer))
    (hs : ¬ (v.kind = .string ∧ w.kind = .string)) :
    op.apply v w =
      if v.kind ≠ w.kind then .error (.typeMismatch v.kind op w.kind)
      else
        match op with
        | .equal => .ok (.boolean (v.identical w))
        | .notEqual => .ok (.boolean !v.identical w)
        | _ => .error (.unknownBinary v.kind op w.kind) := by
  unfold apply
  split
  · exact absurd ⟨rfl, rfl⟩ hi
  · exact absurd ⟨rfl, rfl⟩ hs
  · rfl

theorem BinaryOp.apply_move (op : BinaryOp) (v w : Value) :
    op.apply (v.move σ) (w.move σ) = (op.apply v w).map (Value.move σ) := by
  by_cases hi : v.kind = .integer ∧ w.kind = .integer
  · obtain ⟨a, rfl⟩ := Value.exists_integer_of_kind hi.1
    obtain ⟨b, rfl⟩ := Value.exists_integer_of_kind hi.2
    exact op.move_of_applyIntegers σ a b
  by_cases hs : v.kind = .string ∧ w.kind = .string
  · obtain ⟨s, rfl⟩ := Value.exists_string_of_kind hs.1
    obtain ⟨t, rfl⟩ := Value.exists_string_of_kind hs.2
    simp only [Value.move, apply]
    split <;> simp only [Except.map, Value.move]
  · rw [apply_of_kind (by simpa using hi) (by simpa using hs), apply_of_kind hi hs]
    simp only [Value.kind_move, Value.identical_move]
    split
    · rfl
    · cases op <;> simp only [Except.map, Value.move]

theorem Value.index_move (collection position : Value) :
    (collection.move σ).index (position.move σ) =
      (collection.index position).map (Value.move σ) := by
  cases collection with
  | array id vs =>
    rw [move_array]
    cases position with
    | integer i =>
      have hnth : i.toInt.toNat?.bind ((vs.map (move σ))[·]?) =
          (i.toInt.toNat?.bind (vs[·]?)).map (move σ) := by
        cases i.toInt.toNat? <;> simp
      simp only [move, index, Except.map, hnth]
      cases i.toInt.toNat?.bind (vs[·]?) <;> simp only [Option.map, Option.getD, move]
    | _ => simp only [move, index, Except.map, kind]
  | hash id h =>
    rw [move_hash]
    simp only [index, key?_move, kind_move, Hash.get?_map]
    cases position.key? with
    | none => rfl
    | some k =>
      simp only [Except.map]
      cases h.get? k <;> rfl
  | _ => simp only [move, index, Except.map, kind]

end Monkey
