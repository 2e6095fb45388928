import Monkey.Fault

/-!
Hashes: pairs in the order in which their keys were first inserted, beside an index from keys to
positions. A key stands for the value that it was made from by that value's kind and one word, and
nothing else about the value decides where a pair is found.
-/

namespace Monkey

/-- What a hash files a pair under. -/
structure Key where
  kind : Kind
  word : UInt64
  deriving DecidableEq, Repr

structure Hash (α : Type) where
  pairs : List (α × α)
  index : List (Key × Nat)

namespace Hash

variable {α : Type}

def empty : Hash α := ⟨[], []⟩

instance : EmptyCollection (Hash α) := ⟨empty⟩

def size (h : Hash α) : Nat := h.pairs.length

def isEmpty (h : Hash α) : Bool := h.pairs.isEmpty

/-- The position of the pair filed under a key. -/
def position? (h : Hash α) (k : Key) : Option Nat := h.index.lookup k

def get? (h : Hash α) (k : Key) : Option (α × α) := (h.position? k).bind (h.pairs[·]?)

/-- A key that is already present keeps its position and takes the new pair. -/
def insert (h : Hash α) (k : Key) (pair : α × α) : Hash α :=
  match h.position? k with
  | some i => ⟨h.pairs.set i pair, h.index⟩
  | none => ⟨h.pairs ++ [pair], (k, h.pairs.length) :: h.index⟩

theorem position?_insert (h : Hash α) (k k' : Key) (pair : α × α) :
    (h.insert k pair).position? k' =
      if k' = k then some ((h.position? k).getD h.size) else h.position? k' := by
  unfold insert
  split
  · next i hi =>
    split
    · next heq => subst heq; rw [hi]; exact hi
    · rfl
  · next hk =>
    show List.lookup k' ((k, h.pairs.length) :: h.index) = _
    rw [List.lookup_cons]
    by_cases heq : k' = k
    · simp [heq, hk, size]
    · simp [heq, beq_eq_false_iff_ne.mpr heq, position?]

end Hash

end Monkey
