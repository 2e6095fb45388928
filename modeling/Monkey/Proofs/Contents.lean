import Monkey.Proofs.Effect

/-!
What a value contains. A property that says nothing about scalars, builtins and arrays as such
passes from what is stored in the operands or arguments of an operation to what is stored in its
result, since operators, indexing and builtins only pass values on, or put them into new arrays.
-/

namespace Monkey

namespace Value

mutual

/-- The values stored in a value, at any depth. -/
def stored : Value → List Value
  | array _ elements => allStored elements
  | hash _ ⟨pairs, _⟩ => pairsStored pairs
  | returned v => v :: v.stored
  | _ => []

def allStored : List Value → List Value
  | [] => []
  | v :: vs => v :: (v.stored ++ allStored vs)

def pairsStored : List (Value × Value) → List Value
  | [] => []
  | (key, value) :: ps => key :: (key.stored ++ value :: (value.stored ++ pairsStored ps))

end

/-- A value and the values stored in it. -/
def parts (v : Value) : List Value := v :: v.stored

/-- A property of a value and of all that is stored in it. -/
def All (P : Value → Prop) (v : Value) : Prop := ∀ w ∈ v.parts, P w

variable {P Q : Value → Prop}

theorem All.self {v : Value} (h : v.All P) : P v := h v List.mem_cons_self

theorem All.mono {v : Value} (h : v.All P) (hpq : ∀ w, P w → Q w) : v.All Q :=
  fun w hw => hpq w (h w hw)

theorem all_of_stored_eq_nil {v : Value} (hv : v.stored = []) (h : P v) : v.All P := by
  intro w hw
  rw [parts, hv, List.mem_singleton] at hw
  exact hw ▸ h

theorem forall_mem_allStored {vs : List Value} :
    (∀ w ∈ allStored vs, P w) ↔ ∀ v ∈ vs, v.All P := by
  induction vs with
  | nil => simp [allStored]
  | cons v vs ih =>
    simp only [allStored, List.forall_mem_cons, List.forall_mem_append, ih, All, parts, and_assoc]

theorem forall_mem_pairsStored {ps : List (Value × Value)} :
    (∀ w ∈ pairsStored ps, P w) ↔ ∀ p ∈ ps, p.1.All P ∧ p.2.All P := by
  induction ps with
  | nil => simp [pairsStored]
  | cons p ps ih =>
    obtain ⟨key, value⟩ := p
    simp only [pairsStored, List.forall_mem_cons, List.forall_mem_append, ih, All, parts,
      and_assoc]

theorem all_array_iff {id : Identity} {vs : List Value} :
    (array id vs).All P ↔ P (array id vs) ∧ ∀ v ∈ vs, v.All P := by
  rw [All, parts, List.forall_mem_cons, stored, forall_mem_allStored]

theorem all_returned_iff {v : Value} : (returned v).All P ↔ P (returned v) ∧ v.All P := by
  rw [All, parts, List.forall_mem_cons, stored, All, parts]

end Value

namespace Hash

/-- A property of the keys and values of a hash and of all that is stored in them. -/
def All (P : Value → Prop) (h : Hash Value) : Prop := ∀ p ∈ h.pairs, p.1.All P ∧ p.2.All P

variable {P : Value → Prop}

theorem all_empty : (∅ : Hash Value).All P := by
  intro p hp
  exact absurd hp List.not_mem_nil

theorem mem_or_eq_of_mem_insert {α : Type} {h : Hash α} {filed : Key} {pair p : α × α}
    (hp : p ∈ (h.insert filed pair).pairs) : p ∈ h.pairs ∨ p = pair := by
  unfold insert at hp
  split at hp
  · exact List.mem_or_eq_of_mem_set hp
  · simpa using hp

theorem All.insert {h : Hash Value} {filed : Key} {k v : Value} (hh : h.All P) (hk : k.All P)
    (hv : v.All P) : (h.insert filed (k, v)).All P := by
  intro p hp
  rcases mem_or_eq_of_mem_insert hp with hp | rfl
  · exact hh p hp
  · exact ⟨hk, hv⟩

end Hash

namespace Value

variable {P : Value → Prop}

theorem all_hash_iff {id : Identity} {h : Hash Value} :
    (hash id h).All P ↔ P (hash id h) ∧ h.All P := by
  obtain ⟨pairs, index⟩ := h
  rw [All, parts, List.forall_mem_cons, stored, forall_mem_pairsStored, Hash.All]

mutual

/-- What holds of all parts of a value holds of all parts of its parts. -/
theorem All.all : ∀ {v : Value}, v.All P → v.All (All P)
  | integer _, h | string _, h | boolean _, h | null, h | error _, h | function _ _, h
  | builtin _, h => all_of_stored_eq_nil rfl h
  | returned _, h => all_returned_iff.mpr ⟨h, All.all (all_returned_iff.mp h).2⟩
  | array _ _, h => all_array_iff.mpr ⟨h, All.all_of_mem (all_array_iff.mp h).2⟩
  | hash _ ⟨_, _⟩, h => all_hash_iff.mpr ⟨h, All.all_of_mem_pairs (all_hash_iff.mp h).2⟩

theorem All.all_of_mem : ∀ {vs : List Value}, (∀ v ∈ vs, v.All P) → ∀ v ∈ vs, v.All (All P)
  | [], _ => nofun
  | _ :: _, h => by
    obtain ⟨hv, hvs⟩ := List.forall_mem_cons.mp h
    exact List.forall_mem_cons.mpr ⟨All.all hv, All.all_of_mem hvs⟩

theorem All.all_of_mem_pairs : ∀ {ps : List (Value × Value)},
    (∀ p ∈ ps, p.1.All P ∧ p.2.All P) → ∀ p ∈ ps, p.1.All (All P) ∧ p.2.All (All P)
  | [], _ => nofun
  | (_, _) :: _, h => by
    obtain ⟨⟨hkey, hvalue⟩, hps⟩ := List.forall_mem_cons.mp h
    have hall := All.all_of_mem_pairs hps
    exact List.forall_mem_cons.mpr ⟨⟨All.all hkey, All.all hvalue⟩, hall⟩

end

theorem All.part {v w : Value} (h : v.All P) (hw : w ∈ v.parts) : w.All P := h.all w hw

/-- The bindings of the parameters of a call have the values of its arguments. -/
theorem all_of_mem_zip {xs : List String} {vs : List Value}
    (h : ∀ v ∈ vs, v.All P) : ∀ b ∈ (xs.zip vs).reverse, b.2.All P := by
  intro b hb
  exact h b.2 (List.of_mem_zip (List.mem_reverse.mp hb)).2

/-- A property that holds of every scalar and builtin. -/
structure Plain (P : Value → Prop) : Prop where
  integer (n : Int64) : P (integer n)
  string (s : String) : P (string s)
  boolean (b : Bool) : P (boolean b)
  null : P null
  builtin (b : Builtin) : P (builtin b)

namespace Plain

variable (hP : Plain P)

include hP

theorem all_integer (n : Int64) : (Value.integer n).All P := all_of_stored_eq_nil rfl (hP.integer n)

theorem all_string (s : String) : (Value.string s).All P := all_of_stored_eq_nil rfl (hP.string s)

theorem all_boolean (b : Bool) : (Value.boolean b).All P := all_of_stored_eq_nil rfl (hP.boolean b)

theorem all_null : Value.null.All P := all_of_stored_eq_nil rfl hP.null

theorem all_builtin (b : Builtin) : (Value.builtin b).All P :=
  all_of_stored_eq_nil rfl (hP.builtin b)

/-- An optional element of a list of good values, or `null`. -/
theorem all_getD {found : Option Value} (h : ∀ v ∈ found, v.All P) : (found.getD .null).All P := by
  cases found with
  | none => exact hP.all_null
  | some v => exact h v rfl

end Plain

/-- A property that holds of every scalar, builtin and array as such. -/
structure Lenient (P : Value → Prop) : Prop where
  integer (n : Int64) : P (integer n)
  string (s : String) : P (string s)
  boolean (b : Bool) : P (boolean b)
  null : P null
  builtin (b : Builtin) : P (builtin b)
  array (id : Identity) (vs : List Value) : P (array id vs)

namespace Lenient

variable (hP : Lenient P)

include hP

theorem plain : Plain P := ⟨hP.integer, hP.string, hP.boolean, hP.null, hP.builtin⟩

theorem all_integer (n : Int64) : (Value.integer n).All P := hP.plain.all_integer n

theorem all_string (s : String) : (Value.string s).All P := hP.plain.all_string s

theorem all_boolean (b : Bool) : (Value.boolean b).All P := hP.plain.all_boolean b

theorem all_null : Value.null.All P := hP.plain.all_null

theorem all_builtin (b : Builtin) : (Value.builtin b).All P := hP.plain.all_builtin b

theorem all_array {id : Identity} {vs : List Value} (h : ∀ v ∈ vs, v.All P) :
    (Value.array id vs).All P := all_array_iff.mpr ⟨hP.array id vs, h⟩

end Lenient

end Value

open Value

variable {P : Value → Prop}

section

variable (hP : Plain P)

include hP

theorem UnaryOp.all_of_apply {op : UnaryOp} {v w : Value} (h : op.apply v = .ok w) : w.All P := by
  cases op with
  | not =>
    obtain rfl := Except.ok.inj h
    exact hP.all_boolean _
  | negate =>
    cases v with
    | integer n =>
      obtain rfl := Except.ok.inj h
      exact hP.all_integer _
    | _ => cases h

theorem BinaryOp.all_of_applyIntegers {op : BinaryOp} {a b : Int64} {w : Value}
    (h : op.applyIntegers a b = .ok w) : w.All P := by
  cases op with
  | add | subtract | multiply =>
    obtain rfl := Except.ok.inj h
    exact hP.all_integer _
  | divide =>
    simp only [applyIntegers] at h
    split at h
    · cases h
    · obtain rfl := Except.ok.inj h
      exact hP.all_integer _
  | less | greater | equal | notEqual =>
    obtain rfl := Except.ok.inj h
    exact hP.all_boolean _

theorem BinaryOp.all_of_apply {op : BinaryOp} {u v w : Value} (h : op.apply u v = .ok w) :
    w.All P := by
  unfold BinaryOp.apply at h
  split at h
  · exact all_of_applyIntegers hP h
  · split at h
    · obtain rfl := Except.ok.inj h
      exact hP.all_string _
    · cases h
  · split at h
    · cases h
    · split at h
      · obtain rfl := Except.ok.inj h
        exact hP.all_boolean _
      · obtain rfl := Except.ok.inj h
        exact hP.all_boolean _
      · cases h

theorem Value.all_of_index {collection position w : Value} (hc : collection.All P)
    (h : collection.index position = .ok w) : w.All P := by
  unfold Value.index at h
  split at h
  · next id elements i =>
    obtain rfl := Except.ok.inj h
    refine hP.all_getD fun v hv => ?_
    obtain ⟨n, -, hn⟩ := Option.bind_eq_some_iff.mp hv
    exact (all_array_iff.mp hc).2 v (List.mem_of_getElem? hn)
  · next id content =>
    split at h
    · next k _ =>
      obtain rfl := Except.ok.inj h
      cases hget : content.get? k with
      | none => exact hP.all_null
      | some pair =>
        obtain ⟨n, -, hn⟩ := Option.bind_eq_some_iff.mp hget
        exact ((all_hash_iff.mp hc).2 pair (List.mem_of_getElem? hn)).2
    · cases h
  · cases h

namespace Builtin

omit hP in
theorem all_of_elements {b : Builtin} {v : Value} {vs : List Value} (hv : v.All P)
    (h : elements b v = .ok vs) : ∀ w ∈ vs, w.All P := by
  unfold elements at h
  split at h
  · obtain rfl := Except.ok.inj h
    exact (all_array_iff.mp hv).2
  · cases h

omit hP in
/-- The elements of the only argument. -/
theorem all_of_single_elements {b : Builtin} {args vs : List Value} (hargs : ∀ v ∈ args, v.All P)
    (h : (single args >>= elements b) = .ok vs) : ∀ w ∈ vs, w.All P := by
  unfold single at h
  split at h
  · next v => exact all_of_elements (hargs v List.mem_cons_self) h
  · cases h

theorem all_of_length {v w : Value} (h : length v = .ok w) : w.All P := by
  unfold length at h
  split at h
  · obtain rfl := Except.ok.inj h
    exact hP.all_integer _
  · obtain rfl := Except.ok.inj h
    exact hP.all_integer _
  · cases h

end Builtin

end

namespace Builtin

variable (hP : Lenient P)

include hP

theorem all_of_newArray {vs : List Value} {m m' : Machine} {w : Value} (hvs : ∀ v ∈ vs, v.All P)
    (h : Eval.newArray vs m = .done w m') : w.All P := by
  cases h
  exact hP.all_array hvs

/-- What a builtin gives is made of what its arguments are made of. -/
theorem all_of_call {b : Builtin} {args : List Value} {m m' : Machine} {w : Value}
    (hargs : ∀ v ∈ args, v.All P) (h : b.call args m = .done w m') : w.All P := by
  cases b with
  | len =>
    obtain ⟨hlen, -⟩ := Eval.eq_ok_of_ofExcept_eq_done h
    unfold single at hlen
    split at hlen
    · exact all_of_length hP.plain hlen
    · cases hlen
  | first =>
    obtain ⟨vs, hvs, hw⟩ := Eval.exists_of_ofExcept_bind_eq_done h
    cases hw
    exact hP.plain.all_getD fun v hv => all_of_single_elements hargs hvs v (List.mem_of_head? hv)
  | last =>
    obtain ⟨vs, hvs, hw⟩ := Eval.exists_of_ofExcept_bind_eq_done h
    cases hw
    exact hP.plain.all_getD fun v hv => all_of_single_elements hargs hvs v (List.mem_of_getLast? hv)
  | rest =>
    obtain ⟨vs, hvs, hw⟩ := Eval.exists_of_ofExcept_bind_eq_done h
    cases vs with
    | nil =>
      cases hw
      exact hP.all_null
    | cons v vs =>
      have hall := all_of_single_elements hargs hvs
      exact all_of_newArray hP (fun u hu => hall u (List.mem_cons_of_mem v hu)) hw
  | push =>
    simp only [call] at h
    split at h
    · next array v =>
      obtain ⟨vs, hvs, hw⟩ := Eval.exists_of_ofExcept_bind_eq_done h
      have hall := all_of_elements (hargs array List.mem_cons_self) hvs
      have hv : v.All P := hargs v (List.mem_cons_of_mem _ List.mem_cons_self)
      refine all_of_newArray hP (fun u hu => ?_) hw
      rcases List.mem_append.mp hu with hu | hu
      · exact hall u hu
      · exact List.mem_singleton.mp hu ▸ hv
    · cases h
  | puts =>
    obtain ⟨_, m₁, -, hw⟩ := Eval.exists_of_bind_eq_done h
    cases hw
    exact hP.all_null

end Builtin

end Monkey
