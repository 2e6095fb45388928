import Monkey.Proofs.ScopeFrame

/-!
Scopes that are opened inside one another and bound to in any order. What was done to the scopes is
their history, and it alone decides what a name stands for: of the scopes on the way outward, the
nearest in which the name was ever bound counts, and there the newest binding, be it older or newer
than the scope from which one looks.
-/

namespace Monkey

/-- One thing that is done to the scopes. -/
inductive Change where
  | enclose (outer : ScopeId)
  | bind (scope : ScopeId) (x : String) (v : Value)

/-- What was done since there was only the global scope, the newest change first. -/
abbrev History := List Change

/-- The scope that it is done to. -/
def Change.scope : Change → ScopeId
  | enclose scope | bind scope _ _ => scope

def Change.apply (m : Machine) : Change → Machine
  | enclose outer => (m.openScope (some outer) []).2
  | bind scope x v => m.assign scope x v

namespace History

/-- The scopes as they are after all changes. -/
def machine : History → Machine
  | [] => .initial
  | c :: h => c.apply (machine h)

/-- How many scopes there are; each is numbered by how many there were before it. -/
def size : History → Nat
  | [] => 1
  | .enclose _ :: h => size h + 1
  | .bind .. :: h => size h

/-- Each change was done to a scope that was there. -/
def Valid : History → Prop
  | [] => True
  | c :: h => c.scope < size h ∧ Valid h

instance : DecidablePred Valid
  | [] => .isTrue trivial
  | c :: h =>
    have : Decidable (Valid h) := instDecidablePredValid h
    inferInstanceAs (Decidable (c.scope < size h ∧ Valid h))

/-- The scope that a scope was enclosed in; the global scope was enclosed in none. -/
def outer? (i : ScopeId) : History → Option ScopeId
  | [] => none
  | .enclose outer :: h => if i = size h then some outer else outer? i h
  | .bind .. :: h => outer? i h

/-- What a name was last bound to in this very scope. -/
def newest? (i : ScopeId) (x : String) : History → Option Value
  | [] => none
  | .enclose _ :: h => newest? i x h
  | .bind scope y v :: h => if scope = i ∧ y = x then some v else newest? i x h

/-- The way outward: a scope, the one that it was enclosed in, and so on up to the global scope. -/
inductive Chain (h : History) : ScopeId → List ScopeId → Prop
  | outermost {i : ScopeId} (ho : outer? i h = none) : Chain h i [i]
  | inner {i o : ScopeId} {is : List ScopeId} (ho : outer? i h = some o) (hs : Chain h o is) :
      Chain h i (i :: is)

section

variable {h : History} {i o : ScopeId} {x : String}

/-- Nothing was ever done to scopes that are not there. -/
theorem newest?_eq_none (hvalid : h.Valid) (hi : h.size ≤ i) (x : String) : newest? i x h = none := by
  induction h with
  | nil => rfl
  | cons c h ih =>
    cases c with
    | enclose outer => exact ih hvalid.2 (Nat.le_of_succ_le hi)
    | bind scope y v =>
      have hne : scope ≠ i := Nat.ne_of_lt (Nat.lt_of_lt_of_le hvalid.1 hi)
      rw [newest?, if_neg fun heq => hne heq.1]
      exact ih hvalid.2 hi

/-- Scopes are enclosed in older ones. -/
theorem outer?_lt (hvalid : h.Valid) (ho : outer? i h = some o) : o < i ∧ i < h.size := by
  induction h with
  | nil => cases ho
  | cons c h ih =>
    cases c with
    | enclose outer =>
      rw [outer?] at ho
      split at ho
      · next hi =>
        obtain rfl := Option.some.inj ho
        exact ⟨hi ▸ hvalid.1, hi ▸ Nat.lt_succ_self _⟩
      · obtain ⟨hlt, hsize⟩ := ih hvalid.2 ho
        exact ⟨hlt, Nat.lt_succ_of_lt hsize⟩
    | bind scope y v => exact ih hvalid.2 ho

namespace Chain

/-- There is one way outward. -/
theorem unique {is js : List ScopeId} (hi : Chain h i is) (hj : Chain h i js) : js = is := by
  induction hi generalizing js with
  | outermost ho =>
    cases hj with
    | outermost => rfl
    | inner ho' => cases ho.symm.trans ho'
  | inner ho _ ih =>
    cases hj with
    | outermost ho' => cases ho.symm.trans ho'
    | inner ho' hs' =>
      cases ho.symm.trans ho'
      rw [ih hs']

theorem lt_size {is : List ScopeId} (hvalid : h.Valid) (hc : Chain h i is) (hi : i < h.size) :
    ∀ j ∈ is, j < h.size := by
  induction hc with
  | outermost => simpa using hi
  | inner ho _ ih =>
    obtain ⟨hlt, -⟩ := outer?_lt hvalid ho
    exact List.forall_mem_cons.mpr ⟨hi, ih (Nat.lt_trans hlt hi)⟩

end Chain

theorem exists_chain (hvalid : h.Valid) (i : ScopeId) : ∃ is, h.Chain i is := by
  induction i using Nat.strongRecOn with
  | ind i ih =>
    cases ho : outer? i h with
    | none => exact ⟨[i], .outermost ho⟩
    | some o =>
      obtain ⟨is, hs⟩ := ih o (outer?_lt hvalid ho).1
      exact ⟨i :: is, .inner ho hs⟩

end

/-- The scopes of the machine are those of the history. -/
structure Tells (h : History) (m : Machine) : Prop where
  size : m.scopes.size = h.size
  scope : ∀ i < h.size, ∃ bindings, m.scopes[i]? = some ⟨bindings, outer? i h⟩ ∧
    ∀ x, bindings.lookup x = newest? i x h

variable {h : History} {m : Machine}

theorem Tells.enclose (hm : h.Tells m) (hvalid : h.Valid) (outer : ScopeId) :
    Tells (.enclose outer :: h) (Change.apply m (.enclose outer)) := by
  refine ⟨?_, fun i hi => ?_⟩
  · rw [Change.apply, Machine.size_scopes_openScope, hm.size]
    rfl
  · rw [Change.apply, Machine.openScope, Array.getElem?_push, hm.size]
    by_cases hnew : i = h.size
    · refine ⟨[], ?_, fun x => ?_⟩
      · rw [if_pos hnew, outer?, if_pos hnew]
      · exact (newest?_eq_none hvalid (Nat.le_of_eq hnew.symm) x).symm
    · rw [if_neg hnew, outer?, if_neg hnew]
      exact hm.scope i (Nat.lt_of_le_of_ne (Nat.le_of_lt_succ hi) hnew)

theorem Tells.bind (hm : h.Tells m) (scope : ScopeId) (x : String) (v : Value) :
    Tells (.bind scope x v :: h) (Change.apply m (.bind scope x v)) := by
  refine ⟨?_, fun i hi => ?_⟩
  · rw [Change.apply, Machine.size_scopes_assign, hm.size]
    rfl
  · obtain ⟨bindings, hs, hb⟩ := hm.scope i hi
    rw [Change.apply, Machine.getElem?_scopes_assign, hs]
    by_cases hscope : scope = i
    · refine ⟨(x, v) :: bindings, by rw [if_pos hscope]; rfl, fun y => ?_⟩
      by_cases hy : y = x
      · simp [newest?, hscope, hy]
      · rw [List.lookup_cons, beq_false_of_ne hy, newest?, if_neg fun heq => hy heq.2.symm]
        exact hb y
    · refine ⟨bindings, by rw [if_neg hscope]; rfl, fun y => ?_⟩
      rw [newest?, if_neg fun heq => hscope heq.1, hb]

theorem tells_machine (hvalid : h.Valid) : h.Tells h.machine := by
  induction h with
  | nil =>
    refine ⟨rfl, fun i hi => ⟨[], ?_, fun x => rfl⟩⟩
    obtain rfl : i = 0 := Nat.lt_one_iff.mp hi
    rfl
  | cons c h ih =>
    cases c with
    | enclose outer => exact (ih hvalid.2).enclose hvalid.2 outer
    | bind scope x v => exact (ih hvalid.2).bind scope x v

/-- Lookup goes the way outward and stops where the name was bound. -/
theorem Tells.lookup_eq (hm : h.Tells m) (hvalid : h.Valid) {i : ScopeId} {is : List ScopeId}
    (hc : h.Chain i is) (hi : i < h.size) (x : String) :
    m.lookup i x = is.findSome? fun j => newest? j x h := by
  induction hc with
  | @outermost i ho =>
    obtain ⟨bindings, hs, hb⟩ := hm.scope i hi
    rw [Machine.lookup, hs]
    simp only [hb, ho, List.findSome?_cons, List.findSome?_nil]
    cases newest? i x h <;> rfl
  | @inner i o is ho _ ih =>
    obtain ⟨bindings, hs, hb⟩ := hm.scope i hi
    obtain ⟨hlt, -⟩ := outer?_lt hvalid ho
    rw [ho] at hs
    rw [List.findSome?_cons]
    cases hx : newest? i x h with
    | some v => exact Machine.lookup_of_bound hs ((hb x).trans hx)
    | none =>
      rw [Machine.lookup_of_unbound hs ((hb x).trans hx) rfl hlt]
      exact ih (Nat.lt_trans hlt hi)

/-- A binding does not move a scope. -/
theorem Chain.bind {i : ScopeId} {is : List ScopeId} (hc : h.Chain i is) (scope : ScopeId)
    (x : String) (v : Value) : Chain (.bind scope x v :: h) i is := by
  induction hc with
  | outermost ho => exact .outermost ho
  | inner ho _ ih => exact .inner ho ih

end History

open History

/-- After any changes to the scopes, a name is looked up from a scope on the way outward: it has the
value that it was last bound to in the nearest scope in which it was ever bound, and none if it was
bound in no scope on the way. So a new binding of a scope is seen from all scopes from which the way
leads there, old ones too, unless a nearer scope binds the name; from the others no name looks any
different. -/
theorem lookup_nearest {h : History} (hvalid : h.Valid) {i : ScopeId}
    (hi : i < h.machine.scopes.size) :
    ∃ chain, (∀ is, h.Chain i is ↔ is = chain) ∧
      (∀ x, h.machine.lookup i x = chain.findSome? fun j => newest? j x h) ∧
      (∀ near scope far, chain = near ++ scope :: far → ∀ x v,
        (∀ j ∈ near, newest? j x h = none) →
          (h.machine.assign scope x v).lookup i x = some v) ∧
      (∀ scope < h.machine.scopes.size, scope ∉ chain → ∀ x v y,
        (h.machine.assign scope x v).lookup i y = h.machine.lookup i y) := by
  have htells := tells_machine hvalid
  rw [htells.size] at hi ⊢
  obtain ⟨chain, hchain⟩ := exists_chain hvalid i
  have hthere : ∀ j ∈ chain, j < h.size := hchain.lt_size hvalid hi
  have hafter : ∀ scope < h.size, ∀ x v y, (h.machine.assign scope x v).lookup i y =
      chain.findSome? fun j => newest? j y (.bind scope x v :: h) := fun scope hscope x v y =>
    (htells.bind scope x v).lookup_eq ⟨hscope, hvalid⟩ (hchain.bind scope x v) hi y
  refine ⟨chain, fun is => ⟨hchain.unique, fun his => his ▸ hchain⟩,
    htells.lookup_eq hvalid hchain hi, ?_, ?_⟩
  · intro near scope far hsplit x v hnear
    have hscope : scope < h.size := hthere scope (by simp [hsplit])
    rw [hafter scope hscope, hsplit, List.findSome?_append, List.findSome?_cons]
    cases hfound : near.findSome? fun j => newest? j x (.bind scope x v :: h) with
    | none => simp [newest?]
    | some w =>
      -- The scope cannot be nearer as well, but there too the name would have this value.
      obtain ⟨j, hj, hw⟩ := List.exists_of_findSome?_eq_some hfound
      rw [newest?, hnear j hj] at hw
      split at hw
      · rw [Option.some_or, hw]
      · cases hw
  · intro scope hscope hout x v y
    have hsame : ∀ j ∈ chain, newest? j y (.bind scope x v :: h) = newest? j y h := by
      intro j hj
      have hne : scope ≠ j := fun heq => hout (heq ▸ hj)
      rw [newest?, if_neg fun heq => hne heq.1]
    have hfound (k : History) : chain.findSome? (fun j => newest? j y k) =
        (chain.map fun j => newest? j y k).findSome? id := by
      rw [List.findSome?_map, Function.id_comp]
    rw [hafter scope hscope, htells.lookup_eq hvalid hchain hi, hfound, hfound,
      List.map_congr_left hsame]

/-- Two scopes in the global one: `b` is bound in the global scope and in the first of them, and `late`
in the global scope when both were there. -/
theorem lookup_nearest_siblings : ∃ h : History, h.Valid ∧ 1 < h.machine.scopes.size ∧
    h.Chain 1 [1, 0] ∧ h.machine.lookup 1 "b" = some (.integer 2) ∧
    h.machine.lookup 1 "late" = some (.integer 7) ∧ h.machine.lookup 1 "c" = none ∧
    (h.machine.assign 0 "c" .null).lookup 1 "c" = some .null ∧
    ∀ v, (h.machine.assign 2 "b" v).lookup 1 "b" = some (.integer 2) := by
  let h : History := [.bind 0 "late" (.integer 7), .enclose 0, .bind 1 "b" (.integer 2), .enclose 0,
    .bind 0 "b" (.integer 1)]
  have hvalid : h.Valid := by decide
  have hsize : 1 < h.machine.scopes.size := by decide
  have hchain : h.Chain 1 [1, 0] := .inner rfl (.outermost rfl)
  obtain ⟨chain, hunique, hlookup, hseen, hunseen⟩ := lookup_nearest hvalid hsize
  obtain rfl := (hunique _).mp hchain
  have hb : h.machine.lookup 1 "b" = some (.integer 2) := hlookup "b"
  refine ⟨h, hvalid, hsize, hchain, hb, hlookup "late", hlookup "c", ?_, fun v => ?_⟩
  · exact hseen [1] 0 [] rfl "c" .null (List.forall_mem_singleton.mpr rfl)
  · exact (hunseen 2 (by decide) (by decide) "b" v "b").trans hb

end Monkey
