import Monkey.Proofs.Contents

/-!
What an evaluation in a scope can come across: the scopes that links and captured scopes lead to,
and the values bound there with all that they contain. A set of scopes that is closed under both,
and has in it every scope that is yet to be opened, confines every evaluation that starts in it.
-/

namespace Monkey

namespace Machine

/-- The scopes that can be reached from a scope through links to enclosing scopes and through the
functions that bound values contain. -/
inductive ReachableScope (m : Machine) (scope : ScopeId) : ScopeId → Prop
  | self : ReachableScope m scope scope
  | outer {i o : ScopeId} {s : Scope} (hi : ReachableScope m scope i)
      (hs : m.scopes[i]? = some s) (ho : s.outer = some o) : ReachableScope m scope o
  | captured {i : ScopeId} {s : Scope} {x : String} {v : Value} {id : Identity} {c : Closure}
      (hi : ReachableScope m scope i) (hs : m.scopes[i]? = some s)
      (hv : s.bindings.lookup x = some v) (hc : .function id c ∈ v.parts) :
      ReachableScope m scope c.scope

/-- A value that is bound, or part of a value that is bound, in a reachable scope. -/
def ReachableValue (m : Machine) (scope : ScopeId) (v : Value) : Prop :=
  ∃ i s x w, m.ReachableScope scope i ∧ m.scopes[i]? = some s ∧
    s.bindings.lookup x = some w ∧ v ∈ w.parts

end Machine

/-- A value with a property; if it is a function, then one that was made in these scopes. -/
def Value.Resident (S : ScopeId → Prop) (P : Value → Prop) (v : Value) : Prop :=
  P v ∧ ∀ id c, v = .function id c → S c.scope

theorem Value.Lenient.resident {P : Value → Prop} (hP : Lenient P) (S : ScopeId → Prop) :
    Lenient (Resident S P) where
  integer n := ⟨hP.integer n, nofun⟩
  string s := ⟨hP.string s, nofun⟩
  boolean b := ⟨hP.boolean b, nofun⟩
  null := ⟨hP.null, nofun⟩
  builtin b := ⟨hP.builtin b, nofun⟩
  array id vs := ⟨hP.array id vs, nofun⟩

theorem Value.resident_returned {S : ScopeId → Prop} {P : Value → Prop} {v : Value}
    (h : P (.returned v)) : (Value.returned v).Resident S P := ⟨h, nofun⟩

theorem Value.all_resident_function {S : ScopeId → Prop} {P : Value → Prop} {id : Identity}
    {c : Closure} (hP : P (.function id c)) (hS : S c.scope) :
    (Value.function id c).All (Resident S P) := by
  refine all_of_stored_eq_nil rfl ⟨hP, ?_⟩
  intro id' c' heq
  cases heq
  exact hS

theorem Value.all_resident_hash {S : ScopeId → Prop} {P : Value → Prop} {id : Identity}
    {h : Hash Value} (hP : P (.hash id h)) (hh : h.All (Resident S P)) :
    (Value.hash id h).All (Resident S P) := all_hash_iff.mpr ⟨⟨hP, nofun⟩, hh⟩

namespace Machine

/-- The scopes of this set lead to scopes of the set only, and the values that they bind are made of
values with this property; every scope that is not open yet is in the set. -/
structure Confined (S : ScopeId → Prop) (P : Value → Prop) (m : Machine) : Prop where
  fresh : ∀ i, m.scopes.size ≤ i → S i
  outer : ∀ {i s o}, S i → m.scopes[i]? = some s → s.outer = some o → S o
  bound : ∀ {i s x v}, S i → m.scopes[i]? = some s → s.bindings.lookup x = some v →
    v.All (Value.Resident S P)

/-- The scopes that are reachable from a scope or not open yet. -/
def Ahead (m : Machine) (scope i : ScopeId) : Prop :=
  m.ReachableScope scope i ∨ m.scopes.size ≤ i

variable {m m' : Machine} {S : ScopeId → Prop} {P : Value → Prop}

theorem Ahead.reachable {scope i : ScopeId} {s : Scope} (h : m.Ahead scope i)
    (hs : m.scopes[i]? = some s) : m.ReachableScope scope i := by
  rcases h with h | h
  · exact h
  · exact absurd (lt_size_of_getElem? hs) (Nat.not_lt.mpr h)

/-- What is reachable confines what can be done. -/
theorem confined_ahead {scope : ScopeId} (h : ∀ v, m.ReachableValue scope v → P v) :
    Confined (m.Ahead scope) P m where
  fresh i hi := .inr hi
  outer hi hs ho := .inl ((hi.reachable hs).outer hs ho)
  bound {i s x v} hi hs hv := by
    intro w hw
    refine ⟨h w ⟨i, s, x, v, hi.reachable hs, hs, hv, hw⟩, ?_⟩
    rintro id c rfl
    exact .inl ((hi.reachable hs).captured hs hv hw)

/-- Nothing is bound in the machine that a file or a session starts with. -/
theorem not_reachableValue_initial (scope : ScopeId) (v : Value) :
    ¬ initial.ReachableValue scope v := by
  rintro ⟨i, s, x, w, -, hs, hv, -⟩
  have hscopes : #[(⟨[], none⟩ : Scope)][i]? = some s := hs
  obtain ⟨hi, hs⟩ := Array.getElem?_eq_some_iff.mp hscopes
  obtain rfl : i = 0 := Nat.lt_one_iff.mp hi
  obtain rfl : ⟨[], none⟩ = s := hs
  cases hv

namespace Confined

theorem of_sameScopes (h : Confined S P m) (hm : SameScopes m m') : Confined S P m' := by
  have heq : m'.scopes = m.scopes := hm
  exact ⟨heq ▸ h.fresh, fun hi hs => h.outer hi (heq ▸ hs), fun hi hs => h.bound hi (heq ▸ hs)⟩

theorem of_done {α : Type} (h : Confined S P m) {x : Eval α} {a : α} (hx : x.Leads SameScopes)
    (hdone : x m = .done a m') : Confined S P m' :=
  h.of_sameScopes (hx (.of_done hdone))

theorem lookup (h : Confined S P m) {scope : ScopeId} {x : String} {v : Value} (hscope : S scope)
    (hv : m.lookup scope x = some v) : v.All (Value.Resident S P) := by
  induction scope using Nat.strongRecOn with
  | ind scope ih =>
    rw [Machine.lookup] at hv
    cases hs : m.scopes[scope]? with
    | none =>
      rw [hs] at hv
      cases hv
    | some s =>
      simp only [hs] at hv
      split at hv
      · next w hw => exact h.bound hscope hs (hw.trans hv)
      · cases hv
      · next outer _ ho =>
        split at hv
        · next hlt => exact ih outer hlt (h.outer hscope hs ho) hv
        · cases hv

theorem assign (h : Confined S P m) {v : Value} (hv : v.All (Value.Resident S P)) (scope : ScopeId)
    (x : String) : Confined S P (m.assign scope x v) := by
  refine ⟨?_, ?_, ?_⟩
  · intro i hi
    exact h.fresh i (by simpa using hi)
  · intro i s o hi hs ho
    rw [getElem?_scopes_assign] at hs
    split at hs
    · obtain ⟨s₀, hs₀, rfl⟩ := Option.map_eq_some_iff.mp hs
      exact h.outer hi hs₀ ho
    · exact h.outer hi hs ho
  · intro i s y w hi hs hw
    rw [getElem?_scopes_assign] at hs
    split at hs
    · obtain ⟨s₀, hs₀, rfl⟩ := Option.map_eq_some_iff.mp hs
      rw [List.lookup_cons] at hw
      split at hw
      · obtain rfl := Option.some.inj hw
        exact hv
      · exact h.bound hi hs₀ hw
    · exact h.bound hi hs hw

theorem openScope (h : Confined S P m) {outer : ScopeId} {bindings : List (String × Value)}
    (ho : S outer) (hb : ∀ b ∈ bindings, b.2.All (Value.Resident S P)) :
    Confined S P (m.openScope (some outer) bindings).2 := by
  refine ⟨?_, ?_, ?_⟩
  · intro i hi
    have hsize : m.scopes.size + 1 ≤ i := by simpa using hi
    exact h.fresh i (by omega)
  · intro i s o hi hs hso
    rw [Machine.openScope, Array.getElem?_push] at hs
    split at hs
    · obtain rfl := Option.some.inj hs
      obtain rfl := Option.some.inj hso
      exact ho
    · exact h.outer hi hs hso
  · intro i s x v hi hs hv
    rw [Machine.openScope, Array.getElem?_push] at hs
    split at hs
    · obtain rfl := Option.some.inj hs
      have hfound : bindings.lookup x = some v := hv
      obtain ⟨_, _, heq, -⟩ := List.lookup_eq_some_iff.mp hfound
      have hmem : (x, v) ∈ bindings := heq ▸ List.mem_append_cons_self
      exact hb (x, v) hmem
    · exact h.bound hi hs hv

theorem resolve (h : Confined S P m) (hP : Value.Lenient P) {scope : ScopeId} {x : Name}
    {v : Value} (hscope : S scope) (hdone : x.resolve scope m = .done v m') :
    v.All (Value.Resident S P) := by
  obtain ⟨found, m₁, hfound, hv⟩ := Eval.exists_of_bind_eq_done hdone
  cases found with
  | some w =>
    cases hv
    obtain ⟨hlookup, -⟩ := Outcome.done.inj hfound
    exact h.lookup hscope hlookup
  | none =>
    cases hb : Builtin.ofName? x.text with
    | some b =>
      simp only [hb] at hv
      cases hv
      exact (hP.resident S).all_builtin b
    | none =>
      simp only [hb] at hv
      cases hv

end Confined

end Machine

end Monkey
