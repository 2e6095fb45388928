import Monkey.Proofs.HiddenBinding
import Monkey.Proofs.ScopeFrame
import Monkey.Session

/-!
What binding a name amounts to that nothing mentions. A program runs as before, and the new binding
is still there at the end, just as the old one would have been: the two machines differ in what this
one name is bound to in this one scope.
-/

namespace Monkey

namespace Machine

/-- The machines agree, except perhaps on what one name is bound to in one scope. -/
structure AgreesBut (home : ScopeId) (x : String) (m m' : Machine) : Prop where
  printed : m.printed = m'.printed
  nextIdentity : m.nextIdentity = m'.nextIdentity
  size : m.scopes.size = m'.scopes.size
  outer : ∀ i : ScopeId, m.scopes[i]?.map Scope.outer = m'.scopes[i]?.map Scope.outer
  bound : ∀ (i : ScopeId) (y : String), (i = home → y ≠ x) → m.bound? i y = m'.bound? i y

variable {m m' : Machine} {home scope : ScopeId} {x : String}

theorem bound?_without (m : Machine) {i : ScopeId} {y : String} (h : i = home → y ≠ x) :
    (m.without home x).bound? i y = m.bound? i y := by
  rw [bound?, bound?, getElem?_scopes_without]
  split
  · next hi =>
    cases m.scopes[i]? with
    | none => rfl
    | some s =>
      simp only [Option.map_some, Option.bind_some]
      rw [Scope.lookup_without, if_neg (h hi.symm)]
  · rfl

theorem outer_without (m : Machine) (i : ScopeId) :
    (m.without home x).scopes[i]?.map Scope.outer = m.scopes[i]?.map Scope.outer := by
  rw [getElem?_scopes_without]
  split
  · rw [Option.map_map]
    rfl
  · rfl

/-- Machines that are the same without a binding agree on everything else. -/
theorem AgreesBut.of_without_eq (h : m.without home x = m'.without home x) :
    AgreesBut home x m m' where
  printed := show (m.without home x).printed = (m'.without home x).printed by rw [h]
  nextIdentity := show (m.without home x).nextIdentity = (m'.without home x).nextIdentity by rw [h]
  size := by
    rw [← m.size_scopes_without, h, size_scopes_without]
  outer i := by
    rw [← m.outer_without, h, outer_without]
  bound i y hy := by
    rw [← m.bound?_without hy, h, bound?_without m' hy]

theorem ReachableScope.of_without {i : ScopeId}
    (h : (m.without home x).ReachableScope scope i) : m.ReachableScope scope i := by
  induction h with
  | self => exact .self
  | outer _ hs ho ih =>
    obtain ⟨s₀, hs₀, houter, -⟩ := exists_of_getElem?_without hs
    exact ih.outer hs₀ (houter ▸ ho)
  | captured _ hs hv hc ih =>
    obtain ⟨s₀, hs₀, -, hbound⟩ := exists_of_getElem?_without hs
    exact ih.captured hs₀ (hbound hv) hc

theorem ReachableValue.of_without {w : Value} (h : (m.without home x).ReachableValue scope w) :
    m.ReachableValue scope w := by
  obtain ⟨i, s, y, u, hi, hs, hu, hw⟩ := h
  obtain ⟨s₀, hs₀, -, hbound⟩ := exists_of_getElem?_without hs
  exact ⟨i, s₀, y, u, hi.of_without, hs₀, hbound hu, hw⟩

/-- Where no reachable function mentions the name, the scopes ahead are oblivious of its binding. -/
theorem oblivious_ahead
    (h : ∀ id c, m.ReachableValue scope (.function id c) → x ∉ c.names) :
    m.Oblivious home x ((m.without home x).Ahead scope) := by
  refine confined_ahead fun w hw => ?_
  cases w with
  | function id c => exact h id c hw.of_without
  | _ => trivial

end Machine

open Machine

theorem Program.eval_binds (depth : Nat) (scope : ScopeId) (p : Program) :
    (p.eval depth scope).Binds scope (Stmt.allOwnStatements p.statements) :=
  ((Expr.eval_framed depth).statements scope .null p.statements).bind fun _ => Eval.binds_pure _

/-- What a name is bound to in the scope of a program that does not mention it stays so. -/
theorem Program.bound?_of_endsIn {p : Program} {depth : Nat} {scope : ScopeId} {x : String}
    {m m' : Machine} (hscope : scope < m.scopes.size) (hx : x ∉ p.names)
    (h : (p.eval depth scope m).EndsIn m') : m'.bound? scope x = m.bound? scope x :=
  (p.eval_binds depth scope h).bound?_eq hscope fun hbound =>
    hx (Stmt.boundNames_subset_all p.statements hbound)

/-- A binding that neither the program nor any reachable function mentions makes no difference to a
run in its scope: the run ends with or without it, the result and the lines printed are the same,
and so are the machines but for this binding, which is left as it was. -/
theorem unmentioned_binding (depth : Nat) (p : Program) (m : Machine) (scope : ScopeId)
    (x : String) (v : Value) (hscope : scope < m.scopes.size) (hx : x ∉ p.names)
    (hreachable : ∀ id c, m.ReachableValue scope (.function id c) → x ∉ c.names) :
    Option.Rel (fun r r' => r.1 = r'.1 ∧ r.2.AgreesBut scope x r'.2 ∧
        r.2.bound? scope x = m.bound? scope x ∧ r'.2.bound? scope x = some v)
      (p.run depth scope m) (p.run depth scope (m.assign scope x v)) := by
  have hignores : (p.eval depth scope).Ignores scope x ((m.without scope x).Ahead scope) _ :=
    p.eval_ignores depth (.inl .self) hx
  have hm : m.Oblivious scope x ((m.without scope x).Ahead scope) := oblivious_ahead hreachable
  have hm' : (m.assign scope x v).Oblivious scope x ((m.without scope x).Ahead scope) := by
    rw [Oblivious, without_assign_self]
    exact hm
  have hhides := hignores m hm
  have hhides' := hignores _ hm'
  rw [without_assign_self] at hhides'
  have hkept : ∀ {m₁}, (p.eval depth scope m).EndsIn m₁ →
      m₁.bound? scope x = m.bound? scope x := Program.bound?_of_endsIn hscope hx
  have hkept' : ∀ {m₁}, (p.eval depth scope (m.assign scope x v)).EndsIn m₁ →
      m₁.bound? scope x = some v := by
    intro m₁ hends
    rw [Program.bound?_of_endsIn (by simpa using hscope) hx hends, bound?_assign_self m hscope]
  unfold Program.run
  generalize p.eval depth scope m = o at *
  generalize p.eval depth scope (m.assign scope x v) = o' at *
  generalize p.eval depth scope (m.without scope x) = hidden at *
  cases hhides with
  | @done a m₁ =>
    generalize hw : m₁.without scope x = w at hhides'
    cases hhides' with
    | @done _ m₂ =>
      exact .some ⟨rfl, .of_without_eq hw, hkept (.done a m₁), hkept' (.done a m₂)⟩
  | failed f m₁ =>
    generalize hw : m₁.without scope x = w at hhides'
    cases hhides' with
    | failed _ m₂ =>
      exact .some ⟨rfl, .of_without_eq hw, hkept (.failed f m₁), hkept' (.failed f m₂)⟩
  | unfinished =>
    cases hhides' with
    | unfinished => exact .none

/-- The program `f(1)` where `f` is bound to `fn(y) { y }`, without and with a binding of `x`. -/
theorem unmentioned_binding_call : ∃ (p : Program) (m : Machine) (r r' : Value × Machine),
    p.run 4 0 m = some r ∧ p.run 4 0 (m.assign 0 "x" (.boolean true)) = some r' ∧
    r.1.inspect = "1" ∧ r.1 = r'.1 ∧ r.2.AgreesBut 0 "x" r'.2 ∧ r.2.bound? 0 "x" = none ∧
    r'.2.bound? 0 "x" = some (.boolean true) := by
  let t := Token.endOfInput 0
  let name (y : String) : Name := ⟨⟨.ident, y, Span.empty 0⟩⟩
  let f : Value := .function 0 ⟨[name "y"], .mk t [.expr t (.name (name "y"))], 0⟩
  let p : Program := ⟨[.expr t (.call t (.name (name "f")) [.integer t 1])]⟩
  let m : Machine := ⟨#[⟨[("f", f)], none⟩], #[], 1⟩
  have hreachable : ∀ id c, m.ReachableValue 0 (.function id c) → "x" ∉ c.names := by
    rintro id c ⟨i, s, y, w, -, hs, hw, hc⟩
    have hscopes : #[(⟨[("f", f)], none⟩ : Scope)][i]? = some s := hs
    obtain rfl : s = ⟨[("f", f)], none⟩ :=
      List.mem_singleton.mp (Array.mem_toList_iff.mpr (Array.mem_of_getElem? hscopes))
    have hbound : [("f", f)].lookup y = some w := hw
    obtain ⟨l, l', heq, -⟩ := List.lookup_eq_some_iff.mp hbound
    have hmem : (y, w) ∈ [("f", f)] := heq ▸ List.mem_append_cons_self
    obtain ⟨-, rfl⟩ := Prod.mk.inj (List.mem_singleton.mp hmem)
    have hself : Value.function id c = f := List.mem_singleton.mp hc
    obtain ⟨-, rfl⟩ := Value.function.inj hself
    decide
  have h := unmentioned_binding 4 p m 0 "x" (.boolean true) Nat.one_pos (by decide) hreachable
  have hone : (p.run 4 0 m).map (·.1.inspect) = some "1" := by
    simp only [p, m, f, name, t]
    decide +kernel
  generalize hr : p.run 4 0 m = o at h hone
  generalize hr' : p.run 4 0 (m.assign 0 "x" (.boolean true)) = o' at h
  cases h with
  | none => cases hone
  | @some r r' h =>
    obtain ⟨hresult, hagrees, hold, hnew⟩ := h
    exact ⟨p, m, r, r', hr, hr', Option.some.inj hone, hresult, hagrees, hold, hnew⟩

end Monkey
