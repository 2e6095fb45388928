import Monkey.Proofs.Activity
import Monkey.Proofs.Reachability

/-!
Where a value is wrapped twice. If no `return` that is carried out is given a value that is already
on its way out, then no value comes to be wrapped twice: not by being bound, passed or stored, not
by being handed through the blocks of conditionals, and not by leaving a call, which takes one
wrapper off.
-/

namespace Monkey

/-- A value that is not wrapped twice as it stands. -/
def Value.Single : Value → Prop
  | .returned (.returned _) => False
  | _ => True

open Machine Value Evaluator Eval

theorem Value.lenient_single : Lenient Single where
  integer _ := trivial
  string _ := trivial
  boolean _ := trivial
  null := trivial
  builtin _ := trivial
  array _ _ := trivial

/-- Nothing in a value is wrapped twice, and its functions were made in these scopes. -/
def Value.Flat (S : ScopeId → Prop) (v : Value) : Prop := v.All (Resident S Single)

namespace Value

variable {S : ScopeId → Prop} {v : Value}

theorem Flat.unwrap (h : v.Flat S) : v.unwrap.Flat S := by
  cases v with
  | returned w =>
    intro u hu
    exact h u (List.mem_cons_of_mem _ hu)
  | _ => exact h

theorem Flat.returned (h : v.Flat S) (hv : ∀ w, v ≠ .returned w) : (Value.returned v).Flat S := by
  intro u hu
  rcases List.mem_cons.mp hu with rfl | hu
  · refine ⟨?_, nofun⟩
    cases v with
    | returned w => exact absurd rfl (hv w)
    | _ => trivial
  · exact h u hu

end Value

namespace Activity

/-- No `return` carried out within the activity is given a value that is on its way out. -/
def Unnested (a : Activity) : Prop := ∀ b, a.Within b → ∀ w, b.action ≠ .wrap (.returned w)

theorem Unnested.part {a b : Activity} (h : a.Unnested) (hb : Part a b) : b.Unnested :=
  fun c hc => h c (hc.of_part hb)

variable {S : ScopeId → Prop} {d : Nat} {scope : ScopeId} {m m' : Machine}

/-- Unnested evaluations of expressions give values that are nowhere wrapped twice. -/
def KeepsFlat (S : ScopeId → Prop) (d : Nat) : Prop :=
  ∀ ⦃scope m m' e v⦄, S scope → Confined S Single m → Unnested ⟨d, .expression scope e, m⟩ →
    e.eval d scope m = .done v m' → v.Flat S ∧ Confined S Single m'

namespace KeepsFlat

variable (h : KeepsFlat S d) (hscope : S scope)

include h hscope

theorem expressions {es : List Expr} {vs : List Value} (hm : Confined S Single m)
    (hflat : Unnested ⟨d, .expressions scope es, m⟩)
    (hdone : Evaluator.expressions (Expr.eval d) scope es m = .done vs m') :
    (∀ v ∈ vs, v.Flat S) ∧ Confined S Single m' := by
  induction es generalizing m m' vs with
  | nil =>
    cases hdone
    exact ⟨nofun, hm⟩
  | cons e es ih =>
    obtain ⟨v, m₁, he, hrest⟩ := exists_of_bind_eq_done hdone
    obtain ⟨vs, m₂, hes, hpure⟩ := exists_of_bind_eq_done hrest
    obtain ⟨hv, hm₁⟩ := h hscope hm (hflat.part .first) he
    obtain ⟨hvs, hm₂⟩ := ih hm₁ (hflat.part (.others he)) hes
    cases hpure
    exact ⟨List.forall_mem_cons.mpr ⟨hv, hvs⟩, hm₂⟩

theorem pairs {ps : List (Expr × Expr)} {content content' : Hash Value}
    (hcontent : content.All (Resident S Single)) (hm : Confined S Single m)
    (hflat : Unnested ⟨d, .pairs scope content ps, m⟩)
    (hdone : Evaluator.pairs (Expr.eval d) scope content ps m = .done content' m') :
    content'.All (Resident S Single) ∧ Confined S Single m' := by
  induction ps generalizing m content with
  | nil =>
    cases hdone
    exact ⟨hcontent, hm⟩
  | cons p ps ih =>
    obtain ⟨key, value⟩ := p
    obtain ⟨k, m₁, hkey, hrest⟩ := exists_of_bind_eq_done hdone
    obtain ⟨hk, hm₁⟩ := h hscope hm (hflat.part .key) hkey
    cases hfiled : k.key? with
    | none =>
      simp only [hfiled] at hrest
      cases hrest
    | some filed =>
      simp only [hfiled] at hrest
      obtain ⟨v, m₂, hvalue, hps⟩ := exists_of_bind_eq_done hrest
      obtain ⟨hv, hm₂⟩ := h hscope hm₁ (hflat.part (.value hkey hfiled)) hvalue
      exact ih (hcontent.insert hk hv) hm₂ (hflat.part (.otherPairs hkey hfiled hvalue)) hps

theorem statement {s : Stmt} {v : Value} (hm : Confined S Single m)
    (hflat : Unnested ⟨d, .statement scope s, m⟩)
    (hdone : Evaluator.statement (Expr.eval d) scope s m = .done v m') :
    v.Flat S ∧ Confined S Single m' := by
  cases s with
  | bind t x e =>
    obtain ⟨u, m₁, he, hassign⟩ := exists_of_bind_eq_done hdone
    obtain ⟨hu, hm₁⟩ := h hscope hm (hflat.part .bound) he
    cases hassign
    exact ⟨hu, hm₁.assign hu scope x.text⟩
  | «return» t e =>
    obtain ⟨u, m₁, he, hwrap⟩ := exists_of_bind_eq_done hdone
    obtain ⟨hu, hm₁⟩ := h hscope hm (hflat.part .returned) he
    cases hwrap
    refine ⟨hu.returned fun w heq => ?_, hm₁⟩
    exact hflat.part (.wrap he) _ .self w (by rw [heq])
  | expr t e => exact h hscope hm (hflat.part .expression) hdone

theorem statements {ss : List Stmt} {last v : Value} (hlast : last.Flat S)
    (hm : Confined S Single m) (hflat : Unnested ⟨d, .statements scope last ss, m⟩)
    (hdone : Evaluator.statements (Expr.eval d) scope last ss m = .done v m') :
    v.Flat S ∧ Confined S Single m' := by
  induction ss generalizing m last with
  | nil =>
    cases hdone
    exact ⟨hlast, hm⟩
  | cons s ss ih =>
    obtain ⟨u, m₁, hs, hrest⟩ := exists_of_statements_cons hdone
    obtain ⟨hu, hm₁⟩ := h.statement hscope hm (hflat.part .statement) hs
    rcases hrest with ⟨w, rfl, rfl, rfl⟩ | ⟨hne, hss⟩
    · exact ⟨hu, hm₁⟩
    · exact ih hu hm₁ (hflat.part (.statements hs hne)) hss

omit hscope in
theorem apply {callee v : Value} {args : List Value} (hcallee : callee.Flat S)
    (hargs : ∀ w ∈ args, w.Flat S) (hm : Confined S Single m)
    (hflat : Unnested ⟨d, .call callee args, m⟩)
    (hdone : Evaluator.apply (Expr.eval d) callee args m = .done v m') :
    v.Flat S ∧ Confined S Single m' := by
  cases callee with
  | function id c =>
    obtain ⟨i, m₁, hopen, hrest⟩ := exists_of_bind_eq_done hdone
    cases hopen
    obtain ⟨u, m₂, hbody, hunwrap⟩ := exists_of_bind_eq_done hrest
    have hnew : S m.scopes.size := hm.fresh _ (Nat.le_refl _)
    have hmade : S c.scope := hcallee.self.2 id c rfl
    have hnull : Value.null.Flat S := (lenient_single.resident S).all_null
    obtain ⟨hu, hm₂⟩ := h.statements hnew hnull (hm.openScope hmade (all_of_mem_zip hargs))
      (hflat.part .body) hbody
    cases hunwrap
    exact ⟨hu.unwrap, hm₂⟩
  | builtin b =>
    have hv := Builtin.all_of_call (lenient_single.resident S) hargs hdone
    exact ⟨hv, hm.of_done (b.call_sameScopes args) hdone⟩
  | _ => cases hdone

end KeepsFlat

theorem KeepsFlat.succ (h : KeepsFlat S d) : KeepsFlat S (d + 1) := by
  intro scope m m' e v hscope hm hflat hdone
  have hlenient : Lenient (Resident S Single) := lenient_single.resident S
  cases e with
  | name x =>
    exact ⟨hm.resolve lenient_single hscope hdone, hm.of_done (x.resolve_sameScopes scope) hdone⟩
  | integer t n =>
    cases hdone
    exact ⟨hlenient.all_integer n, hm⟩
  | string t =>
    cases hdone
    exact ⟨hlenient.all_string _, hm⟩
  | boolean t b =>
    cases hdone
    exact ⟨hlenient.all_boolean b, hm⟩
  | function t parameters body =>
    cases hdone
    exact ⟨all_resident_function trivial hscope, hm.of_sameScopes rfl⟩
  | array t elements =>
    obtain ⟨vs, m₁, hvs, hnew⟩ := exists_of_bind_eq_done hdone
    obtain ⟨hall, hm₁⟩ := h.expressions hscope hm (hflat.part .elements) hvs
    cases hnew
    exact ⟨hlenient.all_array hall, hm₁.of_sameScopes rfl⟩
  | hash t ps =>
    obtain ⟨content, m₁, hcontent, hnew⟩ := exists_of_bind_eq_done hdone
    obtain ⟨hall, hm₁⟩ := h.pairs hscope Hash.all_empty hm (hflat.part .pairs) hcontent
    cases hnew
    exact ⟨all_resident_hash trivial hall, hm₁.of_sameScopes rfl⟩
  | unary t op operand =>
    obtain ⟨u, m₁, hu, hop⟩ := exists_of_bind_eq_done hdone
    obtain ⟨-, hm₁⟩ := h hscope hm (hflat.part .operand) hu
    obtain ⟨hv, rfl⟩ := eq_ok_of_ofExcept_eq_done hop
    exact ⟨UnaryOp.all_of_apply hlenient.plain hv, hm₁⟩
  | binary t op left right =>
    obtain ⟨u, m₁, hu, hrest⟩ := exists_of_bind_eq_done hdone
    obtain ⟨w, m₂, hw, hop⟩ := exists_of_bind_eq_done hrest
    obtain ⟨-, hm₁⟩ := h hscope hm (hflat.part .left) hu
    obtain ⟨-, hm₂⟩ := h hscope hm₁ (hflat.part (.right hu)) hw
    obtain ⟨hv, rfl⟩ := eq_ok_of_ofExcept_eq_done hop
    exact ⟨BinaryOp.all_of_apply hlenient.plain hv, hm₂⟩
  | cond t condition consequence alternative =>
    rw [Expr.eval_succ, layer_cond] at hdone
    obtain ⟨u, m₁, hu, hbranch⟩ := exists_of_bind_eq_done hdone
    obtain ⟨-, hm₁⟩ := h hscope hm (hflat.part .condition) hu
    cases htruth : u.isTruthy with
    | true =>
      rw [if_pos htruth] at hbranch
      exact h.statements hscope hlenient.all_null hm₁ (hflat.part (.consequence hu htruth)) hbranch
    | false =>
      rw [if_neg (by simp [htruth])] at hbranch
      cases alternative with
      | none =>
        cases hbranch
        exact ⟨hlenient.all_null, hm₁⟩
      | some a =>
        exact h.statements hscope hlenient.all_null hm₁ (hflat.part (.alternative hu htruth))
          hbranch
  | call t callee arguments =>
    obtain ⟨f, m₁, hf, hrest⟩ := exists_of_bind_eq_done hdone
    obtain ⟨vs, m₂, hvs, happly⟩ := exists_of_bind_eq_done hrest
    obtain ⟨hcallee, hm₁⟩ := h hscope hm (hflat.part .callee) hf
    obtain ⟨hargs, hm₂⟩ := h.expressions hscope hm₁ (hflat.part (.arguments hf)) hvs
    exact h.apply hcallee hargs hm₂ (hflat.part (.call hf hvs)) happly
  | index t collection position =>
    obtain ⟨u, m₁, hu, hrest⟩ := exists_of_bind_eq_done hdone
    obtain ⟨w, m₂, hw, hop⟩ := exists_of_bind_eq_done hrest
    obtain ⟨hcollection, hm₁⟩ := h hscope hm (hflat.part .collection) hu
    obtain ⟨-, hm₂⟩ := h hscope hm₁ (hflat.part (.position hu)) hw
    obtain ⟨hv, rfl⟩ := eq_ok_of_ofExcept_eq_done hop
    exact ⟨Value.all_of_index hlenient.plain hcollection hv, hm₂⟩

theorem keepsFlat (S : ScopeId → Prop) (d : Nat) : KeepsFlat S d := by
  induction d with
  | zero =>
    intro scope m m' e v _ _ _ hdone
    cases hdone
  | succ d ih => exact ih.succ

end Activity

/-- If what the statements of a program give is wrapped twice, while nothing reachable at its start
was, then a `return` within its run was given a value on its way out. -/
theorem Program.exists_nested_return {d : Nat} {scope : ScopeId} {p : Program} {m m' : Machine}
    {w : Value} (hreachable : ∀ v, m.ReachableValue scope v → v.Single)
    (h : Evaluator.statements (Expr.eval d) scope .null p.statements m =
      .done (.returned (.returned w)) m') :
    ∃ a, (Activity.ofProgram d scope p m).Within a ∧ ∃ u, a.action = .wrap (.returned u) := by
  refine Classical.byContradiction fun hnone => ?_
  have hflat : (Activity.ofProgram d scope p m).Unnested :=
    fun a ha u heq => hnone ⟨a, ha, u, heq⟩
  have hm : Confined (m.Ahead scope) Single m := confined_ahead hreachable
  have hnull : Value.null.Flat (m.Ahead scope) := (lenient_single.resident _).all_null
  obtain ⟨hv, -⟩ := (Activity.keepsFlat _ d).statements (.inl .self) hnull hm hflat h
  exact hv.self.1

end Monkey
