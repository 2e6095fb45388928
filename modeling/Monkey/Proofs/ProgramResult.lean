import Monkey.Proofs.DisciplinedRun
import Monkey.Proofs.NestedReturn
import Monkey.Session

/-!
When the result of a program is a value on its way out of a call. The program unwraps what it is
left with once, so its result is still wrapped exactly if it is left with a value that had been
wrapped before: by a `return` inside the operand of another, with nothing but blocks in between, or
by one whose value was kept in some other place.
-/

namespace Monkey

mutual

/-- Statements, begun in a machine, are left with a value in another machine. -/
inductive Leaves : Nat → ScopeId → List Stmt → Machine → Value → Machine → Prop
  | return {d : Nat} {scope : ScopeId} {t : Token} {e : Expr} {ss : List Stmt} {m m' : Machine}
      {v : Value} (h : e.eval d scope m = .done v m') : Leaves d scope (.return t e :: ss) m v m'
  | expr {d : Nat} {scope : ScopeId} {t : Token} {e : Expr} {ss : List Stmt} {m m' : Machine}
      {v : Value} (h : Exits d scope e m v m') : Leaves d scope (.expr t e :: ss) m v m'
  | bind {d : Nat} {scope : ScopeId} {t : Token} {x : Name} {e : Expr} {ss : List Stmt}
      {m m' : Machine} {v : Value} (h : Exits d scope e m v m') :
      Leaves d scope (.bind t x e :: ss) m v (m'.assign scope x.text (.returned v))
  | next {d : Nat} {scope : ScopeId} {s : Stmt} {ss : List Stmt} {m m₁ m' : Machine} {u v : Value}
      (h : Evaluator.statement (Expr.eval d) scope s m = .done u m₁) (hu : ∀ w, u ≠ .returned w)
      (hss : Leaves d scope ss m₁ v m') : Leaves d scope (s :: ss) m v m'

/-- An expression hands over a value on its way out: a conditional if its block is left with it, any
other expression if it has it, wrapped, for its value. -/
inductive Exits : Nat → ScopeId → Expr → Machine → Value → Machine → Prop
  | consequence {d : Nat} {scope : ScopeId} {t : Token} {e : Expr} {b : Block}
      {alternative : Option Block} {m m₁ m' : Machine} {u v : Value}
      (h : e.eval d scope m = .done u m₁) (hu : u.isTruthy = true)
      (hb : Leaves d scope b.statements m₁ v m') :
      Exits (d + 1) scope (.cond t e b alternative) m v m'
  | alternative {d : Nat} {scope : ScopeId} {t : Token} {e : Expr} {b a : Block}
      {m m₁ m' : Machine} {u v : Value} (h : e.eval d scope m = .done u m₁)
      (hu : u.isTruthy = false) (ha : Leaves d scope a.statements m₁ v m') :
      Exits (d + 1) scope (.cond t e b (some a)) m v m'
  | kept {d : Nat} {scope : ScopeId} {e : Expr} {m m' : Machine} {v : Value}
      (he : ∀ t c b a, e ≠ .cond t c b a) (h : e.eval d scope m = .done (.returned v) m') :
      Exits d scope e m v m'

end

open Machine Value Evaluator Eval

mutual

theorem Leaves.statements_eq {d : Nat} {scope : ScopeId} {ss : List Stmt} {m m' : Machine}
    {v : Value} (last : Value) : Leaves d scope ss m v m' →
      statements (Expr.eval d) scope last ss m = .done (.returned v) m'
  | .return h => by
    refine statements_cons_of_returned ?_
    rw [statement, bind_of_done h]
    rfl
  | .expr h => statements_cons_of_returned h.eval_eq
  | .bind h => by
    refine statements_cons_of_returned ?_
    rw [statement, bind_of_done h.eval_eq]
    rfl
  | .next (u := u) h hu hss => (statements_cons_of_ne h hu).trans (hss.statements_eq u)

theorem Exits.eval_eq {d : Nat} {scope : ScopeId} {e : Expr} {m m' : Machine} {v : Value} :
    Exits d scope e m v m' → e.eval d scope m = .done (.returned v) m'
  | .consequence h hu hb => by
    rw [Expr.eval_succ, layer_cond, bind_of_done h, if_pos hu]
    exact hb.statements_eq .null
  | .alternative h hu ha => by
    rw [Expr.eval_succ, layer_cond, bind_of_done h, if_neg (by simp [hu])]
    exact ha.statements_eq .null
  | .kept _ h => h

end

/-- Statements whose expressions hand over what they are left with are left with it themselves. -/
theorem leaves_of_statements {d : Nat} {scope : ScopeId} {ss : List Stmt} {m m' : Machine}
    {v last : Value}
    (hexits : ∀ {e m m' v}, e.eval d scope m = .done (.returned v) m' → Exits d scope e m v m')
    (hlast : ∀ w, last ≠ .returned w)
    (h : statements (Expr.eval d) scope last ss m = .done (.returned v) m') :
    Leaves d scope ss m v m' := by
  induction ss generalizing last m with
  | nil =>
    obtain ⟨hv, -⟩ := Outcome.done.inj h
    exact absurd hv (hlast v)
  | cons s ss ih =>
    obtain ⟨u, m₁, hs, ⟨w, rfl, hw, rfl⟩ | ⟨hu, hss⟩⟩ := exists_of_statements_cons h
    · obtain rfl := Value.returned.inj hw
      cases s with
      | bind t x e =>
        obtain ⟨r, m₁, he, hassign⟩ := exists_of_bind_eq_done hs
        cases hassign
        exact .bind (hexits he)
      | «return» t e =>
        obtain ⟨r, m₁, he, hreturn⟩ := exists_of_bind_eq_done hs
        cases hreturn
        exact .return he
      | expr t e => exact .expr (hexits hs)
    · exact .next hs hu (ih hu hss)

theorem exits_of_eval {d : Nat} {scope : ScopeId} {e : Expr} {m m' : Machine} {v : Value}
    (h : e.eval d scope m = .done (.returned v) m') : Exits d scope e m v m' := by
  induction d generalizing scope e m m' v with
  | zero => cases h
  | succ d ih =>
    cases e with
    | cond t condition consequence alternative =>
      rw [Expr.eval_succ, layer_cond] at h
      obtain ⟨u, m₁, hu, hbranch⟩ := exists_of_bind_eq_done h
      have hnull : ∀ w, Value.null ≠ .returned w := nofun
      cases htruth : u.isTruthy with
      | true =>
        rw [if_pos htruth] at hbranch
        exact .consequence hu htruth (leaves_of_statements ih hnull hbranch)
      | false =>
        rw [if_neg (by simp [htruth])] at hbranch
        cases alternative with
        | none => cases hbranch
        | some a => exact .alternative hu htruth (leaves_of_statements ih hnull hbranch)
    | _ =>
      refine .kept (fun _ _ _ _ heq => ?_) h
      cases heq

/-- Running statements gives a value on its way out exactly if they are left with it. -/
theorem statements_eq_returned_iff {d : Nat} {scope : ScopeId} {ss : List Stmt} {m m' : Machine}
    {v : Value} : statements (Expr.eval d) scope .null ss m = .done (.returned v) m' ↔
      Leaves d scope ss m v m' :=
  ⟨leaves_of_statements exits_of_eval nofun, fun h => h.statements_eq .null⟩

theorem Program.eval_eq_returned_iff {d : Nat} {scope : ScopeId} {p : Program} {m m' : Machine}
    {v : Value} : p.eval d scope m = .done (.returned v) m' ↔
      Leaves d scope p.statements m (.returned v) m' := by
  rw [← statements_eq_returned_iff]
  constructor
  · intro h
    obtain ⟨u, m₁, hu, hunwrap⟩ := exists_of_bind_eq_done h
    cases u with
    | returned w =>
      cases hunwrap
      exact hu
    | _ => cases hunwrap
  · intro h
    rw [Program.eval, bind_of_done h]
    rfl

theorem Program.run_eq_returned_iff {d : Nat} {scope : ScopeId} {p : Program} {m m' : Machine}
    {v : Value} : p.run d scope m = some (.returned v, m') ↔
      Leaves d scope p.statements m (.returned v) m' := by
  rw [← Program.eval_eq_returned_iff, Program.run]
  cases p.eval d scope m <;> simp

/-- The result of a text that is read as a program is that of the program. -/
theorem exists_run_iff {d : Nat} {scope : ScopeId} {source : String} {p : Program} {m : Machine}
    {v : Value} (hparse : Program.parse source = .ok p) :
    (∃ r m', run d scope source m = some (r, m') ∧ r.result = .ok v) ↔
      ∃ m', p.run d scope m = some (v, m') := by
  rw [run, hparse]
  constructor
  · rintro ⟨r, m', hrun, hr⟩
    obtain ⟨⟨u, m₁⟩, hp, heq⟩ := Option.map_eq_some_iff.mp hrun
    cases heq
    obtain rfl := Except.ok.inj hr
    exact ⟨m₁, hp⟩
  · rintro ⟨m', hp⟩
    refine ⟨⟨m'.takePrinted.1, .ok v⟩, m'.takePrinted.2, ?_, rfl⟩
    simp only [hp]
    rfl

theorem exists_parse_of_run {d : Nat} {scope : ScopeId} {source : String} {m m' : Machine}
    {r : Reply} {v : Value} (hrun : run d scope source m = some (r, m')) (hr : r.result = .ok v) :
    ∃ p, Program.parse source = .ok p := by
  rw [run] at hrun
  split at hrun
  · cases hrun
    cases hr
  · next p hp => exact ⟨p, hp⟩

/-- The result of a disciplined program where everything reachable is disciplined is settled. -/
theorem Program.kind_ne_returned_of_disciplined {d : Nat} {scope : ScopeId} {p : Program}
    {m m' : Machine} {v : Value} (hp : p.disciplined = true)
    (hreachable : ∀ v, m.ReachableValue scope v → v.Disciplined)
    (h : p.run d scope m = some (v, m')) : v.kind ≠ .returned := by
  have htracks := tracks_program (S := m.Ahead scope) d (.inl .self) hp
  rw [Program.run] at h
  split at h
  · next w m₁ hdone =>
    cases h
    exact (htracks.result (confined_ahead hreachable) hdone).1.settled.self
  · cases h
    exact nofun
  · cases h

/-- Where nothing reachable is on its way out of a call, the result of a program, or of the text that
is read as it, is on its way out exactly if the program is left with such a value; then a `return`
was given one in the course of the run. A disciplined program never has such a result. -/
theorem result_returned_iff_leaves (d : Nat) (scope : ScopeId) (m : Machine) (source : String)
    (p : Program) (hparse : Program.parse source = .ok p)
    (hreachable : ∀ v, m.ReachableValue scope v → v.kind ≠ .returned) :
    (∀ w m', p.run d scope m = some (.returned w, m') ↔
      Leaves d scope p.statements m (.returned w) m') ∧
    (∀ w, (∃ r m', run d scope source m = some (r, m') ∧ r.result = .ok (.returned w)) ↔
      ∃ m', Leaves d scope p.statements m (.returned w) m') ∧
    (∀ w m', Leaves d scope p.statements m (.returned w) m' →
      ∃ a, (Activity.ofProgram d scope p m).Within a ∧ ∃ u, a.action = .wrap (.returned u)) ∧
    (p.disciplined = true → (∀ v, m.ReachableValue scope v → v.Disciplined) →
      ∀ v m', p.run d scope m = some (v, m') → v.kind ≠ .returned) := by
  refine ⟨fun w m' => Program.run_eq_returned_iff, ?_, ?_, ?_⟩
  · intro w
    rw [exists_run_iff hparse]
    exact exists_congr fun m' => Program.run_eq_returned_iff
  · intro w m' hleaves
    refine Program.exists_nested_return ?_ (hleaves.statements_eq .null)
    intro v hv
    have hkind := hreachable v hv
    cases v with
    | returned u => exact absurd rfl hkind
    | _ => trivial
  · intro hp hdisciplined v m' hrun
    exact Program.kind_ne_returned_of_disciplined hp hdisciplined hrun

theorem Value.eq_returned_of_kind {v : Value} (h : v.kind = .returned) : ∃ w, v = .returned w := by
  cases v with
  | returned w => exact ⟨w, rfl⟩
  | _ => cases h

/-- The text `return if (true) { return 1; };` has a result that is on its way out of a call. -/
theorem exists_run_nested_return : ∃ r m' w,
    run 4 globalScope "return if (true) \x7b return 1; \x7d;" initial = some (r, m') ∧
      r.result = .ok (.returned w) := by
  have h : ((run 4 globalScope "return if (true) \x7b return 1; \x7d;" initial).bind fun reply =>
      reply.1.result.toOption.map Value.kind) = some .returned := by decide +kernel
  obtain ⟨⟨⟨printed, result⟩, m'⟩, hrun, hkind⟩ := Option.bind_eq_some_iff.mp h
  cases result with
  | ok v =>
    obtain ⟨w, rfl⟩ := Value.eq_returned_of_kind (Option.some.inj hkind)
    exact ⟨_, m', w, hrun, rfl⟩
  | error ds => cases hkind

/-- A text whose result is on its way out of a call, run where nothing is reachable at all. -/
theorem result_returned_of_nested_return : ∃ source p r m' w,
    Program.parse source = .ok p ∧ (∀ v, ¬ initial.ReachableValue globalScope v) ∧
      run 4 globalScope source initial = some (r, m') ∧ r.result = .ok (.returned w) := by
  obtain ⟨r, m', w, hrun, hr⟩ := exists_run_nested_return
  obtain ⟨p, hp⟩ := exists_parse_of_run hrun hr
  exact ⟨_, p, r, m', w, hp, not_reachableValue_initial globalScope, hrun, hr⟩

/-- That text is left with a value wrapped by the inner `return`, which the outer was given. -/
theorem result_returned_iff_leaves_nested : ∃ p : Program, ∃ m' w,
    Leaves 4 globalScope p.statements initial (.returned w) m' ∧
      ∃ a, (Activity.ofProgram 4 globalScope p initial).Within a ∧
        ∃ u, a.action = .wrap (.returned u) := by
  obtain ⟨r, m₁, w, hrun, hr⟩ := exists_run_nested_return
  obtain ⟨p, hp⟩ := exists_parse_of_run hrun hr
  have h := result_returned_iff_leaves 4 globalScope initial _ p hp fun v hv =>
    absurd hv (not_reachableValue_initial globalScope v)
  obtain ⟨m', hleaves⟩ := (h.2.1 w).mp ⟨r, m₁, hrun, hr⟩
  exact ⟨p, m', w, hleaves, h.2.2.1 w m' hleaves⟩

end Monkey
