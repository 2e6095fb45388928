import Monkey.Evaluator

/-!
What evaluations do to the machine, with their results left aside. A relation that every machine
bears to itself and that carries over two steps holds from the start of an evaluation to its end
as soon as it holds for each of the steps, whether the evaluation ends with a result or a fault.
-/

namespace Monkey

variable {α β : Type}

/-- The machine in which an evaluation ended, with a result or with a fault. -/
inductive Outcome.EndsIn : Outcome α → Machine → Prop
  | done (a : α) (m : Machine) : EndsIn (.done a m) m
  | failed (f : Fault) (m : Machine) : EndsIn (.failed f m) m

theorem Outcome.EndsIn.of_done {o : Outcome α} {a : α} {m : Machine} (h : o = .done a m) :
    o.EndsIn m := h ▸ .done a m

/-- A relation that holds along a run once it holds for its steps. -/
structure Machine.Accumulates (R : Machine → Machine → Prop) : Prop where
  refl (m : Machine) : R m m
  trans {m₁ m₂ m₃ : Machine} (h₁ : R m₁ m₂) (h₂ : R m₂ m₃) : R m₁ m₃

/-- An evaluation that ends has led from its first machine to one in this relation. -/
def Eval.Leads (R : Machine → Machine → Prop) (x : Eval α) : Prop :=
  ∀ ⦃m m' : Machine⦄, (x m).EndsIn m' → R m m'

namespace Eval

variable {R R' : Machine → Machine → Prop}

theorem Leads.mono {x : Eval α} (h : x.Leads R) (hR : ∀ m m', R m m' → R' m m') : x.Leads R' := by
  intro m m' hx
  exact hR m m' (h hx)

theorem leads_unfinished : (unfinished : Eval α).Leads R := by
  intro m m' hx
  cases hx

theorem leads_update {f : Machine → α × Machine} (h : ∀ m, R m (f m).2) : (update f).Leads R := by
  intro m m' hx
  cases hx
  exact h m

theorem leads_pure (hR : Machine.Accumulates R) (a : α) : (pure a : Eval α).Leads R := by
  intro m m' hx
  cases hx
  exact hR.refl m

theorem leads_fail (hR : Machine.Accumulates R) (f : Fault) : (fail f : Eval α).Leads R := by
  intro m m' hx
  cases hx
  exact hR.refl m

theorem leads_ofExcept (hR : Machine.Accumulates R) (r : Except Fault α) :
    (ofExcept r).Leads R := by
  cases r with
  | ok a => exact leads_pure hR a
  | error f => exact leads_fail hR f

/-- What follows matters only for the results that there are. -/
theorem Leads.bind_of_done (hR : Machine.Accumulates R) {x : Eval α} {f : α → Eval β}
    (hx : x.Leads R) (hf : ∀ {m a m'}, x m = .done a m' → (f a).Leads R) :
    (x >>= f).Leads R := by
  intro m m' h
  rw [bind_apply] at h
  cases hxm : x m with
  | done a m₁ =>
    rw [hxm] at h
    have h₁ : R m m₁ := hx (hxm ▸ .done a m₁)
    exact hR.trans h₁ (hf hxm h)
  | failed e m₁ =>
    have h₁ : R m m₁ := hx (hxm ▸ .failed e m₁)
    rw [hxm] at h
    cases h
    exact h₁
  | unfinished =>
    rw [hxm] at h
    cases h

theorem Leads.bind (hR : Machine.Accumulates R) {x : Eval α} {f : α → Eval β} (hx : x.Leads R)
    (hf : ∀ a, (f a).Leads R) : (x >>= f).Leads R := hx.bind_of_done hR fun _ => hf _

/-- A sequence that gave a result went through a result of its first part. -/
theorem exists_of_bind_eq_done {x : Eval α} {f : α → Eval β} {m m' : Machine} {b : β}
    (h : (x >>= f) m = .done b m') : ∃ a m₁, x m = .done a m₁ ∧ f a m₁ = .done b m' := by
  rw [bind_apply] at h
  split at h
  · next a m₁ hx => exact ⟨a, m₁, hx, h⟩
  · cases h
  · cases h

/-- A sequence that failed did so in its first part or behind a result of it. -/
theorem cases_of_bind_eq_failed {x : Eval α} {f : α → Eval β} {m m' : Machine} {e : Fault}
    (h : (x >>= f) m = .failed e m') :
    x m = .failed e m' ∨ ∃ a m₁, x m = .done a m₁ ∧ f a m₁ = .failed e m' := by
  rw [bind_apply] at h
  split at h
  · next a m₁ hx => exact .inr ⟨a, m₁, hx, h⟩
  · next e' m₁ hx =>
    cases h
    exact .inl hx
  · cases h

theorem eq_ok_of_ofExcept_eq_done {r : Except Fault α} {m m' : Machine} {a : α}
    (h : ofExcept r m = .done a m') : r = .ok a ∧ m' = m := by
  cases r with
  | ok b =>
    cases h
    exact ⟨rfl, rfl⟩
  | error f => cases h

/-- What follows a computation without effects goes on from the same machine. -/
theorem exists_of_ofExcept_bind_eq_done {r : Except Fault α} {f : α → Eval β} {m m' : Machine}
    {b : β} (h : (ofExcept r >>= f) m = .done b m') : ∃ a, r = .ok a ∧ f a m = .done b m' := by
  obtain ⟨a, m₁, hr, hf⟩ := exists_of_bind_eq_done h
  obtain ⟨hok, rfl⟩ := eq_ok_of_ofExcept_eq_done hr
  exact ⟨a, hok, hf⟩

end Eval

namespace Machine

/-- A relation that holds along runs, and over the steps that neither open a scope nor bind a
name. -/
structure Quiet (R : Machine → Machine → Prop) : Prop extends Accumulates R where
  newIdentity (m : Machine) : R m m.newIdentity.2
  print (m : Machine) (line : String) : R m (m.print line)

/-- No scope was opened and no name bound from one machine to the other. -/
def SameScopes (m m' : Machine) : Prop := m'.scopes = m.scopes

theorem lt_size_of_getElem? {m : Machine} {i : ScopeId} {s : Scope} (h : m.scopes[i]? = some s) :
    i < m.scopes.size := by
  obtain ⟨hi, -⟩ := Array.getElem?_eq_some_iff.mp h
  exact hi

theorem sameScopes_quiet : Quiet SameScopes where
  refl _ := rfl
  trans h₁ h₂ := Eq.trans h₂ h₁
  newIdentity := scopes_newIdentity
  print := scopes_print

theorem sameScopes_accumulates : Accumulates SameScopes := sameScopes_quiet.toAccumulates

end Machine

open Eval Machine

section

variable {R : Machine → Machine → Prop} (hR : Quiet R)

include hR

namespace Eval

theorem leads_newArray (vs : List Value) : (newArray vs).Leads R := by
  have hid : newIdentity.Leads R := leads_update hR.newIdentity
  exact hid.bind hR.toAccumulates fun _ => leads_pure hR.toAccumulates _

theorem leads_newHash (h : Hash Value) : (newHash h).Leads R := by
  have hid : newIdentity.Leads R := leads_update hR.newIdentity
  exact hid.bind hR.toAccumulates fun _ => leads_pure hR.toAccumulates _

theorem leads_newFunction (c : Closure) : (newFunction c).Leads R := by
  have hid : newIdentity.Leads R := leads_update hR.newIdentity
  exact hid.bind hR.toAccumulates fun _ => leads_pure hR.toAccumulates _

end Eval

theorem Name.leads_resolve (x : Name) (scope : ScopeId) : (x.resolve scope).Leads R := by
  have hlookup : (Eval.lookup scope x.text).Leads R := leads_update hR.refl
  refine hlookup.bind hR.toAccumulates fun found => ?_
  cases found with
  | some v => exact leads_pure hR.toAccumulates v
  | none =>
    cases Builtin.ofName? x.text with
    | some b => exact leads_pure hR.toAccumulates _
    | none => exact leads_fail hR.toAccumulates _

namespace Builtin

theorem leads_printAll (vs : List Value) : (printAll vs).Leads R := by
  induction vs with
  | nil => exact leads_pure hR.toAccumulates ()
  | cons v vs ih =>
    have hprint : (Eval.print v.inspect).Leads R := leads_update fun m => hR.print m v.inspect
    exact hprint.bind hR.toAccumulates fun _ => ih

/-- No builtin opens a scope or binds a name. -/
theorem leads_call (b : Builtin) (args : List Value) : (b.call args).Leads R := by
  have hacc : Accumulates R := hR.toAccumulates
  cases b with
  | len => exact leads_ofExcept hacc _
  | first | last => exact (leads_ofExcept hacc _).bind hacc fun _ => leads_pure hacc _
  | rest =>
    refine (leads_ofExcept hacc _).bind hacc fun vs => ?_
    cases vs with
    | nil => exact leads_pure hacc _
    | cons v vs => exact leads_newArray hR vs
  | push =>
    simp only [call]
    split
    · exact (leads_ofExcept hacc _).bind hacc fun vs => leads_newArray hR _
    · exact leads_fail hacc _
  | puts => exact (leads_printAll hR args).bind hacc fun _ => leads_pure hacc _

end Builtin

end

namespace Eval

theorem newArray_sameScopes (vs : List Value) : (newArray vs).Leads SameScopes :=
  leads_newArray sameScopes_quiet vs

theorem newHash_sameScopes (h : Hash Value) : (newHash h).Leads SameScopes :=
  leads_newHash sameScopes_quiet h

theorem newFunction_sameScopes (c : Closure) : (newFunction c).Leads SameScopes :=
  leads_newFunction sameScopes_quiet c

theorem ofExcept_sameScopes (r : Except Fault α) : (ofExcept r).Leads SameScopes :=
  leads_ofExcept sameScopes_accumulates r

end Eval

theorem Name.resolve_sameScopes (x : Name) (scope : ScopeId) :
    (x.resolve scope).Leads SameScopes := x.leads_resolve sameScopes_quiet scope

theorem Builtin.call_sameScopes (b : Builtin) (args : List Value) :
    (b.call args).Leads SameScopes := b.leads_call sameScopes_quiet args

namespace Evaluator

variable {eval : Evaluator} {scope : ScopeId} {m m' : Machine} {s : Stmt} {ss : List Stmt}
  {last v : Value}

theorem layer_cond (t : Token) (condition : Expr) (b : Block) (alternative : Option Block) :
    eval.layer scope (.cond t condition b alternative) = do
      let v ← eval scope condition
      if v.isTruthy then eval.block scope b
      else
        match alternative with
        | some a => eval.block scope a
        | none => return .null := rfl

theorem statements_cons_of_returned (h : eval.statement scope s m = .done (.returned v) m') :
    eval.statements scope last (s :: ss) m = .done (.returned v) m' := by
  rw [statements, bind_of_done h]
  rfl

theorem statements_cons_of_ne (h : eval.statement scope s m = .done v m')
    (hv : ∀ w, v ≠ .returned w) :
    eval.statements scope last (s :: ss) m = eval.statements scope v ss m' := by
  rw [statements, bind_of_done h]
  cases v with
  | returned w => exact absurd rfl (hv w)
  | _ => rfl

/-- The first of some statements either ends them, or the others go on with its result. -/
theorem exists_of_statements_cons {r : Value}
    (h : eval.statements scope last (s :: ss) m = .done r m') :
    ∃ u m₁, eval.statement scope s m = .done u m₁ ∧
      ((∃ w, u = .returned w ∧ r = .returned w ∧ m' = m₁) ∨
        (∀ w, u ≠ .returned w) ∧ eval.statements scope u ss m₁ = .done r m') := by
  rw [statements] at h
  obtain ⟨u, m₁, hs, hrest⟩ := exists_of_bind_eq_done h
  refine ⟨u, m₁, hs, ?_⟩
  cases u with
  | returned w =>
    cases hrest
    exact .inl ⟨w, rfl, rfl, rfl⟩
  | _ => exact .inr ⟨nofun, hrest⟩

end Evaluator

end Monkey
