import Monkey.Proofs.Activity
import Monkey.Proofs.Logic
import Monkey.Proofs.ScopeFrame

/-!
The course of an evaluation. A relation that holds along runs and over every single step holds from
the machine in which an evaluation begins to those in which the activities within it begin, and from
those in which they end to the one in which the evaluation ends. So whatever the activities do that
is never undone is seen at the end, whether that is a result or a fault.
-/

namespace Monkey

/-- A relation that holds along runs and over all steps. -/
structure Machine.Stepwise (R : Machine → Machine → Prop) : Prop extends Quiet R where
  assign (m : Machine) (scope : ScopeId) (x : String) (v : Value) : R m (m.assign scope x v)
  openScope (m : Machine) (outer : Option ScopeId) (bindings : List (String × Value)) :
    R m (m.openScope outer bindings).2

open Eval Machine Evaluator

variable {R : Machine → Machine → Prop} (hR : Stepwise R)

/-- A sequence whose first part has a result ends like what follows that result. -/
theorem Eval.endsIn_of_done {α β : Type} {x : Eval α} {f : α → Eval β} {m m₁ m' : Machine} {a : α}
    (hx : x m = .done a m₁) (h : ((x >>= f) m).EndsIn m') : (f a m₁).EndsIn m' := by
  rw [bind_of_done hx] at h
  exact h

include hR in
theorem Eval.leads_assign (scope : ScopeId) (x : String) (v : Value) :
    (assign scope x v).Leads R := leads_update fun m => hR.assign m scope x v

include hR in
/-- A sequence that ends does so after its first part. -/
theorem Eval.exists_of_bind_endsIn {α β : Type} {x : Eval α} {f : α → Eval β} {m m' : Machine}
    (hf : ∀ a, (f a).Leads R) (h : ((x >>= f) m).EndsIn m') :
    ∃ m₁, (x m).EndsIn m₁ ∧ R m₁ m' := by
  rw [bind_apply] at h
  cases hx : x m with
  | done a m₁ =>
    rw [hx] at h
    exact ⟨m₁, .done a m₁, hf a h⟩
  | failed e m₁ =>
    rw [hx] at h
    cases h
    exact ⟨m', .failed e m', hR.refl m'⟩
  | unfinished =>
    rw [hx] at h
    cases h

include hR in
theorem Eval.leads_openScope (outer : Option ScopeId) (bindings : List (String × Value)) :
    (openScope outer bindings).Leads R := leads_update fun m => hR.openScope m outer bindings

include hR in
theorem Eval.leads_lookup (scope : ScopeId) (x : String) : (lookup scope x).Leads R :=
  leads_update hR.refl

variable (R) in
/-- The evaluation leads to related machines, and its results have a property. -/
structure Eval.LeadsTo {α : Type} (Q : α → Prop) (x : Eval α) : Prop where
  leads : x.Leads R
  result {m m' : Machine} {a : α} : x m = .done a m' → Q a

include hR in
theorem Eval.LeadsTo.bind {α β : Type} {Q : α → Prop} {Q' : β → Prop} {x : Eval α}
    {f : α → Eval β} (hx : x.LeadsTo R Q) (hf : ∀ a, Q a → (f a).LeadsTo R Q') :
    (x >>= f).LeadsTo R Q' where
  leads := hx.leads.bind_of_done hR.toAccumulates fun hdone => (hf _ (hx.result hdone)).leads
  result h := by
    obtain ⟨a, m₁, hdone, hrest⟩ := exists_of_bind_eq_done h
    exact (hf a (hx.result hdone)).result hrest

/-- Nothing is known but the relation, and values, scopes and names are not restricted. -/
def Logic.stepwise : Logic Unit where
  Later _ _ := True
  Fit _ _ := True
  FitHash _ _ := True
  Place _ _ := True
  Usable _ := True
  Holds _ Q x := x.LeadsTo R (Q ())
  refl _ := trivial
  trans _ _ := trivial
  fit_mono _ _ := trivial
  fitHash_mono _ _ := trivial
  place_mono _ _ := trivial
  plain _ := ⟨fun _ => trivial, fun _ => trivial, fun _ => trivial, trivial, fun _ => trivial⟩
  fit_returned _ _ := trivial
  fit_function _ := ⟨trivial, fun _ _ => trivial⟩
  fitHash_empty _ := trivial
  fitHash_insert _ _ _ _ := trivial
  holds_pure ha := ⟨leads_pure hR.toAccumulates _, by rintro m m' a ⟨⟩; exact ha () trivial⟩
  holds_fail f := ⟨leads_fail hR.toAccumulates f, nofun⟩
  holds_unfinished := ⟨leads_unfinished, nofun⟩
  holds_bind hx hf := hx.bind hR fun a ha => hf () a trivial ha
  holds_print line := ⟨leads_update fun m => hR.print m line, fun _ => trivial⟩
  holds_newArray _ := ⟨leads_newArray hR.toQuiet _, fun _ _ _ => trivial⟩
  holds_newHash _ := ⟨leads_newHash hR.toQuiet _, fun _ _ _ => trivial⟩
  holds_newFunction _ _ := ⟨leads_newFunction hR.toQuiet _, fun _ _ _ => trivial⟩
  holds_lookup _ _ := ⟨leads_lookup hR _ _, fun _ _ _ _ _ => trivial⟩
  holds_assign _ _ _ := ⟨leads_assign hR _ _ _, fun _ => trivial⟩
  holds_openScope _ _ _ := ⟨leads_openScope hR _ _, fun _ => trivial⟩

namespace Evaluator

variable (R) in
/-- An evaluator whose evaluations lead from machines to related ones. -/
def Leading (eval : Evaluator) : Prop := ∀ scope e, (eval scope e).Leads R

variable {eval : Evaluator} (h : Leading R eval)

include hR h

theorem Leading.judges : (Logic.stepwise hR).Judges eval :=
  fun _ scope e _ _ => ⟨h scope e, fun _ _ _ => trivial⟩

theorem Leading.expressions (scope : ScopeId) (es : List Expr) :
    (eval.expressions scope es).Leads R := by
  have hholds : (Logic.stepwise hR).Holds () _ (eval.expressions scope es) :=
    (h.judges hR).expressions trivial fun _ _ => trivial
  exact hholds.leads

theorem Leading.pairs (scope : ScopeId) (content : Hash Value) (ps : List (Expr × Expr)) :
    (eval.pairs scope content ps).Leads R := by
  have hholds : (Logic.stepwise hR).Holds () _ (eval.pairs scope content ps) :=
    (h.judges hR).pairs trivial trivial fun _ _ => trivial
  exact hholds.leads

theorem Leading.statement (scope : ScopeId) (s : Stmt) : (eval.statement scope s).Leads R := by
  have hholds : (Logic.stepwise hR).Holds () _ (eval.statement scope s) :=
    (h.judges hR).statement trivial fun _ _ => trivial
  exact hholds.leads

theorem Leading.statements (scope : ScopeId) (last : Value) (ss : List Stmt) :
    (eval.statements scope last ss).Leads R := by
  have hholds : (Logic.stepwise hR).Holds () _ (eval.statements scope last ss) :=
    (h.judges hR).statements trivial (fun _ _ => trivial) fun _ _ => trivial
  exact hholds.leads

theorem Leading.apply (callee : Value) (args : List Value) : (eval.apply callee args).Leads R := by
  have hholds : (Logic.stepwise hR).Holds () _ (eval.apply callee args) :=
    (h.judges hR).apply (fun _ _ => trivial) fun _ _ _ _ => trivial
  exact hholds.leads

/-- What follows the evaluation of a key. -/
theorem Leading.filing (scope : ScopeId) (k : Value) (content : Hash Value) (value : Expr)
    (ps : List (Expr × Expr)) :
    (match k.key? with
      | none => .fail (.notHashable k.kind)
      | some filed => do
        let v ← eval scope value
        eval.pairs scope (content.insert filed (k, v)) ps : Eval (Hash Value)).Leads R := by
  cases k.key? with
  | none => exact leads_fail hR.toAccumulates _
  | some filed => exact (h scope value).bind hR.toAccumulates fun v => h.pairs hR scope _ ps

/-- What follows the evaluation of a statement. -/
theorem Leading.sequel (scope : ScopeId) (v : Value) (ss : List Stmt) :
    (match v with
      | .returned v => return .returned v
      | v => eval.statements scope v ss : Eval Value).Leads R := by
  split
  · exact leads_pure hR.toAccumulates _
  · exact h.statements hR scope _ ss

theorem Leading.choice (scope : ScopeId) (v : Value) (b : Block) (alternative : Option Block) :
    (if v.isTruthy then eval.block scope b
      else
        match alternative with
        | some a => eval.block scope a
        | none => return .null).Leads R := by
  split
  · exact h.statements hR scope .null b.statements
  · cases alternative with
    | none => exact leads_pure hR.toAccumulates _
    | some a => exact h.statements hR scope .null a.statements

end Evaluator

include hR in
/-- Whatever holds over every step holds over an evaluation. -/
theorem Expr.eval_leading (depth : Nat) : Evaluator.Leading R (Expr.eval depth) := by
  intro scope e
  have hholds : (Logic.stepwise hR).Holds () _ (e.eval depth scope) :=
    (Logic.stepwise hR).judges_eval depth trivial fun _ _ => trivial
  exact hholds.leads

namespace Activity

/-- The activity ends in this machine, with a result or with a fault. -/
def EndsIn (a : Activity) (m' : Machine) : Prop :=
  match a.action with
  | .expression scope e => (e.eval a.depth scope a.machine).EndsIn m'
  | .expressions scope es =>
    (Evaluator.expressions (Expr.eval a.depth) scope es a.machine).EndsIn m'
  | .pairs scope content ps =>
    (Evaluator.pairs (Expr.eval a.depth) scope content ps a.machine).EndsIn m'
  | .statement scope s => (Evaluator.statement (Expr.eval a.depth) scope s a.machine).EndsIn m'
  | .statements scope last ss =>
    (Evaluator.statements (Expr.eval a.depth) scope last ss a.machine).EndsIn m'
  | .resolve scope x => (x.resolve scope a.machine).EndsIn m'
  | .unary op v => (Eval.ofExcept (op.apply v) a.machine).EndsIn m'
  | .binary op v w => (Eval.ofExcept (op.apply v w) a.machine).EndsIn m'
  | .index v w => (Eval.ofExcept (v.index w) a.machine).EndsIn m'
  | .call f vs => (Evaluator.apply (Expr.eval a.depth) f vs a.machine).EndsIn m'
  | .builtin b vs => (b.call vs a.machine).EndsIn m'
  | .bind scope x v => (Eval.assign scope x v a.machine).EndsIn m'
  | .newArray vs => (Eval.newArray vs a.machine).EndsIn m'
  | .newHash content => (Eval.newHash content a.machine).EndsIn m'
  | .choose _ | .wrap _ | .file _ => m' = a.machine

variable {a b : Activity} {m' : Machine}

include hR in
/-- The parts of an activity begin in machines that it leads to. -/
theorem Part.begins (h : Part a b) : R a.machine b.machine := by
  have heval : ∀ d, Evaluator.Leading R (Expr.eval d) := Expr.eval_leading hR
  cases h with
  | resolve | elements | pairs | operand | left | condition | callee | collection | first | key
    | bound | returned | expression | statement | builtin => exact hR.refl _
  | unary h | right h | choose h | consequence h _ | alternative h _ | arguments h | position h
    | others h | file h | value h _ | bind h | wrap h => exact heval _ _ _ (.of_done h)
  | binary h₁ h₂ | index h₁ h₂ | otherPairs h₁ _ h₂ =>
    exact hR.trans (heval _ _ _ (.of_done h₁)) (heval _ _ _ (.of_done h₂))
  | newArray h => exact (heval _).expressions hR _ _ (.of_done h)
  | newHash h => exact (heval _).pairs hR _ _ _ (.of_done h)
  | call h₁ h₂ =>
    have hcallee : R _ _ := heval _ _ _ (.of_done h₁)
    exact hR.trans hcallee ((heval _).expressions hR _ _ (.of_done h₂))
  | statements h _ => exact (heval _).statement hR _ _ (.of_done h)
  | body => exact hR.openScope _ _ _

include hR in
/-- An activity that ends does so after its parts. -/
theorem Part.ends (h : Part a b) (ha : a.EndsIn m') : ∃ m'', b.EndsIn m'' ∧ R m'' m' := by
  have heval : ∀ d, Evaluator.Leading R (Expr.eval d) := Expr.eval_leading hR
  have hacc : Accumulates R := hR.toAccumulates
  cases h with
  | resolve | expression | builtin => exact ⟨m', ha, hR.refl m'⟩
  | newArray h | newHash h | unary h =>
    have hrest := endsIn_of_done h ha
    exact ⟨m', hrest, hR.refl m'⟩
  | binary h₁ h₂ | index h₁ h₂ | call h₁ h₂ =>
    have hsecond := endsIn_of_done h₁ ha
    have hrest := endsIn_of_done h₂ hsecond
    exact ⟨m', hrest, hR.refl m'⟩
  | elements => exact exists_of_bind_endsIn hR (fun vs => leads_newArray hR.toQuiet vs) ha
  | pairs => exact exists_of_bind_endsIn hR (fun content => leads_newHash hR.toQuiet content) ha
  | operand => exact exists_of_bind_endsIn hR (fun v => leads_ofExcept hacc _) ha
  | left | collection =>
    refine exists_of_bind_endsIn hR (fun v => ?_) ha
    exact (heval _ _ _).bind hacc fun w => leads_ofExcept hacc _
  | right h | position h =>
    have hrest := endsIn_of_done h ha
    exact exists_of_bind_endsIn hR (fun w => leads_ofExcept hacc _) hrest
  | condition => exact exists_of_bind_endsIn hR (fun v => (heval _).choice hR _ v _ _) ha
  | choose h =>
    have hrest := endsIn_of_done h ha
    exact ⟨_, rfl, (heval _).choice hR _ _ _ _ hrest⟩
  | consequence h hv =>
    have hblock := endsIn_of_done h ha
    rw [if_pos hv] at hblock
    exact ⟨m', hblock, hR.refl m'⟩
  | alternative h hv =>
    have hblock := endsIn_of_done h ha
    rw [if_neg (Bool.eq_false_iff.mp hv)] at hblock
    exact ⟨m', hblock, hR.refl m'⟩
  | callee =>
    refine exists_of_bind_endsIn hR (fun f => ?_) ha
    exact ((heval _).expressions hR _ _).bind hacc fun vs => (heval _).apply hR f vs
  | arguments h =>
    have hrest := endsIn_of_done h ha
    exact exists_of_bind_endsIn hR (fun vs => (heval _).apply hR _ vs) hrest
  | first =>
    refine exists_of_bind_endsIn hR (fun v => ?_) ha
    exact ((heval _).expressions hR _ _).bind hacc fun vs => leads_pure hacc _
  | others h =>
    have hrest := endsIn_of_done h ha
    exact exists_of_bind_endsIn hR (fun vs => leads_pure hacc _) hrest
  | key => exact exists_of_bind_endsIn hR (fun k => (heval _).filing hR _ k _ _ _) ha
  | file h =>
    have hrest := endsIn_of_done h ha
    exact ⟨_, rfl, (heval _).filing hR _ _ _ _ _ hrest⟩
  | value h hk =>
    have hrest := endsIn_of_done h ha
    simp only [hk] at hrest
    exact exists_of_bind_endsIn hR (fun v => (heval _).pairs hR _ _ _) hrest
  | otherPairs h₁ hk h₂ =>
    have hsecond := endsIn_of_done h₁ ha
    simp only [hk] at hsecond
    have hrest := endsIn_of_done h₂ hsecond
    exact ⟨m', hrest, hR.refl m'⟩
  | bound =>
    refine exists_of_bind_endsIn hR (fun v => ?_) ha
    exact (leads_assign hR _ _ v).bind hacc fun _ => leads_pure hacc v
  | bind h =>
    have hrest := endsIn_of_done h ha
    exact exists_of_bind_endsIn hR (fun _ => leads_pure hacc _) hrest
  | returned => exact exists_of_bind_endsIn hR (fun v => leads_pure hacc _) ha
  | wrap h =>
    have hrest := endsIn_of_done h ha
    exact ⟨_, rfl, leads_pure hacc _ hrest⟩
  | statement => exact exists_of_bind_endsIn hR (fun v => (heval _).sequel hR _ v _) ha
  | statements h hv =>
    have hall : (Evaluator.statements _ _ _ (_ :: _) _).EndsIn m' := ha
    rw [statements_cons_of_ne h hv] at hall
    exact ⟨m', hall, hR.refl m'⟩
  | body => exact exists_of_bind_endsIn hR (fun v => leads_pure hacc _) ha

include hR

theorem Within.begins (h : Within a b) : R a.machine b.machine := by
  induction h with
  | self => exact hR.refl _
  | part _ hc ih => exact hR.trans ih (hc.begins hR)

theorem Within.ends (h : Within a b) (ha : a.EndsIn m') : ∃ m'', b.EndsIn m'' ∧ R m'' m' := by
  induction h with
  | self => exact ⟨m', ha, hR.refl m'⟩
  | part _ hc ih =>
    obtain ⟨m₁, hb, h₁⟩ := ih
    obtain ⟨m₂, hc, h₂⟩ := hc.ends hR hb
    exact ⟨m₂, hc, hR.trans h₂ h₁⟩

end Activity

namespace Machine

/-- No scope is lost, and what is bound in one stays bound there, if perhaps to something else. -/
structure Preserves (m m' : Machine) : Prop where
  grows : m.scopes.size ≤ m'.scopes.size
  bound : ∀ {scope : ScopeId} {x : String} {v : Value}, m.bound? scope x = some v →
    ∃ w, m'.bound? scope x = some w

theorem preserves_of_scopes_eq {m m' : Machine} (h : m'.scopes = m.scopes) : m.Preserves m' where
  grows := Nat.le_of_eq (by rw [h])
  bound {scope x v} hv := ⟨v, by rw [bound?, h]; exact hv⟩

theorem preserves_stepwise : Stepwise Preserves where
  refl m := preserves_of_scopes_eq rfl
  trans {m₁ m₂ m₃} h₁ h₂ := by
    refine ⟨Nat.le_trans h₁.grows h₂.grows, fun hv => ?_⟩
    obtain ⟨w, hw⟩ := h₁.bound hv
    exact h₂.bound hw
  newIdentity m := preserves_of_scopes_eq rfl
  print m line := preserves_of_scopes_eq rfl
  assign m scope x v := by
    refine ⟨Nat.le_of_eq (size_scopes_assign m scope x v).symm, fun {scope' y w} hw => ?_⟩
    obtain ⟨s, hs, hw⟩ := Option.bind_eq_some_iff.mp hw
    rw [bound?, getElem?_scopes_assign, hs]
    split
    · simp only [Option.map_some, Option.bind_some, List.lookup_cons]
      split
      · exact ⟨v, rfl⟩
      · exact ⟨w, hw⟩
    · exact ⟨w, hw⟩
  openScope m outer bindings := by
    have hsize := m.size_scopes_openScope outer bindings
    refine ⟨by omega, fun {scope x v} hv => ⟨v, ?_⟩⟩
    obtain ⟨s, hs, hv⟩ := Option.bind_eq_some_iff.mp hv
    have hlt : scope < m.scopes.size := lt_size_of_getElem? hs
    rw [bound?, Machine.openScope, Array.getElem?_push, if_neg (Nat.ne_of_lt hlt), hs]
    exact hv

end Machine

/-- The scope that an action takes place in, if there is one. -/
def Action.scope? : Action → Option ScopeId
  | expression scope _ | expressions scope _ | pairs scope _ _ | statement scope _
  | statements scope _ _ | resolve scope _ | bind scope _ _ => some scope
  | _ => none

/-- The action takes place in a scope that there is. -/
def Activity.Placed (a : Activity) : Prop :=
  ∀ scope, a.action.scope? = some scope → scope < a.machine.scopes.size

theorem Activity.Placed.part {a b : Activity} (h : a.Placed) (hb : Part a b) : b.Placed := by
  have hgrows := (hb.begins preserves_stepwise).grows
  intro scope hscope
  cases hb with
  | newArray | newHash | unary | binary | choose | index | call | file | wrap | builtin =>
    cases hscope
  | body =>
    obtain rfl := Option.some.inj hscope
    rw [size_scopes_openScope]
    exact Nat.lt_succ_self _
  | _ => exact Nat.lt_of_lt_of_le (h scope hscope) hgrows

theorem Activity.Placed.within {a b : Activity} (h : a.Placed) (hb : a.Within b) : b.Placed :=
  hb.induct Placed.part h

/-- Whatever is bound in the course of an activity is bound when the activity ends. -/
theorem Activity.exists_bound {a : Activity} {d : Nat} {scope : ScopeId} {x : String} {v : Value}
    {m m' : Machine} (h : a.Within ⟨d, .bind scope x v, m⟩)
    (hscope : scope < a.machine.scopes.size) (hends : a.EndsIn m') :
    ∃ w, m'.bound? scope x = some w := by
  have hbegins : a.machine.Preserves m := h.begins preserves_stepwise
  obtain ⟨m₁, hdone, hpreserves⟩ := h.ends preserves_stepwise hends
  cases hdone
  have hlt : scope < m.scopes.size := Nat.lt_of_lt_of_le hscope hbegins.grows
  exact hpreserves.bound (bound?_assign_self m hlt x v)

end Monkey
