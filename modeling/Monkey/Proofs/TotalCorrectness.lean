import Monkey.Proofs.MissingArguments

/-!
Evaluations that come to a result. What an evaluation gives is said for every sufficient depth at
once, so depths do not occur in what is derived from it: there is a rule for each kind of
expression and statement and for calls, and a rule asks of the parts in turn what the whole is to
give. Where names are looked up, a scope is described by all bindings that can be seen from it.
-/

namespace Monkey

open Machine

/-- From some depth on the evaluation gives one result and leaves one machine, and these are as
required. -/
def Eval.Gives {α : Type} (x : Nat → Eval α) (m : Machine) (Q : α → Machine → Prop) : Prop :=
  ∃ n a m', (∀ d, n ≤ d → x d m = .done a m') ∧ Q a m'

def Expr.Gives (e : Expr) (scope : ScopeId) (m : Machine) (Q : Value → Machine → Prop) : Prop :=
  Eval.Gives (fun d => e.eval d scope) m Q

def Expr.AllGive (es : List Expr) (scope : ScopeId) (m : Machine)
    (Q : List Value → Machine → Prop) : Prop :=
  Eval.Gives (fun d => Evaluator.expressions (Expr.eval d) scope es) m Q

def Stmt.Gives (s : Stmt) (scope : ScopeId) (m : Machine) (Q : Value → Machine → Prop) : Prop :=
  Eval.Gives (fun d => Evaluator.statement (Expr.eval d) scope s) m Q

def Stmt.AllGive (ss : List Stmt) (scope : ScopeId) (last : Value) (m : Machine)
    (Q : Value → Machine → Prop) : Prop :=
  Eval.Gives (fun d => Evaluator.statements (Expr.eval d) scope last ss) m Q

/-- What a call of the value gives. -/
def Value.CallGives (f : Value) (args : List Value) (m : Machine) (Q : Value → Machine → Prop) :
    Prop :=
  Eval.Gives (fun d => Evaluator.apply (Expr.eval d) f args) m Q

namespace Eval

variable {α β : Type} {m m' : Machine} {Q : α → Machine → Prop} {a : α}

theorem gives_of_done {x : Nat → Eval α} (h : ∀ d, x d m = .done a m') (hQ : Q a m') :
    Gives x m Q := ⟨0, a, m', fun d _ => h d, hQ⟩

theorem Gives.mono {x : Nat → Eval α} {Q' : α → Machine → Prop} (h : Gives x m Q)
    (hQ : ∀ a m', Q a m' → Q' a m') : Gives x m Q' := by
  obtain ⟨n, a, m', hdone, ha⟩ := h
  exact ⟨n, a, m', hdone, hQ a m' ha⟩

theorem Gives.bind {x : Nat → Eval α} {f : Nat → α → Eval β} {Q : β → Machine → Prop}
    (h : Gives x m fun a m' => Gives (fun d => f d a) m' Q) : Gives (fun d => x d >>= f d) m Q := by
  obtain ⟨n, a, m₁, hx, k, b, m₂, hf, hQ⟩ := h
  refine ⟨max n k, b, m₂, fun d hd => ?_, hQ⟩
  show (x d >>= f d) m = .done b m₂
  rw [bind_of_done (hx d (by omega))]
  exact hf d (by omega)

end Eval

namespace Machine

/-- From the first machine to the second nothing was printed and no scope that was there changed. -/
structure GrowsTo (m m' : Machine) : Prop where
  keeps : Keeps m m'
  grows : m.scopes.size ≤ m'.scopes.size
  silent : m'.printed = m.printed

/-- All bindings that can be seen from a scope, those of inner scopes and newer ones first. -/
inductive Sees (m : Machine) : ScopeId → List (String × Value) → Prop
  | outermost {scope : ScopeId} {bindings : List (String × Value)}
      (h : m.scopes[scope]? = some ⟨bindings, none⟩) : Sees m scope bindings
  | inner {scope outer : ScopeId} {bindings env : List (String × Value)}
      (h : m.scopes[scope]? = some ⟨bindings, some outer⟩) (hlt : outer < scope)
      (houter : Sees m outer env) : Sees m scope (bindings ++ env)

variable {m m₁ m₂ : Machine} {scope : ScopeId} {env : List (String × Value)}

namespace GrowsTo

theorem refl (m : Machine) : m.GrowsTo m := ⟨fun _ _ => rfl, Nat.le_refl _, rfl⟩

theorem trans (h : m.GrowsTo m₁) (h' : m₁.GrowsTo m₂) : m.GrowsTo m₂ where
  keeps i hi := (h'.keeps i (Nat.lt_of_lt_of_le hi h.grows)).trans (h.keeps i hi)
  grows := Nat.le_trans h.grows h'.grows
  silent := h'.silent.trans h.silent

/-- A scope that was not there may be changed. -/
theorem assign (h : m.GrowsTo m₁) (hscope : m.scopes.size ≤ scope) (x : String) (v : Value) :
    m.GrowsTo (m₁.assign scope x v) where
  keeps i hi := by
    have hne : scope ≠ i := Nat.ne_of_gt (Nat.lt_of_lt_of_le hi hscope)
    rw [getElem?_scopes_assign, if_neg hne]
    exact h.keeps i hi
  grows := by simpa using h.grows
  silent := h.silent

end GrowsTo

theorem growsTo_newIdentity (m : Machine) : m.GrowsTo m.newIdentity.2 :=
  ⟨fun _ _ => rfl, Nat.le_refl _, rfl⟩

theorem growsTo_entered (m : Machine) (c : Closure) (args : List Value) :
    m.GrowsTo (c.entered args m) := by
  refine ⟨fun i hi => ?_, ?_, rfl⟩
  · simp [Closure.entered, openScope, Array.getElem?_push, Nat.ne_of_lt hi]
  · simp [Closure.entered]

namespace Sees

theorem lt_size (h : m.Sees scope env) : scope < m.scopes.size := by
  cases h with
  | outermost h | inner h => exact lt_size_of_getElem? h

theorem lookup_eq (h : m.Sees scope env) (x : String) : m.lookup scope x = env.lookup x := by
  induction h with
  | @outermost scope bindings h =>
    cases hx : bindings.lookup x with
    | some v => exact lookup_of_bound h hx
    | none =>
      rw [lookup, h]
      simp only [hx]
  | @inner scope outer bindings env h hlt _ ih =>
    rw [List.lookup_append]
    cases hx : bindings.lookup x with
    | some v => exact lookup_of_bound h hx
    | none => exact (lookup_of_unbound h hx rfl hlt).trans ih

theorem keep (h : m.Sees scope env) (hm : Keeps m m₁) : m₁.Sees scope env := by
  induction h with
  | outermost h => exact .outermost ((hm _ (lt_size_of_getElem? h)).trans h)
  | inner h hlt _ ih => exact .inner ((hm _ (lt_size_of_getElem? h)).trans h) hlt ih

theorem grow (h : m.Sees scope env) (hm : m.GrowsTo m₁) : m₁.Sees scope env := h.keep hm.keeps

theorem entered {c : Closure} (h : m.Sees c.scope env) (args : List Value) :
    (c.entered args m).Sees m.scopes.size (c.bindings args ++ env) := by
  refine .inner ?_ h.lt_size (h.grow (m.growsTo_entered c args))
  rw [Closure.entered, openScope, Array.getElem?_push, if_pos rfl]

/-- A scope does not see what is bound in a newer one. -/
theorem assign_outside {scope' : ScopeId} (h : m.Sees scope env) (hlt : scope < scope')
    (x : String) (v : Value) : (m.assign scope' x v).Sees scope env := by
  induction h with
  | outermost h =>
    exact .outermost (by rw [getElem?_scopes_assign, if_neg (Nat.ne_of_gt hlt), h])
  | inner h hlt' _ ih =>
    refine .inner ?_ hlt' (ih (Nat.lt_trans hlt' hlt))
    rw [getElem?_scopes_assign, if_neg (Nat.ne_of_gt hlt), h]

theorem assign (h : m.Sees scope env) (x : String) (v : Value) :
    (m.assign scope x v).Sees scope ((x, v) :: env) := by
  cases h with
  | outermost h => exact .outermost (by rw [getElem?_scopes_assign, if_pos rfl, h]; rfl)
  | inner h hlt houter =>
    rw [← List.cons_append]
    exact .inner (by rw [getElem?_scopes_assign, if_pos rfl, h]; rfl) hlt
      (houter.assign_outside hlt x v)

end Sees

end Machine

open Eval

section Rules

variable {scope : ScopeId} {m : Machine} {Q : Value → Machine → Prop}
  {env : List (String × Value)} {x : Name} {v : Value}

namespace Expr

/-- What one layer gives over all sufficient depths, the expression gives. -/
theorem gives_of_layer {e : Expr}
    (h : Eval.Gives (fun d => Evaluator.layer (Expr.eval d) scope e) m Q) : e.Gives scope m Q := by
  obtain ⟨n, v, m', hdone, hQ⟩ := h
  refine ⟨n + 1, v, m', fun d hd => ?_, hQ⟩
  cases d with
  | zero => omega
  | succ d => exact hdone d (Nat.le_of_succ_le_succ hd)

theorem gives_of_meaning (hx : x.meaning scope m = .ok v) (hQ : Q v m) :
    (Expr.name x).Gives scope m Q := by
  refine ⟨1, v, m, fun d hd => ?_, hQ⟩
  cases d with
  | zero => omega
  | succ d =>
    show (Expr.name x).eval (d + 1) scope m = .done v m
    rw [Expr.eval_name, hx]
    rfl

theorem gives_name (h : m.Sees scope env) (hx : env.lookup x.text = some v) (hQ : Q v m) :
    (Expr.name x).Gives scope m Q :=
  gives_of_meaning (Name.meaning_of_lookup ((h.lookup_eq x.text).trans hx)) hQ

/-- A name that is not bound stands for the builtin of that name. -/
theorem gives_builtin {b : Builtin} (h : m.Sees scope env) (hx : env.lookup x.text = none)
    (hb : Builtin.ofName? x.text = some b) (hQ : Q (.builtin b) m) :
    (Expr.name x).Gives scope m Q := by
  refine gives_of_meaning ?_ hQ
  rw [Name.meaning, h.lookup_eq, hx]
  simp only [hb]

theorem gives_integer {t : Token} {n : Int64} (hQ : Q (.integer n) m) :
    (Expr.integer t n).Gives scope m Q := gives_of_layer (gives_of_done (fun _ => rfl) hQ)

theorem gives_function {t : Token} {xs : List Name} {body : Block}
    (hQ : ∀ id m₁, m.GrowsTo m₁ → Q (.function id ⟨xs, body, scope⟩) m₁) :
    (Expr.function t xs body).Gives scope m Q :=
  gives_of_layer (gives_of_done (fun _ => rfl) (hQ _ _ m.growsTo_newIdentity))

theorem allGive_nil {Q : List Value → Machine → Prop} (hQ : Q [] m) : AllGive [] scope m Q :=
  gives_of_done (fun _ => rfl) hQ

theorem allGive_cons {e : Expr} {es : List Expr} {Q : List Value → Machine → Prop}
    (h : e.Gives scope m fun v m₁ => AllGive es scope m₁ fun vs => Q (v :: vs)) :
    AllGive (e :: es) scope m Q :=
  Eval.Gives.bind (h.mono fun _ _ hes => Eval.Gives.bind (hes.mono fun _ _ hQ =>
    gives_of_done (fun _ => rfl) hQ))

theorem gives_array {t : Token} {es : List Expr}
    (h : AllGive es scope m fun vs m₁ => ∀ id m₂, m₁.GrowsTo m₂ → Q (.array id vs) m₂) :
    (Expr.array t es).Gives scope m Q :=
  gives_of_layer (Eval.Gives.bind (h.mono fun _ m₁ hQ =>
    gives_of_done (fun _ => rfl) (hQ _ _ m₁.growsTo_newIdentity)))

theorem gives_binary {t : Token} {op : BinaryOp} {e₁ e₂ : Expr}
    (h : e₁.Gives scope m fun v m₁ => e₂.Gives scope m₁ fun w m₂ =>
      ∃ u, op.apply v w = .ok u ∧ Q u m₂) : (Expr.binary t op e₁ e₂).Gives scope m Q := by
  refine gives_of_layer (Eval.Gives.bind (h.mono fun v m₁ h₂ => Eval.Gives.bind (h₂.mono ?_)))
  rintro w m₂ ⟨u, hu, hQ⟩
  refine gives_of_done (fun _ => ?_) hQ
  rw [hu]
  rfl

/-- One of the two branches of a conditional. -/
theorem gives_cond {t : Token} {e : Expr} {b b' : Block}
    (h : e.Gives scope m fun v m₁ =>
      Stmt.AllGive (if v.isTruthy then b.statements else b'.statements) scope .null m₁ Q) :
    (Expr.cond t e b (some b')).Gives scope m Q := by
  refine gives_of_layer (Eval.Gives.bind (h.mono fun v m₁ hbranch => ?_))
  cases hv : v.isTruthy with
  | true =>
    rw [hv] at hbranch
    exact hbranch
  | false =>
    rw [hv] at hbranch
    exact hbranch

theorem gives_call {t : Token} {e : Expr} {es : List Expr}
    (h : e.Gives scope m fun f m₁ => AllGive es scope m₁ fun vs m₂ => f.CallGives vs m₂ Q) :
    (Expr.call t e es).Gives scope m Q :=
  gives_of_layer (Eval.Gives.bind (h.mono fun _ _ hes => Eval.Gives.bind hes))

end Expr

namespace Stmt

theorem gives_bind {t : Token} {x : Name} {e : Expr}
    (h : e.Gives scope m fun v m₁ => Q v (m₁.assign scope x.text v)) :
    (Stmt.bind t x e).Gives scope m Q :=
  Eval.Gives.bind (h.mono fun _ _ hQ => gives_of_done (fun _ => rfl) hQ)

theorem gives_expr {t : Token} {e : Expr} (h : e.Gives scope m Q) :
    (Stmt.expr t e).Gives scope m Q := h

/-- A statement behind which others are carried out. -/
theorem allGive_cons {s : Stmt} {ss : List Stmt} {last : Value}
    (h : s.Gives scope m fun v m₁ => (∀ w, v ≠ .returned w) ∧ AllGive ss scope v m₁ Q) :
    AllGive (s :: ss) scope last m Q := by
  refine Eval.Gives.bind (h.mono ?_)
  rintro v m₁ ⟨hv, hss⟩
  cases v with
  | returned w => exact absurd rfl (hv w)
  | _ => exact hss

theorem allGive_single {s : Stmt} {last : Value} (h : s.Gives scope m Q) :
    AllGive [s] scope last m Q := by
  refine Eval.Gives.bind (h.mono fun v m₁ hQ => ?_)
  cases v with
  | _ => exact gives_of_done (fun _ => rfl) hQ

end Stmt

namespace Value

/-- What the body gives in a scope of its own, the function unwraps. -/
theorem callGives_function {id : Identity} {c : Closure} {args : List Value}
    (hsees : m.Sees c.scope env)
    (h : ∀ scope m₁, m.scopes.size ≤ scope → m.GrowsTo m₁ →
      m₁.Sees scope (c.bindings args ++ env) →
      Stmt.AllGive c.body.statements scope .null m₁ fun v m' => Q v.unwrap m') :
    (function id c).CallGives args m Q := by
  have hentered := h _ _ (Nat.le_refl _) (m.growsTo_entered c args) (hsees.entered args)
  have hbody : Eval.Gives (fun d => Evaluator.block (Expr.eval d) m.scopes.size c.body >>=
      fun v => pure v.unwrap) (c.entered args m) Q :=
    Eval.Gives.bind (hentered.mono fun _ _ hQ => gives_of_done (fun _ => rfl) hQ)
  exact hbody

theorem callGives_builtin {b : Builtin} {args : List Value} {v : Value} {m' : Machine}
    (h : b.call args m = .done v m') (hQ : Q v m') : (builtin b).CallGives args m Q :=
  gives_of_done (fun _ => h) hQ

/-- A builtin that makes an array. -/
theorem callGives_newArray {b : Builtin} {args vs : List Value}
    (h : b.call args m = Eval.newArray vs m)
    (hQ : ∀ id m₁, m.GrowsTo m₁ → Q (array id vs) m₁) : (builtin b).CallGives args m Q :=
  callGives_builtin h (hQ _ _ m.growsTo_newIdentity)

end Value

end Rules

/-- Called with these arguments in the machine, or in any that it has grown to, the value gives a
result as required, prints nothing and changes no scope that was there. -/
def Value.Computes (f : Value) (m : Machine) (args : List Value) (P : Value → Prop) : Prop :=
  ∀ m₁, m.GrowsTo m₁ → f.CallGives args m₁ fun v m₂ => P v ∧ m₁.GrowsTo m₂

end Monkey
