import Monkey.Proofs.Effect
import Monkey.Proofs.Occurrence

/-!
Which bindings an evaluation can change. An evaluation in a scope rebinds names of that scope only,
and only those that a `let` outside every function literal binds; the scopes of the calls that it
makes are new. So no call changes a scope that was there before it, whatever it is given.
-/

namespace Monkey

namespace Machine

/-- What a name is bound to in this very scope. -/
def bound? (m : Machine) (scope : ScopeId) (x : String) : Option Value :=
  m.scopes[scope]?.bind (·.bindings.lookup x)

/-- Every scope of the first machine is in the second as it was. -/
def Keeps (m m' : Machine) : Prop := ∀ i < m.scopes.size, m'.scopes[i]? = m.scopes[i]?

/-- From the first machine to the second only these names of this one scope are rebound, and scopes
may be added. -/
structure Frame (scope : ScopeId) (names : List String) (m m' : Machine) : Prop where
  grows : m.scopes.size ≤ m'.scopes.size
  others : ∀ i < m.scopes.size, i ≠ scope → m'.scopes[i]? = m.scopes[i]?
  own : ∀ s, m.scopes[scope]? = some s → ∃ s', m'.scopes[scope]? = some s' ∧ s'.outer = s.outer ∧
    ∀ x ∉ names, s'.bindings.lookup x = s.bindings.lookup x

variable {m m' : Machine} {scope : ScopeId} {names : List String}

theorem Frame.of_scopes_eq (h : m'.scopes = m.scopes) : Frame scope names m m' := by
  refine ⟨by simp [h], fun i _ _ => by rw [h], ?_⟩
  intro s hs
  exact ⟨s, by rw [h, hs], rfl, fun _ _ => rfl⟩

theorem Frame.of_keeps (hsize : m.scopes.size ≤ m'.scopes.size) (h : Keeps m m') :
    Frame scope names m m' := by
  refine ⟨hsize, fun i hi _ => h i hi, ?_⟩
  intro s hs
  have hlt := lt_size_of_getElem? hs
  exact ⟨s, by rw [h scope hlt, hs], rfl, fun _ _ => rfl⟩

theorem frame_accumulates (scope : ScopeId) (names : List String) :
    Accumulates (Frame scope names) where
  refl m := .of_scopes_eq rfl
  trans {m₁ m₂ m₃} h₁ h₂ := by
    refine ⟨Nat.le_trans h₁.grows h₂.grows, ?_, ?_⟩
    · intro i hi hne
      have hi' : i < m₂.scopes.size := Nat.lt_of_lt_of_le hi h₁.grows
      rw [h₂.others i hi' hne, h₁.others i hi hne]
    · intro s hs
      obtain ⟨s', hs', ho', hb'⟩ := h₁.own s hs
      obtain ⟨s'', hs'', ho'', hb''⟩ := h₂.own s' hs'
      exact ⟨s'', hs'', ho''.trans ho', fun x hx => (hb'' x hx).trans (hb' x hx)⟩

theorem Frame.mono {names' : List String} (h : Frame scope names m m') (hn : names ⊆ names') :
    Frame scope names' m m' := by
  refine ⟨h.grows, h.others, ?_⟩
  intro s hs
  obtain ⟨s', hs', ho, hb⟩ := h.own s hs
  exact ⟨s', hs', ho, fun x hx => hb x fun hmem => hx (hn hmem)⟩

/-- Rebinding a name is within the frame of that name. -/
theorem frame_assign (m : Machine) (scope : ScopeId) (x : String) (v : Value) :
    Frame scope [x] m (m.assign scope x v) := by
  refine ⟨by simp, ?_, ?_⟩
  · intro i _ hne
    rw [getElem?_scopes_assign, if_neg (Ne.symm hne)]
  · intro s hs
    rw [getElem?_scopes_assign, if_pos rfl, hs]
    refine ⟨_, rfl, rfl, ?_⟩
    intro y hy
    have hne : (y == x) = false := by simpa using hy
    simp only [List.lookup_cons, hne]

theorem bound?_assign_self (m : Machine) (hscope : scope < m.scopes.size) (x : String) (v : Value) :
    (m.assign scope x v).bound? scope x = some v := by
  rw [bound?, getElem?_scopes_assign, if_pos rfl, Array.getElem?_eq_getElem hscope]
  simp

theorem Frame.bound?_eq {x : String} (h : Frame scope names m m') (hscope : scope < m.scopes.size)
    (hx : x ∉ names) : m'.bound? scope x = m.bound? scope x := by
  have hs : m.scopes[scope]? = some m.scopes[scope] := Array.getElem?_eq_getElem hscope
  obtain ⟨s', hs', -, hbound⟩ := h.own _ hs
  rw [bound?, bound?, hs, hs']
  exact hbound x hx

/-- What happens in a scope that was just opened leaves all earlier scopes alone. -/
theorem Frame.keeps_of_openScope {outer : Option ScopeId} {bindings : List (String × Value)}
    (h : Frame m.scopes.size names (m.openScope outer bindings).2 m') :
    m.scopes.size ≤ m'.scopes.size ∧ Keeps m m' := by
  have hsize := m.size_scopes_openScope outer bindings
  have hgrows := h.grows
  refine ⟨by omega, ?_⟩
  intro i hi
  rw [h.others i (by omega) (by omega)]
  simp [openScope, Array.getElem?_push, Nat.ne_of_lt hi]

end Machine

open Machine

/-- An evaluation changes no earlier scope but this one, and there rebinds only names that these
statements bind. -/
def Eval.Binds {α : Type} (scope : ScopeId) (ss : List Stmt) (x : Eval α) : Prop :=
  x.Leads (Frame scope (boundNames ss))

namespace Eval

variable {α β : Type} {scope : ScopeId} {ss ts : List Stmt}

theorem Binds.mono {x : Eval α} (h : x.Binds scope ss) (hs : ss ⊆ ts) : x.Binds scope ts :=
  Leads.mono h fun _ _ hframe => hframe.mono (boundNames_mono hs)

theorem binds_pure (a : α) : (pure a : Eval α).Binds scope ss :=
  leads_pure (frame_accumulates _ _) a

theorem binds_fail (f : Fault) : (fail f : Eval α).Binds scope ss :=
  leads_fail (frame_accumulates _ _) f

theorem binds_of_sameScopes {x : Eval α} (h : x.Leads SameScopes) : x.Binds scope ss :=
  Leads.mono h fun _ _ hscopes => .of_scopes_eq hscopes

theorem binds_ofExcept (r : Except Fault α) : (ofExcept r).Binds scope ss :=
  binds_of_sameScopes (ofExcept_sameScopes r)

theorem Binds.bind {x : Eval α} {f : α → Eval β} (hx : x.Binds scope ss)
    (hf : ∀ a, (f a).Binds scope ss) : (x >>= f).Binds scope ss :=
  Leads.bind (frame_accumulates _ _) hx hf

theorem Binds.append {x : Eval α} {f : α → Eval β} (hx : x.Binds scope ss)
    (hf : ∀ a, (f a).Binds scope ts) : (x >>= f).Binds scope (ss ++ ts) := by
  have hx' : x.Binds scope (ss ++ ts) := hx.mono (List.subset_append_left ss ts)
  exact hx'.bind fun a => (hf a).mono (List.subset_append_right ss ts)

end Eval

open Eval

namespace Evaluator

/-- An evaluator whose evaluations bind no names but those that the expression itself binds. -/
def Framed (eval : Evaluator) : Prop := ∀ scope e, (eval scope e).Binds scope e.ownStatements

variable {eval : Evaluator} (h : eval.Framed)

include h

theorem Framed.expressions (scope : ScopeId) (es : List Expr) :
    (eval.expressions scope es).Binds scope (Expr.allOwnStatements es) := by
  induction es with
  | nil => exact binds_pure []
  | cons e es ih =>
    refine (h scope e).append fun v => ?_
    exact ih.bind fun vs => binds_pure (v :: vs)

theorem Framed.pairs (scope : ScopeId) (content : Hash Value) (ps : List (Expr × Expr)) :
    (eval.pairs scope content ps).Binds scope (Expr.pairStatements ps) := by
  induction ps generalizing content with
  | nil => exact binds_pure content
  | cons p ps ih =>
    obtain ⟨key, value⟩ := p
    refine (h scope key).append fun k => ?_
    cases k.key? with
    | none => exact binds_fail _
    | some filed => exact (h scope value).append fun v => ih _

theorem Framed.statement (scope : ScopeId) (s : Stmt) :
    (eval.statement scope s).Binds scope s.ownStatements := by
  cases s with
  | bind t x value =>
    have hvalue : (eval scope value).Binds scope (Stmt.bind t x value).ownStatements :=
      (h scope value).mono (List.subset_cons_self _ _)
    refine hvalue.bind fun v => ?_
    have hassign : (Eval.assign scope x.text v).Binds scope [.bind t x value] :=
      leads_update fun m => frame_assign m scope x.text v
    have hself : [Stmt.bind t x value] ⊆ (Stmt.bind t x value).ownStatements := by
      simp [Stmt.ownStatements]
    exact (hassign.mono hself).bind fun _ => binds_pure v
  | «return» t value =>
    have hvalue : (eval scope value).Binds scope (Stmt.return t value).ownStatements :=
      (h scope value).mono (List.subset_cons_self _ _)
    exact hvalue.bind fun v => binds_pure _
  | expr t value => exact (h scope value).mono (List.subset_cons_self _ _)

theorem Framed.statements (scope : ScopeId) (last : Value) (ss : List Stmt) :
    (eval.statements scope last ss).Binds scope (Stmt.allOwnStatements ss) := by
  induction ss generalizing last with
  | nil => exact binds_pure last
  | cons s ss ih =>
    refine (h.statement scope s).append fun v => ?_
    split
    · exact binds_pure _
    · exact ih _

theorem Framed.block (scope : ScopeId) (b : Block) :
    (eval.block scope b).Binds scope b.ownStatements := by
  rw [b.ownStatements_eq]
  exact h.statements scope .null b.statements

/-- A call leaves every scope alone that was there before it. -/
theorem Framed.apply (callee : Value) (args : List Value) :
    (eval.apply callee args).Leads fun m m' => m.scopes.size ≤ m'.scopes.size ∧ Keeps m m' := by
  intro m m' hends
  cases callee with
  | function id c =>
    have hbody : (eval.block m.scopes.size c.body >>= fun v => pure v.unwrap : Eval Value).Binds
        m.scopes.size c.body.ownStatements :=
      (h.block _ c.body).bind fun v => binds_pure _
    exact (hbody hends).keeps_of_openScope
  | builtin b =>
    have hscopes : m'.scopes = m.scopes := b.call_sameScopes args hends
    exact ⟨Nat.le_of_eq (by rw [hscopes]), fun i _ => by rw [hscopes]⟩
  | _ =>
    cases hends
    exact ⟨Nat.le_refl _, fun i _ => rfl⟩

theorem Framed.binds_apply (callee : Value) (args : List Value) (scope : ScopeId)
    (ss : List Stmt) : (eval.apply callee args).Binds scope ss :=
  Leads.mono (h.apply callee args) fun _ _ hkeeps => .of_keeps hkeeps.1 hkeeps.2

/-- If the level below binds only names that its expressions bind, then so does this one. -/
theorem Framed.layer : Framed eval.layer := by
  intro scope e
  cases e with
  | name x => exact binds_of_sameScopes (x.resolve_sameScopes scope)
  | integer t n => exact binds_pure _
  | string t => exact binds_pure _
  | boolean t b => exact binds_pure _
  | function t parameters body => exact binds_of_sameScopes (newFunction_sameScopes _)
  | array t elements =>
    exact (h.expressions scope elements).bind fun vs => binds_of_sameScopes (newArray_sameScopes vs)
  | hash t ps => exact (h.pairs scope ∅ ps).bind fun content =>
      binds_of_sameScopes (newHash_sameScopes content)
  | unary t op operand => exact (h scope operand).bind fun v => binds_ofExcept _
  | binary t op left right =>
    refine (h scope left).append fun v => ?_
    exact (h scope right).bind fun w => binds_ofExcept (op.apply v w)
  | cond t condition consequence alternative =>
    cases alternative with
    | none =>
      refine (h scope condition).append fun v => ?_
      split
      · exact h.block scope consequence
      · exact binds_pure _
    | some alternative =>
      refine (h scope condition).append fun v => ?_
      split
      · exact (h.block scope consequence).mono (List.subset_append_left _ _)
      · exact (h.block scope alternative).mono (List.subset_append_right _ _)
  | call t callee arguments =>
    refine (h scope callee).append fun f => ?_
    exact (h.expressions scope arguments).bind fun vs => h.binds_apply f vs scope _
  | index t collection position =>
    refine (h scope collection).append fun v => ?_
    exact (h scope position).bind fun w => binds_ofExcept (v.index w)

end Evaluator

theorem Expr.eval_framed (depth : Nat) : Evaluator.Framed (Expr.eval depth) := by
  induction depth with
  | zero =>
    intro scope e
    exact leads_unfinished
  | succ depth ih => exact ih.layer

/-- Whatever the scopes hold, an evaluation in one of them leaves the others and all outer links
alone and rebinds in its own only names that a `let` outside every function literal binds; and a
call, of any value with any arguments, leaves all scopes alone. -/
theorem evaluation_frame (depth : Nat) (scope : ScopeId) (m m' : Machine) :
    (∀ e : Expr, (e.eval depth scope m).EndsIn m' →
      Frame scope (boundNames e.ownStatements) m m') ∧
    (∀ s : Stmt, (Evaluator.statement (Expr.eval depth) scope s m).EndsIn m' →
      Frame scope (boundNames s.ownStatements) m m') ∧
    (∀ b : Block, (Evaluator.block (Expr.eval depth) scope b m).EndsIn m' →
      Frame scope (boundNames b.ownStatements) m m') ∧
    (∀ (callee : Value) (args : List Value),
      (Evaluator.apply (Expr.eval depth) callee args m).EndsIn m' → Keeps m m') := by
  have h : Evaluator.Framed (Expr.eval depth) := Expr.eval_framed depth
  refine ⟨?_, ?_, ?_, ?_⟩
  · intro e hends
    exact h scope e hends
  · intro s hends
    exact h.statement scope s hends
  · intro b hends
    exact h.block scope b hends
  · intro callee args hends
    exact (h.apply callee args hends).2

/-- The call `fn(x) { let b = 2; }(1)` as an expression, as the value of `let a`, in a block, and by
itself: its scope is new, and around it only `a` is bound. -/
theorem evaluation_frame_let_call : ∃ m₁ m₂ m₃ m₄ : Machine, m₂.scopes.size = 2 ∧
    Frame 0 [] initial m₁ ∧ Frame 0 ["a"] initial m₂ ∧ Frame 0 ["a"] initial m₃ ∧
    Keeps initial m₄ := by
  let t := Token.endOfInput 0
  let name (x : String) : Name := ⟨⟨.ident, x, Span.empty 0⟩⟩
  let c : Closure := ⟨[name "x"], .mk t [.bind t (name "b") (.integer t 2)], 0⟩
  let e : Expr := .call t (.function t c.parameters c.body) [.integer t 1]
  let s : Stmt := .bind t (name "a") e
  have he := (evaluation_frame 3 0 initial _).1 e (.of_done rfl)
  have hs := (evaluation_frame 3 0 initial _).2.1 s (.of_done rfl)
  have hb := (evaluation_frame 3 0 initial _).2.2.1 (.mk t [s]) (.of_done rfl)
  have ha := (evaluation_frame 3 0 initial _).2.2.2 (.function 0 c) [.integer 1] (.of_done rfl)
  exact ⟨_, _, _, _, rfl, he, hs, hb, ha⟩

end Monkey
