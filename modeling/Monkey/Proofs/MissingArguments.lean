import Monkey.Proofs.IdentityLaws
import Monkey.Session

/-!
Calls with fewer arguments than parameters. The scope of a call binds the parameters that have an
argument and no others, and it lies inside the scope in which the function was made. A parameter
without an argument is therefore looked up like any name that the call does not bind: in the scopes
around the function, then among the builtins, and only if it is nowhere found is it a fault.
-/

namespace Monkey

open Machine

/-- What a name stands for in a scope. -/
def Name.meaning (x : Name) (scope : ScopeId) (m : Machine) : Except Fault Value :=
  match m.lookup scope x.text with
  | some v => .ok v
  | none =>
    match Builtin.ofName? x.text with
    | some b => .ok (.builtin b)
    | none => .error (.unboundName x.text)

section Meaning

variable {x : Name} {scope scope' : ScopeId} {m m' : Machine}

theorem Expr.eval_name (d : Nat) (x : Name) (scope : ScopeId) (m : Machine) :
    (Expr.name x).eval (d + 1) scope m = Eval.ofExcept (x.meaning scope m) m := by
  have hresolve : (Expr.name x).eval (d + 1) scope = x.resolve scope := rfl
  have hlookup : Eval.lookup scope x.text m = .done (m.lookup scope x.text) m := rfl
  rw [hresolve, Name.resolve, Eval.bind_of_done hlookup, Name.meaning]
  cases m.lookup scope x.text with
  | some v => rfl
  | none => cases Builtin.ofName? x.text <;> rfl

theorem Name.meaning_congr (h : m.lookup scope x.text = m'.lookup scope' x.text) :
    x.meaning scope m = x.meaning scope' m' := by
  rw [meaning, meaning, h]

theorem Name.meaning_of_lookup {v : Value} (h : m.lookup scope x.text = some v) :
    x.meaning scope m = .ok v := by
  rw [meaning, h]

/-- Only a name that no scope binds and no builtin has is a fault. -/
theorem Name.failed_iff : Eval.ofExcept (x.meaning scope m) m' = .failed (.unboundName x.text) m' ↔
    m.lookup scope x.text = none ∧ Builtin.ofName? x.text = none := by
  rw [meaning]
  cases m.lookup scope x.text with
  | some v => simp [Eval.ofExcept, Eval.pure_apply]
  | none =>
    cases Builtin.ofName? x.text with
    | some b => simp [Eval.ofExcept, Eval.pure_apply]
    | none => simp [Eval.ofExcept, Eval.fail]

end Meaning

/-- From the first machine to the second, all that may have happened in the scope was done but that
this name was bound there: expressions were evaluated, values called and other names bound. -/
inductive Machine.Spares (scope : ScopeId) (x : String) (m : Machine) : Machine → Prop
  | start : Spares scope x m m
  | eval {m₁ m₂ : Machine} {d : Nat} {e : Expr} (h : Spares scope x m m₁)
      (hx : x ∉ boundNames e.ownStatements) (he : (e.eval d scope m₁).EndsIn m₂) :
      Spares scope x m m₂
  | call {m₁ m₂ : Machine} {d : Nat} {callee : Value} {args : List Value}
      (h : Spares scope x m m₁)
      (hc : (Evaluator.apply (Expr.eval d) callee args m₁).EndsIn m₂) : Spares scope x m m₂
  | bind {m₁ : Machine} {y : String} (v : Value) (h : Spares scope x m m₁) (hy : x ≠ y) :
      Spares scope x m (m₁.assign scope y v)
  | same {m₁ m₂ : Machine} (h : Spares scope x m m₁) (hs : SameScopes m₁ m₂) :
      Spares scope x m m₂

namespace Machine

variable {m m₁ m₂ m' : Machine} {scope : ScopeId} {x : String} {names : List String}

theorem Frame.append {more : List String} (h : Frame scope names m m₁)
    (h' : Frame scope more m₁ m₂) : Frame scope (names ++ more) m m₂ :=
  (frame_accumulates scope _).trans (h.mono (List.subset_append_left names more))
    (h'.mono (List.subset_append_right names more))

theorem Spares.frame (h : Spares scope x m m') : ∃ names, x ∉ names ∧ Frame scope names m m' := by
  induction h with
  | start => exact ⟨[], List.not_mem_nil, (frame_accumulates scope []).refl m⟩
  | @eval m₁ m₂ d e _ hx he ih =>
    obtain ⟨names, hnames, hframe⟩ := ih
    have hlater : Frame scope (boundNames e.ownStatements) m₁ m₂ := Expr.eval_framed d scope e he
    exact ⟨_, by simp [hnames, hx], hframe.append hlater⟩
  | @call m₁ m₂ d callee args _ hc ih =>
    obtain ⟨names, hnames, hframe⟩ := ih
    have hlater : Frame scope [] m₁ m₂ := (Expr.eval_framed d).binds_apply callee args scope [] hc
    exact ⟨_, by simp [hnames], hframe.append hlater⟩
  | @bind m₁ y v _ hy ih =>
    obtain ⟨names, hnames, hframe⟩ := ih
    exact ⟨_, by simp [hnames, hy], hframe.append (frame_assign m₁ scope y v)⟩
  | same _ hs ih =>
    obtain ⟨names, hnames, hframe⟩ := ih
    have hlater : Frame scope [] _ _ := .of_scopes_eq hs
    exact ⟨_, by simp [hnames], hframe.append hlater⟩

/-- What a name is bound to from a scope outward depends on this scope and older ones. -/
theorem Keeps.lookup_eq (h : Keeps m m') (hscope : scope < m.scopes.size) (x : String) :
    m'.lookup scope x = m.lookup scope x := by
  -- The way outward leads to ever older scopes, and all of these are kept.
  induction scope using Nat.strongRecOn with
  | ind scope ih =>
    rw [lookup, lookup, h scope hscope]
    cases m.scopes[scope]? with
    | none => rfl
    | some s =>
      cases hx : s.bindings.lookup x with
      | some v => simp only [hx]
      | none =>
        cases ho : s.outer with
        | none => simp only [hx, ho]
        | some outer =>
          simp only [hx, ho]
          split
          · next hlt => exact ih outer hlt (Nat.lt_trans hlt hscope)
          · rfl

theorem lookup_of_size_le (h : m.scopes.size ≤ scope) (x : String) : m.lookup scope x = none := by
  rw [lookup, Array.getElem?_eq_none h]

/-- From a scope that was just opened, a name is looked up among its bindings and then in the scope
around it, as long as it was not bound since. -/
theorem Frame.lookup_openScope {outer : ScopeId} {bindings : List (String × Value)}
    (h : Frame m.scopes.size names (m.openScope (some outer) bindings).2 m') (hx : x ∉ names) :
    m'.lookup m.scopes.size x = (bindings.lookup x).or (m.lookup outer x) := by
  have hopened : (m.openScope (some outer) bindings).2.scopes[m.scopes.size]? =
      some ⟨bindings, some outer⟩ := by
    rw [openScope, Array.getElem?_push, if_pos rfl]
  obtain ⟨s, hs, houter, hbindings⟩ := h.own _ hopened
  have hkeeps := h.keeps_of_openScope.2
  rw [lookup, hs]
  simp only [houter, hbindings x hx]
  cases bindings.lookup x with
  | some v => rfl
  | none =>
    by_cases hlt : outer < m.scopes.size
    · simpa [hlt] using hkeeps.lookup_eq hlt x
    · simpa [hlt] using (lookup_of_size_le (Nat.le_of_not_lt hlt) x).symm

end Machine

namespace Closure

/-- The parameters that have an argument, bound to it. -/
def bindings (c : Closure) (args : List Value) : List (String × Value) :=
  ((c.parameters.map Name.text).zip args).reverse

/-- The machine in which the body of a call begins. -/
def entered (c : Closure) (args : List Value) (m : Machine) : Machine :=
  (m.openScope (some c.scope) (c.bindings args)).2

section Distinct

variable {c : Closure} (hdistinct : (c.parameters.map Name.text).Nodup) {args : List Value}
  {i : Nat} {x : Name} (hx : c.parameters[i]? = some x)

include hdistinct hx

theorem index_eq_of_text {j : Nat} (hj : (c.parameters.map Name.text)[j]? = some x.text) :
    j = i := by
  have hi : (c.parameters.map Name.text)[i]? = some x.text := by rw [List.getElem?_map, hx]; rfl
  obtain ⟨hlt, -⟩ := List.getElem?_eq_some_iff.mp hj
  exact (List.getElem?_inj hlt hdistinct).mp (hj.trans hi.symm)

theorem lookup_bindings : (c.bindings args).lookup x.text = args[i]? := by
  have hi : (c.parameters.map Name.text)[i]? = some x.text := by rw [List.getElem?_map, hx]; rfl
  cases hv : args[i]? with
  | some v =>
    refine lookup_reverse_zip hi hv fun j hij _ hj => ?_
    exact absurd (index_eq_of_text hdistinct hx hj) (Nat.ne_of_gt hij)
  | none =>
    rw [bindings, List.lookup_eq_none_iff]
    intro p hp
    obtain ⟨j, hj⟩ := List.mem_iff_getElem?.mp (List.mem_reverse.mp hp)
    obtain ⟨hname, hvalue⟩ := List.getElem?_zip_eq_some.mp hj
    refine bne_iff_ne.mpr fun heq => ?_
    rw [← heq] at hname
    rw [index_eq_of_text hdistinct hx hname, hv] at hvalue
    cases hvalue

end Distinct

/-- In the scope of a call of a function whose parameters have different names, as long as a
parameter was not bound anew there, it stands for its argument, and without one for whatever its
name stands for in the scope in which the function was made: so it is a fault just if no scope from
there outward binds the name and no builtin has it. -/
theorem eval_parameter {c : Closure} (hdistinct : (c.parameters.map Name.text).Nodup)
    (args : List Value) {m m' : Machine} {i : Nat} {x : Name} (hx : c.parameters[i]? = some x)
    (h : Spares m.scopes.size x.text (c.entered args m) m') :
    (∀ (eval : Evaluator) (id : Identity), eval.apply (.function id c) args m =
      (eval.block m.scopes.size c.body >>= fun v => pure v.unwrap) (c.entered args m)) ∧
    (∀ d v, args[i]? = some v → (Expr.name x).eval (d + 1) m.scopes.size m' = .done v m') ∧
    (args.length ≤ i → ∀ d,
      (Expr.name x).eval (d + 1) m.scopes.size m' = Eval.ofExcept (x.meaning c.scope m) m' ∧
      ((Expr.name x).eval (d + 1) m.scopes.size m' = .failed (.unboundName x.text) m' ↔
        m.lookup c.scope x.text = none ∧ Builtin.ofName? x.text = none)) := by
  obtain ⟨names, hnames, hframe⟩ := h.frame
  have hlookup := hframe.lookup_openScope hnames
  rw [lookup_bindings hdistinct hx] at hlookup
  refine ⟨fun eval id => rfl, fun d v hv => ?_, fun hmissing d => ?_⟩
  · rw [hv, Option.some_or] at hlookup
    rw [Expr.eval_name, Name.meaning_of_lookup hlookup]
    rfl
  · rw [List.getElem?_eq_none hmissing, Option.none_or] at hlookup
    have heval : (Expr.name x).eval (d + 1) m.scopes.size m' =
        Eval.ofExcept (x.meaning c.scope m) m' := by
      rw [Expr.eval_name, Name.meaning_congr hlookup]
    exact ⟨heval, by rw [heval, Name.failed_iff]⟩

/-- A function of `x` and `y`, called with one argument where nothing is bound, after `z` was bound
in its body. -/
theorem eval_parameter_unbound : ∃ (c : Closure) (x y : Name) (m' : Machine),
    (c.parameters.map Name.text).Nodup ∧ c.parameters = [x, y] ∧ x.text = "x" ∧ y.text = "y" ∧
    Spares 1 "x" (c.entered [.integer 1] initial) m' ∧
    Spares 1 "y" (c.entered [.integer 1] initial) m' ∧
    (Expr.name x).eval 1 1 m' = .done (.integer 1) m' ∧
    (Expr.name y).eval 1 1 m' = .failed (.unboundName "y") m' := by
  let name (x : String) : Name := ⟨⟨.ident, x, Span.empty 0⟩⟩
  let c : Closure := ⟨[name "x", name "y"], .mk (.endOfInput 0) [], 0⟩
  let m' : Machine := (c.entered [.integer 1] initial).assign 1 "z" .null
  have hdistinct : (c.parameters.map Name.text).Nodup := by decide
  have hx : Spares 1 "x" (c.entered [.integer 1] initial) m' := .bind .null .start (by decide)
  have hy : Spares 1 "y" (c.entered [.integer 1] initial) m' := .bind .null .start (by decide)
  have hgiven :=
    eval_parameter (m := initial) (x := name "x") hdistinct [.integer 1] (i := 0) rfl hx
  have hmissing :=
    eval_parameter (m := initial) (x := name "y") hdistinct [.integer 1] (i := 1) rfl hy
  have hfree : initial.lookup globalScope "y" = none := by
    rw [lookup]
    rfl
  exact ⟨c, name "x", name "y", m', hdistinct, rfl, rfl, rfl, hx, hy, hgiven.2.1 0 _ rfl,
    (hmissing.2.2 (Nat.le_refl 1) 0).2.mpr ⟨hfree, rfl⟩⟩

/-- Where `y` is bound around the function, its parameter `y` is not unbound: called with one
argument, the function adds what it finds there. -/
theorem eval_parameter_bound_around : (∃ (c : Closure) (y : Name) (m : Machine),
      (c.parameters.map Name.text).Nodup ∧ c.parameters[1]? = some y ∧ y.text = "y" ∧
      (Expr.name y).eval 1 m.scopes.size (c.entered [.integer 1] m) ≠
        .failed (.unboundName "y") (c.entered [.integer 1] m)) ∧
    (run 4 globalScope "let y = 5; let add = fn(x, y) \x7b x + y \x7d; add(1)" initial).map
      (fun answer => answer.1.lines) = some ["6"] := by
  let name (x : String) : Name := ⟨⟨.ident, x, Span.empty 0⟩⟩
  let c : Closure := ⟨[name "x", name "y"], .mk (.endOfInput 0) [], 0⟩
  let m : Machine := initial.assign globalScope "y" (.integer 5)
  have hframe : Frame m.scopes.size [] (c.entered [.integer 1] m) (c.entered [.integer 1] m) :=
    (frame_accumulates m.scopes.size []).refl _
  have houter : m.lookup globalScope "y" = some (.integer 5) := lookup_of_bound rfl rfl
  have hbound : (c.entered [.integer 1] m).lookup m.scopes.size "y" = some (.integer 5) := by
    rw [hframe.lookup_openScope nofun]
    exact houter
  refine ⟨⟨c, name "y", m, by decide, rfl, rfl, ?_⟩, by decide +kernel⟩
  rw [Expr.eval_name, Name.meaning_of_lookup hbound]
  nofun

end Closure

end Monkey
