import Monkey.Proofs.Effect
import Monkey.Proofs.RelocatedValue
import Monkey.Session

/-!
Running does not look at spans either, nor at what has been printed before. A moved program on a
machine whose functions are moved and that has printed some lines more does what the program does,
up to these lines and the places of the functions that it makes.
-/

namespace Monkey

variable (σ : Span → Span) (earlier : Array String)

def Scope.move (s : Scope) : Scope := ⟨s.bindings.map (Prod.map id (Value.move σ)), s.outer⟩

theorem Scope.lookup_move (s : Scope) (x : String) :
    (s.move σ).bindings.lookup x = (s.bindings.lookup x).map (Value.move σ) := by
  obtain ⟨bindings, outer⟩ := s
  simp only [Scope.move]
  induction bindings with
  | nil => rfl
  | cons b bindings ih =>
    obtain ⟨y, v⟩ := b
    simp only [List.map_cons, Prod.map, id, List.lookup_cons, ih]
    cases x == y <;> rfl

namespace Machine

/-- The same machine with its functions in another place and some lines printed before. -/
def carry (m : Machine) : Machine :=
  ⟨m.scopes.map (Scope.move σ), earlier ++ m.printed, m.nextIdentity⟩

theorem openScope_carry (m : Machine) (outer : Option ScopeId) (bindings : List (String × Value)) :
    (m.carry σ earlier).openScope outer (bindings.map (Prod.map id (Value.move σ))) =
      ((m.openScope outer bindings).1, (m.openScope outer bindings).2.carry σ earlier) := by
  simp [openScope, carry, Scope.move]

theorem assign_carry (m : Machine) (scope : ScopeId) (x : String) (v : Value) :
    (m.carry σ earlier).assign scope x (v.move σ) = (m.assign scope x v).carry σ earlier := by
  simp only [assign, carry, mk.injEq, and_true]
  apply Array.ext_getElem?
  intro i
  simp only [Array.getElem?_modify, Array.getElem?_map]
  split
  · cases m.scopes[i]? <;> simp [Scope.move]
  · rfl

theorem lookup_carry (m : Machine) (scope : ScopeId) (x : String) :
    (m.carry σ earlier).lookup scope x = (m.lookup scope x).map (Value.move σ) := by
  induction scope using Nat.strongRecOn with
  | ind scope ih =>
    have hscope : (m.carry σ earlier).scopes[scope]? = m.scopes[scope]?.map (Scope.move σ) :=
      Array.getElem?_map
    rw [lookup, lookup, hscope]
    cases m.scopes[scope]? with
    | none => rfl
    | some s =>
      simp only [Option.map_some, Scope.lookup_move]
      cases s.bindings.lookup x with
      | some v => rfl
      | none =>
        simp only [Option.map_none, Scope.move]
        cases s.outer with
        | none => rfl
        | some outer =>
          simp only
          split
          · next hlt => exact ih outer hlt
          · rfl

end Machine

/-- The same outcome with the functions of the result and the machine in another place. -/
def Outcome.carry {α β : Type} (f : α → β) : Outcome α → Outcome β
  | .done a m => .done (f a) (m.carry σ earlier)
  | .failed e m => .failed e (m.carry σ earlier)
  | .unfinished => .unfinished

variable {σ earlier} in
theorem Outcome.exists_of_carry_eq_done {α β : Type} {f : α → β} {o : Outcome α} {b : β}
    {m' : Machine} (h : o.carry σ earlier f = .done b m') :
    ∃ a m, o = .done a m ∧ f a = b ∧ m.carry σ earlier = m' := by
  cases o with
  | done a m =>
    injection h with ha hm
    exact ⟨a, m, rfl, ha, hm⟩
  | failed e m => cases h
  | unfinished => cases h

/-- From a carried machine the second evaluation does what the first does. -/
def Eval.Carries {α β : Type} (f : α → β) (x : Eval α) (y : Eval β) : Prop :=
  ∀ m : Machine, y (m.carry σ earlier) = (x m).carry σ earlier f

namespace Eval

variable {σ earlier} {α α' β β' : Type} {f : α → α'} {g : β → β'}

theorem carries_pure (a : α) : Carries σ earlier f (pure a) (pure (f a)) := fun _ => rfl

theorem carries_fail (e : Fault) : Carries σ earlier f (fail e) (fail e) := fun _ => rfl

theorem carries_ofExcept (r : Except Fault α) :
    Carries σ earlier f (ofExcept r) (ofExcept (r.map f)) := by
  cases r with
  | ok a => exact carries_pure a
  | error e => exact carries_fail e

theorem Carries.bind {x : Eval α} {y : Eval α'} {u : α → Eval β} {u' : α' → Eval β'}
    (h : Carries σ earlier f x y) (hu : ∀ a, Carries σ earlier g (u a) (u' (f a))) :
    Carries σ earlier g (x >>= u) (y >>= u') := by
  intro m
  rw [bind_apply, bind_apply, h m]
  cases x m with
  | done a m₁ => exact hu a m₁
  | failed e m₁ => rfl
  | unfinished => rfl

theorem carries_openScope (outer : ScopeId) (bindings : List (String × Value)) :
    Carries σ earlier id (openScope (some outer) bindings)
      (openScope (some outer) (bindings.map (Prod.map id (Value.move σ)))) := by
  intro m
  simp only [openScope, update, Machine.openScope_carry]
  rfl

theorem carries_assign (scope : ScopeId) (x : String) (v : Value) :
    Carries σ earlier id (assign scope x v) (assign scope x (v.move σ)) := by
  intro m
  simp only [assign, update, Machine.assign_carry]
  rfl

theorem carries_lookup (scope : ScopeId) (x : String) :
    Carries σ earlier (Option.map (Value.move σ)) (lookup scope x) (lookup scope x) := by
  intro m
  simp only [lookup, update, Machine.lookup_carry]
  rfl

theorem carries_newIdentity : Carries σ earlier id newIdentity newIdentity := fun _ => rfl

theorem carries_print (line : String) : Carries σ earlier id (print line) (print line) := by
  intro m
  simp only [print, update, Machine.print, Machine.carry, Array.append_push, Outcome.carry, id]

theorem carries_newArray (vs : List Value) :
    Carries σ earlier (Value.move σ) (newArray vs) (newArray (vs.map (Value.move σ))) := by
  refine carries_newIdentity.bind fun i => ?_
  show Carries σ earlier _ (pure (Value.array i vs))
    (pure (Value.array i (vs.map (Value.move σ))))
  rw [← Value.move_array]
  exact carries_pure (Value.array i vs)

theorem carries_newHash (h : Hash Value) :
    Carries σ earlier (Value.move σ) (newHash h) (newHash (h.map (Value.move σ))) := by
  refine carries_newIdentity.bind fun i => ?_
  show Carries σ earlier _ (pure (Value.hash i h))
    (pure (Value.hash i (h.map (Value.move σ))))
  rw [← Value.move_hash]
  exact carries_pure (Value.hash i h)

theorem carries_newFunction (c : Closure) :
    Carries σ earlier (Value.move σ) (newFunction c) (newFunction (c.move σ)) :=
  carries_newIdentity.bind fun _ => carries_pure (Value.function _ c)

end Eval

open Eval

variable {σ earlier}

theorem Name.resolve_carries (x : Name) (scope : ScopeId) :
    Carries σ earlier (Value.move σ) (x.resolve scope) ((x.move σ).resolve scope) := by
  refine (carries_lookup scope x.text).bind fun found => ?_
  cases found with
  | some v => exact carries_pure v
  | none =>
    simp only [Option.map_none, Name.text_move]
    cases Builtin.ofName? x.text with
    | some b => exact carries_pure (Value.builtin b)
    | none => exact carries_fail _

namespace Builtin

theorem single_move (args : List Value) :
    single (args.map (Value.move σ)) = (single args).map (Value.move σ) := by
  unfold single
  match args with
  | [] | [_] | _ :: _ :: _ => simp [Except.map]

theorem elements_move (b : Builtin) (v : Value) :
    elements b (v.move σ) = (elements b v).map (List.map (Value.move σ)) := by
  cases v with
  | array id vs => rw [Value.move_array]; rfl
  | _ => simp only [Value.move, elements, Except.map, Value.kind]

theorem length_move (v : Value) : length (v.move σ) = (length v).map (Value.move σ) := by
  cases v with
  | array i vs =>
    rw [Value.move_array]
    simp only [length, Except.map, Value.move, List.length_map]
  | _ => simp only [Value.move, length, Except.map, Value.kind]

theorem printAll_carries (vs : List Value) :
    Carries σ earlier id (printAll vs) (printAll (vs.map (Value.move σ))) := by
  induction vs with
  | nil => exact carries_pure ()
  | cons v vs ih =>
    rw [List.map_cons, printAll, printAll, v.inspect_move]
    exact (carries_print v.inspect).bind fun _ => ih

theorem call_carries (b : Builtin) (args : List Value) :
    Carries σ earlier (Value.move σ) (b.call args) (b.call (args.map (Value.move σ))) := by
  have hsingle : ∀ b : Builtin, (single (args.map (Value.move σ)) >>= elements b) =
      (single args >>= elements b).map (List.map (Value.move σ)) := by
    intro b
    rw [single_move]
    cases single args with
    | ok v => exact elements_move b v
    | error f => rfl
  cases b with
  | len =>
    have hlength : (single (args.map (Value.move σ)) >>= length) =
        (single args >>= length).map (Value.move σ) := by
      rw [single_move]
      cases single args with
      | ok v => exact length_move v
      | error f => rfl
    rw [call, call, hlength]
    exact carries_ofExcept _
  | first =>
    rw [call, call, hsingle]
    refine (carries_ofExcept _).bind fun vs => ?_
    rw [List.head?_map]
    cases vs.head? with
    | none => exact carries_pure Value.null
    | some v => exact carries_pure v
  | last =>
    rw [call, call, hsingle]
    refine (carries_ofExcept _).bind fun vs => ?_
    rw [List.getLast?_map]
    cases vs.getLast? with
    | none => exact carries_pure Value.null
    | some v => exact carries_pure v
  | rest =>
    rw [call, call, hsingle]
    refine (carries_ofExcept _).bind fun vs => ?_
    cases vs with
    | nil => exact carries_pure Value.null
    | cons v vs => exact carries_newArray vs
  | push =>
    rcases args with _ | ⟨array, _ | ⟨v, _ | ⟨w, args⟩⟩⟩
    case cons.cons.nil =>
      have helements := elements_move (σ := σ) .push array
      show Carries σ earlier _ (ofExcept (elements .push array) >>= fun vs => newArray (vs ++ [v]))
        (ofExcept (elements .push (array.move σ)) >>= fun vs => newArray (vs ++ [v.move σ]))
      rw [helements]
      refine (carries_ofExcept _).bind fun vs => ?_
      have hpushed : Carries σ earlier (Value.move σ) (newArray (vs ++ [v]))
          (newArray ((vs ++ [v]).map (Value.move σ))) := carries_newArray (vs ++ [v])
      rw [List.map_append] at hpushed
      exact hpushed
    case cons.cons.cons =>
      simp only [call, List.map_cons, List.length_cons, List.length_map]
      exact carries_fail _
    all_goals exact carries_fail _
  | puts => exact (printAll_carries args).bind fun _ => carries_pure Value.null

end Builtin

namespace Evaluator

variable (σ earlier) in
/-- An evaluator that does with moved expressions what it does with the expressions themselves. -/
def Carried (eval : Evaluator) : Prop :=
  ∀ scope e, Carries σ earlier (Value.move σ) (eval scope e) (eval scope (e.move σ))

namespace Carried

variable {eval : Evaluator} (h : Carried σ earlier eval) (scope : ScopeId)

include h

theorem expressions (es : List Expr) :
    Carries σ earlier (List.map (Value.move σ)) (eval.expressions scope es)
      (eval.expressions scope (es.map (Expr.move σ))) := by
  induction es with
  | nil => exact carries_pure []
  | cons e es ih =>
    refine (h scope e).bind fun v => ?_
    exact ih.bind fun vs => carries_pure (v :: vs)

theorem pairs (ps : List (Expr × Expr)) (content : Hash Value) :
    Carries σ earlier (Hash.map (Value.move σ)) (eval.pairs scope content ps)
      (eval.pairs scope (content.map (Value.move σ))
        (ps.map (Prod.map (Expr.move σ) (Expr.move σ)))) := by
  induction ps generalizing content with
  | nil => exact carries_pure content
  | cons p ps ih =>
    obtain ⟨key, value⟩ := p
    refine (h scope key).bind fun k => ?_
    rw [k.key?_move]
    cases k.key? with
    | none =>
      rw [k.kind_move]
      exact carries_fail _
    | some filed =>
      refine (h scope value).bind fun v => ?_
      have hinsert := content.insert_map (Value.move σ) filed (k, v)
      rw [Prod.map] at hinsert
      rw [hinsert]
      exact ih _

theorem statement (s : Stmt) :
    Carries σ earlier (Value.move σ) (eval.statement scope s)
      (eval.statement scope (s.move σ)) := by
  cases s with
  | bind t x e =>
    refine (h scope e).bind fun v => ?_
    exact (carries_assign scope x.text v).bind fun _ => carries_pure v
  | «return» t e => exact (h scope e).bind fun v => carries_pure (Value.returned v)
  | expr t e => exact h scope e

theorem statements (ss : List Stmt) (last : Value) :
    Carries σ earlier (Value.move σ) (eval.statements scope last ss)
      (eval.statements scope (last.move σ) (ss.map (Stmt.move σ))) := by
  induction ss generalizing last with
  | nil => exact carries_pure last
  | cons s ss ih =>
    refine (h.statement scope s).bind fun v => ?_
    cases v with
    | returned w => exact carries_pure (Value.returned w)
    | hash id content =>
      rw [Value.move_hash]
      have hrest := ih (.hash id content)
      rw [Value.move_hash] at hrest
      exact hrest
    | _ => exact ih _

theorem block (b : Block) :
    Carries σ earlier (Value.move σ) (eval.block scope b) (eval.block scope (b.move σ)) := by
  rw [Evaluator.block, Evaluator.block, b.statements_move]
  exact h.statements scope b.statements .null

theorem apply (callee : Value) (args : List Value) :
    Carries σ earlier (Value.move σ) (eval.apply callee args)
      (eval.apply (callee.move σ) (args.map (Value.move σ))) := by
  cases callee with
  | function i c =>
    have hbindings : (((c.parameters.map (Name.move σ)).map Name.text).zip
        (args.map (Value.move σ))).reverse =
          (((c.parameters.map Name.text).zip args).reverse).map (Prod.map id (Value.move σ)) := by
      rw [Name.map_text_map_move, List.zip_map_right, List.map_reverse]
    show Carries σ earlier _ (openScope (some c.scope) _ >>= _)
      (openScope (some c.scope) (((c.parameters.map (Name.move σ)).map Name.text).zip
        (args.map (Value.move σ))).reverse >>= _)
    rw [hbindings]
    refine (carries_openScope c.scope _).bind fun scope => ?_
    refine (h.block scope c.body).bind fun v => ?_
    rw [v.unwrap_move]
    exact carries_pure v.unwrap
  | builtin b => exact b.call_carries args
  | hash id content =>
    rw [Value.move_hash]
    exact carries_fail _
  | _ => exact carries_fail _

end Carried

theorem Carried.layer {eval : Evaluator} (h : Carried σ earlier eval) :
    Carried σ earlier (Evaluator.layer eval) := by
  intro scope e
  cases e with
  | name x => exact x.resolve_carries scope
  | integer t n => exact carries_pure (Value.integer n)
  | string t => exact carries_pure (Value.string t.literal)
  | boolean t b => exact carries_pure (Value.boolean b)
  | function t parameters body => exact carries_newFunction ⟨parameters, body, scope⟩
  | array t elements =>
    rw [Expr.move, Expr.moveAll_eq_map]
    exact (h.expressions scope elements).bind fun vs => carries_newArray vs
  | hash t ps =>
    rw [Expr.move, Expr.movePairs_eq_map]
    exact (h.pairs scope ps ∅).bind fun content => carries_newHash content
  | unary t op operand =>
    refine (h scope operand).bind fun v => ?_
    rw [op.apply_move]
    exact carries_ofExcept _
  | binary t op left right =>
    refine (h scope left).bind fun v => (h scope right).bind fun w => ?_
    rw [op.apply_move]
    exact carries_ofExcept _
  | cond t condition consequence alternative =>
    rw [Expr.move_cond, layer_cond, layer_cond]
    refine (h scope condition).bind fun v => ?_
    rw [v.isTruthy_move]
    split
    · exact h.block scope consequence
    · cases alternative with
      | none => exact carries_pure Value.null
      | some b => exact h.block scope b
  | call t callee arguments =>
    rw [Expr.move, Expr.moveAll_eq_map]
    refine (h scope callee).bind fun f => ?_
    exact (h.expressions scope arguments).bind fun vs => h.apply f vs
  | index t collection position =>
    refine (h scope collection).bind fun v => (h scope position).bind fun w => ?_
    rw [v.index_move]
    exact carries_ofExcept _

end Evaluator

theorem Expr.eval_carried (d : Nat) : Evaluator.Carried σ earlier (Expr.eval d) := by
  induction d with
  | zero => exact fun _ _ _ => rfl
  | succ d ih => exact ih.layer

variable (σ earlier) in
/-- A moved program on a carried machine does what the program does. -/
theorem Program.eval_carries (p : Program) (d : Nat) (scope : ScopeId) :
    Carries σ earlier (Value.move σ) (p.eval d scope) ((p.move σ).eval d scope) := by
  refine ((Expr.eval_carried d).statements scope p.statements .null).bind fun v => ?_
  rw [v.unwrap_move]
  exact carries_pure v.unwrap

end Monkey
