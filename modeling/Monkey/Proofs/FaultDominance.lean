import Mathlib.Data.List.Chain
import Monkey.Proofs.Activity
import Monkey.Session

/-!
Faults end everything. The parts of an activity are carried out in a row, each in the machine in
which the one before it had its result, and what fails in a part fails in the whole with the same
fault and in the same machine. So nothing comes after a fault, however deep in the program it
arises: the result of the program is the fault, and its machine is the one at that moment.
-/

namespace Monkey

open Machine Eval

/-- What an action results in. -/
def Action.Result : Action → Type
  | expressions _ _ => List Value
  | pairs _ _ _ => Hash Value
  | choose _ => Bool
  | bind _ _ _ => Unit
  | file _ => Key
  | _ => Value

/-- What is evaluated when an action is carried out with a depth. -/
def Action.perform (depth : Nat) : (a : Action) → Eval a.Result
  | expression scope e => e.eval depth scope
  | expressions scope es => Evaluator.expressions (Expr.eval depth) scope es
  | pairs scope content ps => Evaluator.pairs (Expr.eval depth) scope content ps
  | statement scope s => Evaluator.statement (Expr.eval depth) scope s
  | statements scope last ss => Evaluator.statements (Expr.eval depth) scope last ss
  | resolve scope x => x.resolve scope
  | unary op v => .ofExcept (op.apply v)
  | binary op v w => .ofExcept (op.apply v w)
  | choose v => pure v.isTruthy
  | index v w => .ofExcept (v.index w)
  | call f vs => Evaluator.apply (Expr.eval depth) f vs
  | builtin b vs => b.call vs
  | bind scope x v => Eval.assign scope x v
  | wrap v => pure (.returned v)
  | file k =>
    match k.key? with
    | some filed => pure filed
    | none => .fail (.notHashable k.kind)
  | newArray vs => Eval.newArray vs
  | newHash content => Eval.newHash content

/-- How an evaluation goes on from an outcome. -/
def Outcome.bind {α β : Type} (o : Outcome α) (f : α → Eval β) : Outcome β :=
  match o with
  | .done a m => f a m
  | .failed e m => .failed e m
  | .unfinished => .unfinished

namespace Activity

def outcome (a : Activity) : Outcome a.action.Result := a.action.perform a.depth a.machine

/-- An activity, and what is carried out behind it if it has a result. -/
def andThen (a : Activity) (next : a.action.Result → Machine → List Activity) : List Activity :=
  a :: match a.outcome with
    | .done r m => next r m
    | _ => []

section Parts

variable (d : Nat) (scope : ScopeId) (m : Machine)

/-- What is carried out one level down for an expression. -/
def expressionParts : Expr → List Activity
  | .name x => [⟨d, .resolve scope x, m⟩]
  | .array _ es => andThen ⟨d, .expressions scope es, m⟩ fun vs m => [⟨d, .newArray vs, m⟩]
  | .hash _ ps =>
    andThen ⟨d, .pairs scope ∅ ps, m⟩ fun content m => [⟨d, .newHash content, m⟩]
  | .unary _ op e => andThen ⟨d, .expression scope e, m⟩ fun v m => [⟨d, .unary op v, m⟩]
  | .binary _ op e₁ e₂ =>
    andThen ⟨d, .expression scope e₁, m⟩ fun v m =>
    andThen ⟨d, .expression scope e₂, m⟩ fun w m => [⟨d, .binary op v w, m⟩]
  | .cond _ e b alternative =>
    andThen ⟨d, .expression scope e, m⟩ fun v m =>
    andThen ⟨d, .choose v, m⟩ fun (holds : Bool) m =>
      if holds then [⟨d, .statements scope .null b.statements, m⟩]
      else
        match alternative with
        | some a => [⟨d, .statements scope .null a.statements, m⟩]
        | none => []
  | .call _ e es =>
    andThen ⟨d, .expression scope e, m⟩ fun f m =>
    andThen ⟨d, .expressions scope es, m⟩ fun vs m => [⟨d, .call f vs, m⟩]
  | .index _ e₁ e₂ =>
    andThen ⟨d, .expression scope e₁, m⟩ fun v m =>
    andThen ⟨d, .expression scope e₂, m⟩ fun w m => [⟨d, .index v w, m⟩]
  | .integer _ _ | .string _ | .boolean _ _ | .function _ _ _ => []

def expressionsParts : List Expr → List Activity
  | [] => []
  | e :: es => andThen ⟨d, .expression scope e, m⟩ fun _ m => [⟨d, .expressions scope es, m⟩]

def pairsParts (content : Hash Value) : List (Expr × Expr) → List Activity
  | [] => []
  | (e₁, e₂) :: ps =>
    andThen ⟨d, .expression scope e₁, m⟩ fun k m =>
    andThen ⟨d, .file k, m⟩ fun filed m =>
    andThen ⟨d, .expression scope e₂, m⟩ fun v m =>
      [⟨d, .pairs scope (Hash.insert content filed (k, v)) ps, m⟩]

def statementParts : Stmt → List Activity
  | .bind _ x e => andThen ⟨d, .expression scope e, m⟩ fun v m => [⟨d, .bind scope x.text v, m⟩]
  | .return _ e => andThen ⟨d, .expression scope e, m⟩ fun v m => [⟨d, .wrap v, m⟩]
  | .expr _ e => [⟨d, .expression scope e, m⟩]

def statementsParts : List Stmt → List Activity
  | [] => []
  | s :: ss =>
    andThen ⟨d, .statement scope s, m⟩ fun (v : Value) m =>
      match v with
      | .returned _ => []
      | v => [⟨d, .statements scope v ss, m⟩]

def callParts (args : List Value) : Value → List Activity
  | .function _ c =>
    [⟨d, .statements m.scopes.size .null c.body.statements,
      (m.openScope (some c.scope) ((c.parameters.map Name.text).zip args).reverse).2⟩]
  | .builtin b => [⟨d, .builtin b args, m⟩]
  | _ => []

end Parts

/-- The direct parts of an activity, in the order in which they are carried out. -/
def parts (a : Activity) : List Activity :=
  match a.action with
  | .expression scope e =>
    match a.depth with
    | 0 => []
    | d + 1 => expressionParts d scope a.machine e
  | .expressions scope es => expressionsParts a.depth scope a.machine es
  | .pairs scope content ps => pairsParts a.depth scope a.machine content ps
  | .statement scope s => statementParts a.depth scope a.machine s
  | .statements scope _ ss => statementsParts a.depth scope a.machine ss
  | .call f vs => callParts a.depth a.machine vs f
  | _ => []

theorem mem_andThen_self {a : Activity} {next : a.action.Result → Machine → List Activity} :
    a ∈ a.andThen next := List.mem_cons_self

theorem mem_andThen_of_done {a b : Activity} {next : a.action.Result → Machine → List Activity}
    {r : a.action.Result} {m : Machine} (h : a.outcome = .done r m) (hb : b ∈ next r m) :
    b ∈ a.andThen next := by
  rw [andThen, h]
  exact List.mem_cons_of_mem a hb

theorem outcome_file {d : Nat} {k : Value} {filed : Key} {m : Machine} (h : k.key? = some filed) :
    (⟨d, .file k, m⟩ : Activity).outcome = .done filed m := by
  rw [outcome, Action.perform]
  simp only [h]
  rfl

/-- Every part has its place in the row. -/
theorem Part.mem_parts {a b : Activity} (h : Part a b) : b ∈ a.parts := by
  cases h with
  | resolve | expression | builtin | body => exact List.mem_singleton_self _
  | elements | pairs | operand | left | condition | callee | collection | first | key | bound
    | returned | statement => exact mem_andThen_self
  | newArray h | newHash h | unary h | others h | bind h | wrap h =>
    exact mem_andThen_of_done h (List.mem_singleton_self _)
  | right h | choose h | arguments h | position h | file h =>
    exact mem_andThen_of_done h mem_andThen_self
  | binary h₁ h₂ | call h₁ h₂ | index h₁ h₂ =>
    exact mem_andThen_of_done h₁ (mem_andThen_of_done h₂ (List.mem_singleton_self _))
  | consequence h hv | alternative h hv =>
    refine mem_andThen_of_done h (mem_andThen_of_done rfl ?_)
    rw [hv]
    exact List.mem_singleton_self _
  | value h hk =>
    exact mem_andThen_of_done h (mem_andThen_of_done (outcome_file hk) mem_andThen_self)
  | otherPairs h₁ hk h₂ =>
    refine mem_andThen_of_done h₁ (mem_andThen_of_done (outcome_file hk) ?_)
    exact mem_andThen_of_done h₂ (List.mem_singleton_self _)
  | @statements _ _ _ _ v _ _ _ h hv =>
    refine mem_andThen_of_done h ?_
    cases v with
    | returned w => exact absurd rfl (hv w)
    | _ => exact List.mem_singleton_self _

end Activity

open Activity

/-- From this machine on, the outcome is what becomes of carrying out these activities in a row,
each in the machine in which the one before it had its result, up to the first without a result.
Nothing else is done to the machine. -/
inductive Outcome.Unfolds {α : Type} : Machine → Outcome α → List Activity → Prop
  | nil (a : α) (m : Machine) : Unfolds m (.done a m) []
  | failed {b : Activity} {f : Fault} {m : Machine} (hb : b.outcome = .failed f m) :
      Unfolds b.machine (.failed f m) [b]
  | unfinished {b : Activity} (hb : b.outcome = .unfinished) : Unfolds b.machine .unfinished [b]
  | cons {b : Activity} {r : b.action.Result} {m : Machine} {o : Outcome α} {others : List Activity}
      (hb : b.outcome = .done r m) (h : Unfolds m o others) : Unfolds b.machine o (b :: others)

namespace Outcome

variable {α : Type} {o : Outcome α} {as : List Activity} {b : Activity} {f : Fault}
  {m m' : Machine}

theorem unfolds_andThen (b : Activity) {k : b.action.Result → Eval α}
    {next : b.action.Result → Machine → List Activity}
    (h : ∀ r m, Unfolds m (k r m) (next r m)) :
    Unfolds b.machine (b.outcome.bind k) (b.andThen next) := by
  rw [andThen]
  cases hb : b.outcome with
  | done r m => exact .cons hb (h r m)
  | failed e m => exact .failed hb
  | unfinished => exact .unfinished hb

/-- The last activity in a row, whose result is all that is still looked at. -/
theorem unfolds_last (b : Activity) (g : b.action.Result → α) :
    Unfolds b.machine (b.outcome.bind fun r => pure (g r)) [b] := by
  cases hb : b.outcome with
  | done r m => exact .cons hb (.nil (g r) m)
  | failed e m => exact .failed hb
  | unfinished => exact .unfinished hb

theorem unfolds_single (b : Activity) : Unfolds b.machine b.outcome [b] := by
  have hbind : b.outcome = b.outcome.bind fun r => pure r := by
    cases b.outcome <;> rfl
  rw [hbind]
  exact unfolds_last b fun r => r

namespace Unfolds

/-- A fault of one of the activities is the outcome. -/
theorem eq_failed (h : o.Unfolds m as) (hb : b ∈ as) (hf : b.outcome = .failed f m') :
    o = .failed f m' := by
  induction h with
  | nil => cases hb
  | failed hc =>
    obtain rfl := List.mem_singleton.mp hb
    rw [hf] at hc
    injection hc with he hm
    rw [he, hm]
  | unfinished hc =>
    obtain rfl := List.mem_singleton.mp hb
    rw [hf] at hc
    cases hc
  | cons hc _ ih =>
    rcases List.mem_cons.mp hb with rfl | hb
    · rw [hf] at hc
      cases hc
    · exact ih hb

/-- Each of the activities begins where the one before it had its result. -/
theorem isChain (h : o.Unfolds m as) :
    as.IsChain fun b c => ∃ r, b.outcome = .done r c.machine := by
  induction h with
  | nil => exact .nil
  | failed | unfinished => exact .singleton _
  | @cons b r m o others hb h ih =>
    cases h with
    | nil => exact .singleton _
    | failed | unfinished | cons => exact .cons_cons ⟨r, hb⟩ ih

end Unfolds

end Outcome

namespace Activity

open Outcome

variable (d : Nat) (scope : ScopeId) (m : Machine)

theorem unfolds_expression (e : Expr) :
    expressionParts d scope m e = [] ∨
    Unfolds m (e.eval (d + 1) scope m) (expressionParts d scope m e) := by
  cases e with
  | name x => exact .inr <| unfolds_single ⟨d, .resolve scope x, m⟩
  | integer | string | boolean | function => exact .inl rfl
  | array t es =>
    exact .inr <| unfolds_andThen ⟨d, .expressions scope es, m⟩ fun vs m =>
      unfolds_single ⟨d, .newArray vs, m⟩
  | hash t ps =>
    exact .inr <| unfolds_andThen ⟨d, .pairs scope ∅ ps, m⟩ fun content m =>
      unfolds_single ⟨d, .newHash content, m⟩
  | unary t op e =>
    exact .inr <| unfolds_andThen ⟨d, .expression scope e, m⟩ fun v m =>
      unfolds_single ⟨d, .unary op v, m⟩
  | binary t op e₁ e₂ =>
    exact .inr <| unfolds_andThen ⟨d, .expression scope e₁, m⟩ fun v m =>
      unfolds_andThen ⟨d, .expression scope e₂, m⟩ fun w m => unfolds_single ⟨d, .binary op v w, m⟩
  | cond t e b alternative =>
    refine .inr <| unfolds_andThen ⟨d, .expression scope e, m⟩ fun v m =>
      unfolds_andThen ⟨d, .choose v, m⟩ (k := fun (holds : Bool) =>
        if holds then Evaluator.block (Expr.eval d) scope b
        else
          match alternative with
          | some a => Evaluator.block (Expr.eval d) scope a
          | none => pure .null) fun holds m => ?_
    split
    · exact unfolds_single ⟨d, .statements scope .null b.statements, m⟩
    · cases alternative with
      | some a => exact unfolds_single ⟨d, .statements scope .null a.statements, m⟩
      | none => exact .nil _ _
  | call t e es =>
    exact .inr <| unfolds_andThen ⟨d, .expression scope e, m⟩ fun f m =>
      unfolds_andThen ⟨d, .expressions scope es, m⟩ fun vs m => unfolds_single ⟨d, .call f vs, m⟩
  | index t e₁ e₂ =>
    exact .inr <| unfolds_andThen ⟨d, .expression scope e₁, m⟩ fun v m =>
      unfolds_andThen ⟨d, .expression scope e₂, m⟩ fun w m => unfolds_single ⟨d, .index v w, m⟩

theorem unfolds_expressions (es : List Expr) :
    Unfolds m (Evaluator.expressions (Expr.eval d) scope es m) (expressionsParts d scope m es) := by
  cases es with
  | nil => exact .nil _ _
  | cons e es =>
    exact unfolds_andThen ⟨d, .expression scope e, m⟩ fun v m =>
      unfolds_last ⟨d, .expressions scope es, m⟩ fun vs => v :: vs

/-- The key of a pair is checked before anything else is done with it. -/
theorem bind_file {α : Type} (k : Value) (next : Key → Eval α) :
    (⟨d, .file k, m⟩ : Activity).outcome.bind next =
      (match k.key? with
        | none => fail (.notHashable k.kind)
        | some filed => next filed) m := by
  rw [outcome, Action.perform]
  cases k.key? <;> rfl

theorem unfolds_pairs (content : Hash Value) (ps : List (Expr × Expr)) :
    Unfolds m (Evaluator.pairs (Expr.eval d) scope content ps m)
      (pairsParts d scope m content ps) := by
  cases ps with
  | nil => exact .nil _ _
  | cons p ps =>
    obtain ⟨e₁, e₂⟩ := p
    refine unfolds_andThen ⟨d, .expression scope e₁, m⟩ fun (k : Value) m => ?_
    have hfile := unfolds_andThen ⟨d, .file k, m⟩ (k := fun (filed : Key) => do
      let v ← e₂.eval d scope
      Evaluator.pairs (Expr.eval d) scope (Hash.insert content filed (k, v)) ps) fun filed m =>
        unfolds_andThen ⟨d, .expression scope e₂, m⟩ fun v m =>
          unfolds_single ⟨d, .pairs scope (Hash.insert content filed (k, v)) ps, m⟩
    rw [bind_file] at hfile
    exact hfile

theorem unfolds_statement (s : Stmt) :
    Unfolds m (Evaluator.statement (Expr.eval d) scope s m) (statementParts d scope m s) := by
  cases s with
  | bind t x e =>
    exact unfolds_andThen ⟨d, .expression scope e, m⟩ fun v m =>
      unfolds_last ⟨d, .bind scope x.text v, m⟩ fun _ => v
  | «return» t e =>
    exact unfolds_andThen ⟨d, .expression scope e, m⟩ fun v m => unfolds_single ⟨d, .wrap v, m⟩
  | expr t e => exact unfolds_single ⟨d, .expression scope e, m⟩

theorem unfolds_statements (last : Value) (ss : List Stmt) :
    Unfolds m (Evaluator.statements (Expr.eval d) scope last ss m)
      (statementsParts d scope m ss) := by
  cases ss with
  | nil => exact .nil _ _
  | cons s ss =>
    refine unfolds_andThen ⟨d, .statement scope s, m⟩ fun (v : Value) m => ?_
    cases v with
    | returned w => exact .nil _ _
    | _ => exact unfolds_single ⟨d, .statements scope _ ss, m⟩

/-- A call begins in the scope that it opens. -/
theorem unfolds_call (f : Value) (vs : List Value) :
    callParts d m vs f = [] ∨
    ∃ m', Unfolds m' (Evaluator.apply (Expr.eval d) f vs m) (callParts d m vs f) := by
  cases f with
  | function id c =>
    let opened := (m.openScope (some c.scope) ((c.parameters.map Name.text).zip vs).reverse).2
    exact .inr ⟨opened,
      unfolds_last ⟨d, .statements m.scopes.size .null c.body.statements, opened⟩ Value.unwrap⟩
  | builtin b => exact .inr ⟨m, unfolds_single ⟨d, .builtin b vs, m⟩⟩
  | _ => exact .inl rfl

/-- Unless an activity is elementary, its outcome is that of its parts in a row. -/
theorem exists_unfolds (a : Activity) : a.parts = [] ∨ ∃ m, Unfolds m a.outcome a.parts := by
  obtain ⟨d, action, m⟩ := a
  cases action with
  | expression scope e =>
    cases d with
    | zero => exact .inl rfl
    | succ d => exact (unfolds_expression d scope m e).imp_right fun h => ⟨m, h⟩
  | expressions scope es => exact .inr ⟨m, unfolds_expressions d scope m es⟩
  | pairs scope content ps => exact .inr ⟨m, unfolds_pairs d scope m content ps⟩
  | statement scope s => exact .inr ⟨m, unfolds_statement d scope m s⟩
  | statements scope last ss => exact .inr ⟨m, unfolds_statements d scope m last ss⟩
  | call f vs => exact unfolds_call d m f vs
  | _ => exact .inl rfl

variable {d scope m} {a b c : Activity} {f : Fault} {m' : Machine}

/-- Each part begins where the one before it had its result. -/
theorem isChain_parts (a : Activity) :
    a.parts.IsChain fun b c => ∃ r, b.outcome = .done r c.machine := by
  obtain hnone | ⟨m, h⟩ := a.exists_unfolds
  · rw [hnone]
    exact .nil
  · exact h.isChain

/-- What fails in a part fails in the whole, with the same fault in the same machine. -/
theorem Part.failed (h : Part a b) (hb : b.outcome = .failed f m') : a.outcome = .failed f m' := by
  have hmem : b ∈ a.parts := h.mem_parts
  obtain hnone | ⟨m, hparts⟩ := a.exists_unfolds
  · rw [hnone] at hmem
    cases hmem
  · exact hparts.eq_failed hmem hb

theorem Within.failed (h : Within a b) (hb : b.outcome = .failed f m') :
    a.outcome = .failed f m' := by
  induction h with
  | self => exact hb
  | part _ hc ih => exact ih (hc.failed hb)

/-- The activity ends with a result. -/
def Completes (a : Activity) : Prop := ∃ r m, a.outcome = .done r m

/-- Only behind a part with a result are there other parts. -/
theorem completes_of_sublist (h : [b, c].Sublist a.parts) : b.Completes := by
  let R (x _ : Activity) : Prop := x.Completes
  have : Trans R R R := ⟨fun hx _ => hx⟩
  have hchain : a.parts.IsChain R := a.isChain_parts.imp fun x y ⟨r, hr⟩ => ⟨r, _, hr⟩
  exact (hchain.sublist h).rel_cons List.mem_cons_self

/-- In the course of the first activity the third is carried out behind the second: they belong to
two parts of one activity, and that of the third comes later. -/
def Behind (whole b c : Activity) : Prop :=
  ∃ a x y, whole.Within a ∧ [x, y].Sublist a.parts ∧ x.Within b ∧ y.Within c

/-- Nothing is carried out behind an activity that fails. -/
theorem not_behind_of_failed {whole : Activity} (hb : b.outcome = .failed f m') :
    ¬ whole.Behind b c := by
  rintro ⟨a, x, y, -, hxy, hx, -⟩
  obtain ⟨r, m, hdone⟩ := completes_of_sublist hxy
  rw [hx.failed hb] at hdone
  cases hdone

end Activity

theorem Program.run_of_failed {d : Nat} {scope : ScopeId} {p : Program} {m m' : Machine}
    {f : Fault} (h : (Activity.ofProgram d scope p m).outcome = .failed f m') :
    p.run d scope m = some (.error f, m') := by
  have heval : p.eval d scope m = .failed f m' := bind_of_failed h _
  rw [Program.run, heval]

/-- Wherever in a run something fails, be it the evaluation of an expression or a statement or an
operator, an index, a function or a builtin that is applied, the result of the program is this
fault, the machine at the end with its lines and bindings is the one at that moment, and nothing
is carried out behind what failed. -/
theorem fault_dominates {d : Nat} {scope : ScopeId} {p : Program} {m m' : Machine} {a : Activity}
    {f : Fault} (h : (Activity.ofProgram d scope p m).Within a) (ha : a.outcome = .failed f m') :
    p.run d scope m = some (.error f, m') ∧
    ∀ b, ¬ (Activity.ofProgram d scope p m).Behind a b := by
  have hrun : p.run d scope m = some (.error f, m') := p.run_of_failed (h.failed ha)
  exact ⟨hrun, fun b => Activity.not_behind_of_failed ha⟩

/-- A line is printed, then the key of a hash in the body of a function that is called for an
element of an array is a name that is not bound; the line behind is not printed. -/
theorem fault_dominates_nested_call : ∃ (p : Program) (a : Activity) (m' : Machine),
    (Activity.ofProgram 6 globalScope p initial).Within a ∧
    a.outcome = .failed (.unboundName "y") m' ∧ m'.printed = #["1"] ∧
    p.run 6 globalScope initial = some (.error (.unboundName "y"), m') ∧
    ∀ b, ¬ (Activity.ofProgram 6 globalScope p initial).Behind a b := by
  let t := Token.endOfInput 0
  let name (x : String) : Name := ⟨⟨.ident, x, Span.empty 0⟩⟩
  let puts (n : Int64) : Stmt := .expr t (.call t (.name (name "puts")) [.integer t n])
  let body : Block := .mk t [.expr t (.hash t [(.name (name "y"), .integer t 3)])]
  let array : Stmt := .expr t (.array t [.integer t 2, .call t (.function t [] body) []])
  let p : Program := ⟨[puts 1, array, puts 4]⟩
  let m : Machine := initial.print "1"
  let m' : Machine := (m.newIdentity.2.openScope (some globalScope) []).2
  have hfirst : Evaluator.statement (Expr.eval 6) globalScope (puts 1) initial = .done .null m := by
    with_unfolding_all rfl
  have hwithin :
      (Activity.ofProgram 6 globalScope p initial).Within ⟨2, .resolve 1 (name "y"), m'⟩ := by
    refine .of_part (.statements hfirst nofun) ?_
    refine .of_part .statement (.of_part .expression (.of_part .elements ?_))
    refine .of_part (.others rfl) (.of_part .first (.of_part (.call rfl rfl) ?_))
    refine .of_part .body (.of_part .statement (.of_part .expression ?_))
    exact .of_part .pairs (.of_part .key (.of_part .resolve .self))
  have hfailed : (⟨2, .resolve 1 (name "y"), m'⟩ : Activity).outcome =
      .failed (.unboundName "y") m' := by
    with_unfolding_all rfl
  have hdominates := fault_dominates hwithin hfailed
  exact ⟨p, _, m', hwithin, hfailed, rfl, hdominates.1, hdominates.2⟩

end Monkey
