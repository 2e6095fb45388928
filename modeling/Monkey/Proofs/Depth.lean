import Monkey.Evaluator

/-!
The depth of an evaluation decides only whether it ends. Each rule of a layer hands on what the
level below comes to, so what ends within some depth ends in the same way within every greater one.
-/

namespace Monkey

/-- The second evaluation ends as the first does wherever the first ends. -/
def Eval.Extends {α : Type} (x y : Eval α) : Prop := ∀ m, x m ≠ .unfinished → y m = x m

namespace Eval

variable {α β : Type} {x y : Eval α}

theorem Extends.refl (x : Eval α) : x.Extends x := fun _ _ => rfl

theorem extends_of_unfinished (y : Eval α) : unfinished.Extends y := fun _ hm => absurd rfl hm

theorem Extends.bind {f g : α → Eval β} (hxy : x.Extends y) (hfg : ∀ a, (f a).Extends (g a)) :
    (x >>= f).Extends (y >>= g) := by
  intro m hm
  have hx : x m ≠ .unfinished := fun h => hm (by rw [bind_apply, h])
  rw [bind_apply, bind_apply, hxy m hx]
  rw [bind_apply] at hm
  cases h : x m with
  | done a m' =>
    rw [h] at hm
    exact hfg a m' hm
  | failed e m' => rfl
  | unfinished => rfl

end Eval

open Eval

namespace Evaluator

/-- The second evaluator ends as the first does wherever the first ends. -/
def Extends (eval deeper : Evaluator) : Prop := ∀ scope e, (eval scope e).Extends (deeper scope e)

variable {eval deeper : Evaluator} (h : eval.Extends deeper)

include h

theorem Extends.expressions (scope : ScopeId) (es : List Expr) :
    (eval.expressions scope es).Extends (deeper.expressions scope es) := by
  induction es with
  | nil => exact .refl _
  | cons e es ih => exact (h scope e).bind fun v => ih.bind fun vs => .refl _

theorem Extends.pairs (scope : ScopeId) (content : Hash Value) (ps : List (Expr × Expr)) :
    (eval.pairs scope content ps).Extends (deeper.pairs scope content ps) := by
  induction ps generalizing content with
  | nil => exact .refl _
  | cons p ps ih =>
    obtain ⟨key, value⟩ := p
    refine (h scope key).bind fun k => ?_
    cases k.key? with
    | none => exact .refl _
    | some filed => exact (h scope value).bind fun v => ih _

theorem Extends.statement (scope : ScopeId) (s : Stmt) :
    (eval.statement scope s).Extends (deeper.statement scope s) := by
  cases s with
  | bind t x value => exact (h scope value).bind fun v => .refl _
  | «return» t value => exact (h scope value).bind fun v => .refl _
  | expr t value => exact h scope value

theorem Extends.statements (scope : ScopeId) (last : Value) (ss : List Stmt) :
    (eval.statements scope last ss).Extends (deeper.statements scope last ss) := by
  induction ss generalizing last with
  | nil => exact .refl _
  | cons s ss ih =>
    refine (h.statement scope s).bind fun v => ?_
    split
    · exact .refl _
    · exact ih _

theorem Extends.block (scope : ScopeId) (b : Block) :
    (eval.block scope b).Extends (deeper.block scope b) := h.statements scope .null b.statements

theorem Extends.apply (callee : Value) (args : List Value) :
    (eval.apply callee args).Extends (deeper.apply callee args) := by
  cases callee with
  | function id c =>
    exact (Extends.refl _).bind fun scope => (h.block scope c.body).bind fun v => .refl _
  | _ => exact .refl _

/-- One layer ends in the same way over a level below that ends in the same way. -/
theorem Extends.layer : Extends eval.layer deeper.layer := by
  intro scope e
  cases e with
  | name | integer | string | boolean | function => exact .refl _
  | array t elements => exact (h.expressions scope elements).bind fun vs => .refl _
  | hash t ps => exact (h.pairs scope ∅ ps).bind fun content => .refl _
  | unary t op operand => exact (h scope operand).bind fun v => .refl _
  | binary t op left right =>
    exact (h scope left).bind fun v => (h scope right).bind fun w => .refl _
  | cond t condition consequence alternative =>
    refine (h scope condition).bind fun v => ?_
    split
    · exact h.block scope consequence
    · cases alternative with
      | none => exact .refl _
      | some alternative => exact h.block scope alternative
  | call t callee arguments =>
    exact (h scope callee).bind fun f =>
      (h.expressions scope arguments).bind fun vs => h.apply f vs
  | index t collection position =>
    exact (h scope collection).bind fun v => (h scope position).bind fun w => .refl _

end Evaluator

/-- What ends within some depth ends in the same way within every greater one. -/
theorem Expr.eval_extends {n d : Nat} (hnd : n ≤ d) :
    Evaluator.Extends (Expr.eval n) (Expr.eval d) := by
  induction n generalizing d with
  | zero => exact fun scope e => extends_of_unfinished _
  | succ n ih =>
    cases d with
    | zero => omega
    | succ d => exact (ih (Nat.le_of_succ_le_succ hnd)).layer

/-- Two depths within which an expression ends are as good as each other. -/
theorem Expr.eval_unique {n d : Nat} {scope : ScopeId} {e : Expr} {m : Machine}
    (hn : e.eval n scope m ≠ .unfinished) (hd : e.eval d scope m ≠ .unfinished) :
    e.eval n scope m = e.eval d scope m := by
  have hmax := Expr.eval_extends (Nat.le_max_left n d) scope e m hn
  rw [← hmax]
  exact Expr.eval_extends (Nat.le_max_right n d) scope e m hd

end Monkey
