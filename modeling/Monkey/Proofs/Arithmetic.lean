import Mathlib.Algebra.Order.Ring.Int
import Monkey.Proofs.Depth
import Monkey.Proofs.Effect
import Monkey.Proofs.FaultDominance

/-!
Expressions of integer literals, negations and the four operations. Every result is the exact one
modulo 2⁶⁴, taken into the range of 64 bits, and this commutes with everything but a division: a
sum of products overflows and comes back, and only what it comes to in the end counts. A division
by zero is the only fault, and it ends the evaluation at once.
-/

namespace Monkey

open Eval

/-- The integer that an operation has as its exact result, a quotient rounded toward zero; without
meaning for a comparison. -/
def BinaryOp.exact : BinaryOp → Int → Int → Int
  | add => (· + ·)
  | subtract => (· - ·)
  | multiply => (· * ·)
  | divide => Int.tdiv
  | _ => fun _ _ => 0

namespace Expr

/-- An expression of integer literals, negations and these operations. -/
inductive BuiltFrom (ops : List BinaryOp) : Expr → Prop
  | integer (t : Token) (n : Int64) : BuiltFrom ops (.integer t n)
  | negate (t : Token) {e : Expr} (h : BuiltFrom ops e) : BuiltFrom ops (.unary t .negate e)
  | binary (t : Token) {op : BinaryOp} {e₁ e₂ : Expr} (hop : op ∈ ops) (h₁ : BuiltFrom ops e₁)
      (h₂ : BuiltFrom ops e₂) : BuiltFrom ops (.binary t op e₁ e₂)

/-- The exact value. -/
def exact : Expr → Int
  | .integer _ n => n.toInt
  | .unary _ _ e => -e.exact
  | .binary _ op e₁ e₂ => op.exact e₁.exact e₂.exact
  | _ => 0

/-- The value with each result taken into the range of 64 bits, or the dividend of the first
division by zero, operands being taken from left to right. -/
def reckon : Expr → Except Int64 Int64
  | .integer _ n => .ok n
  | .unary _ _ e => do
    let a ← e.reckon
    return .ofInt (-a.toInt)
  | .binary _ op e₁ e₂ => do
    let a ← e₁.reckon
    let b ← e₂.reckon
    if op = .divide ∧ b = 0 then throw a
    return .ofInt (op.exact a.toInt b.toInt)
  | _ => .ok 0

/-- What the evaluation of an expression comes to that reckons to this. -/
def reckoned (e : Expr) : Eval Value :=
  match e.reckon with
  | .ok k => pure (.integer k)
  | .error a => .fail (.divisionByZero a)

/-- In the course of evaluating the expression these two values are divided. -/
def Divides (depth : Nat) (scope : ScopeId) (e : Expr) (m : Machine) (v w : Value) : Prop :=
  ∃ d m', (⟨depth, .expression scope e, m⟩ : Activity).Within ⟨d, .binary .divide v w, m'⟩

end Expr

section Operations

variable {op : BinaryOp} {a b : Int64}

theorem negate_eq_ofInt (a : Int64) : -a = .ofInt (-a.toInt) := by
  rw [Int64.ofInt_neg, Int64.ofInt_toInt]

theorem divide_eq_ofInt (a b : Int64) : a / b = .ofInt (a.toInt.tdiv b.toInt) := by
  rw [← Int64.toInt_inj, Int64.toInt_div, Int64.toInt_ofInt]

/-- An operation has its exact result modulo 2⁶⁴, unless it divides by zero. -/
theorem BinaryOp.apply_integers (hop : op ∈ [.add, .subtract, .multiply, .divide])
    (h : ¬ (op = .divide ∧ b = 0)) :
    op.apply (.integer a) (.integer b) = .ok (.integer (.ofInt (op.exact a.toInt b.toInt))) := by
  simp only [List.mem_cons, List.not_mem_nil, or_false] at hop
  rcases hop with rfl | rfl | rfl | rfl
  · simp [apply, applyIntegers, exact, Int64.ofInt_add]
  · simp [apply, applyIntegers, exact, Int64.ofInt_sub]
  · simp [apply, applyIntegers, exact, Int64.ofInt_mul]
  · have hb : b ≠ 0 := fun hb => h ⟨rfl, hb⟩
    simp [apply, applyIntegers, exact, hb, divide_eq_ofInt]

/-- It does not matter when a result of these operations is taken into the range of 64 bits. -/
theorem BinaryOp.ofInt_exact (hop : op ∈ [.add, .subtract, .multiply]) (x y : Int) :
    Int64.ofInt (op.exact (Int64.ofInt x).toInt (Int64.ofInt y).toInt) =
      Int64.ofInt (op.exact x y) := by
  simp only [List.mem_cons, List.not_mem_nil, or_false] at hop
  rcases hop with rfl | rfl | rfl
  · simp only [exact, Int64.ofInt_add, Int64.ofInt_toInt]
  · simp only [exact, Int64.ofInt_sub, Int64.ofInt_toInt]
  · simp only [exact, Int64.ofInt_mul, Int64.ofInt_toInt]

/-- Only the quotient of the least integer and -1 is out of range. -/
theorem toInt_divide (a b : Int64) :
    (a / b).toInt = if a = Int64.minValue ∧ b = -1 then -2 ^ 63 else a.toInt.tdiv b.toInt := by
  split
  · rename_i h
    rw [h.1, h.2, Int64.minValue_div_neg_one, Int64.toInt_minValue]
  · rename_i h
    by_cases ha : a = Int64.minValue
    · exact Int64.toInt_div_of_ne_right a b fun hb => h ⟨ha, hb⟩
    · exact Int64.toInt_div_of_ne_left a b ha

end Operations

namespace Expr

variable {e : Expr} {d : Nat} {scope : ScopeId} {m m' : Machine} {v : Value}

/-- Within a sufficient depth an expression comes to what it reckons to, and changes nothing. -/
theorem exists_eval_eq_reckoned (he : e.BuiltFrom [.add, .subtract, .multiply, .divide]) :
    ∃ n, ∀ d, n ≤ d → ∀ scope, e.eval d scope = e.reckoned := by
  induction he with
  | integer t k =>
    refine ⟨1, fun d hd scope => ?_⟩
    cases d with
    | zero => omega
    | succ d => rfl
  | @negate t e h ih =>
    obtain ⟨n, hn⟩ := ih
    refine ⟨n + 1, fun d hd scope => ?_⟩
    cases d with
    | zero => omega
    | succ d =>
      have he : e.eval d scope = e.reckoned := hn d (Nat.le_of_succ_le_succ hd) scope
      simp only [eval_succ, Evaluator.layer, he, reckoned, reckon]
      cases e.reckon with
      | error a => rfl
      | ok a =>
        have hneg : UnaryOp.negate.apply (.integer a) = .ok (.integer (.ofInt (-a.toInt))) := by
          rw [← negate_eq_ofInt]
          rfl
        simp only [pure_bind, hneg]
        rfl
  | @binary t op e₁ e₂ hop h₁ h₂ ih₁ ih₂ =>
    obtain ⟨n₁, hn₁⟩ := ih₁
    obtain ⟨n₂, hn₂⟩ := ih₂
    refine ⟨max n₁ n₂ + 1, fun d hd scope => ?_⟩
    cases d with
    | zero => omega
    | succ d =>
      have he₁ : e₁.eval d scope = e₁.reckoned := hn₁ d (by omega) scope
      have he₂ : e₂.eval d scope = e₂.reckoned := hn₂ d (by omega) scope
      simp only [eval_succ, Evaluator.layer, he₁, he₂, reckoned, reckon]
      cases e₁.reckon with
      | error a => rfl
      | ok a =>
        cases e₂.reckon with
        | error a => rfl
        | ok b =>
          simp only [pure_bind]
          by_cases hzero : op = .divide ∧ b = 0
          · obtain ⟨rfl, rfl⟩ := hzero
            rfl
          · simp only [BinaryOp.apply_integers hop hzero, bind, Except.bind, if_neg hzero]
            rfl

theorem reckoned_cases (e : Expr) (m : Machine) :
    (∃ k, e.reckon = .ok k ∧ e.reckoned m = .done (.integer k) m) ∨
    ∃ a, e.reckon = .error a ∧ e.reckoned m = .failed (.divisionByZero a) m := by
  rw [reckoned]
  cases e.reckon with
  | ok k => exact .inl ⟨k, rfl, rfl⟩
  | error a => exact .inr ⟨a, rfl, rfl⟩

/-- So it does within every depth in which it ends. -/
theorem eval_eq_reckoned (he : e.BuiltFrom [.add, .subtract, .multiply, .divide])
    (hends : e.eval d scope m ≠ .unfinished) : e.eval d scope m = e.reckoned m := by
  obtain ⟨n, hn⟩ := exists_eval_eq_reckoned he
  have hreckoned : e.eval n scope m = e.reckoned m := by rw [hn n (Nat.le_refl n)]
  rw [← hreckoned]
  refine eval_unique hends ?_
  rw [hreckoned]
  obtain ⟨k, -, h⟩ | ⟨a, -, h⟩ := e.reckoned_cases m
  · rw [h]
    nofun
  · rw [h]
    nofun

/-- A result is an integer, and nothing was done to the machine. -/
theorem eq_of_eval_eq_done (he : e.BuiltFrom [.add, .subtract, .multiply, .divide])
    (h : e.eval d scope m = .done v m') : ∃ k, v = .integer k ∧ m' = m := by
  have hreckoned : e.eval d scope m = e.reckoned m := eval_eq_reckoned he (by rw [h]; nofun)
  obtain ⟨k, -, hk⟩ | ⟨a, -, ha⟩ := e.reckoned_cases m
  · rw [h, hk] at hreckoned
    injection hreckoned with hv hm
    exact ⟨k, hv, hm⟩
  · rw [h, ha] at hreckoned
    cases hreckoned

/-- Without a division the value is exact modulo 2⁶⁴, whatever overflows on the way. -/
theorem reckon_of_divisionFree (he : e.BuiltFrom [.add, .subtract, .multiply]) :
    e.reckon = .ok (.ofInt e.exact) := by
  induction he with
  | integer t k =>
    rw [reckon, exact, Int64.ofInt_toInt]
  | negate t h ih =>
    rw [reckon, ih, exact, Int64.ofInt_neg]
    simp only [bind, Except.bind, ← negate_eq_ofInt]
    rfl
  | @binary t op e₁ e₂ hop h₁ h₂ ih₁ ih₂ =>
    have hdivide : ¬ op = .divide := by
      rintro rfl
      simp at hop
    simp only [reckon, ih₁, ih₂, bind, Except.bind, hdivide, false_and, if_false,
      BinaryOp.ofInt_exact hop, exact]
    rfl

end Expr

/-- All that is carried out for an expression of literals, negations and the four operations. -/
def Action.IsArithmetic : Action → Prop
  | expression _ e => e.BuiltFrom [.add, .subtract, .multiply, .divide]
  | unary _ v => ∃ a, v = .integer a
  | binary _ v w => ∃ a b, v = .integer a ∧ w = .integer b
  | _ => False

namespace Activity

theorem Part.isArithmetic {a b : Activity} (h : Part a b) (ha : a.action.IsArithmetic) :
    b.action.IsArithmetic := by
  cases h with
  | operand =>
    cases ha with
    | negate t he => exact he
  | unary h =>
    cases ha with
    | negate t he =>
      obtain ⟨k, hk, -⟩ := Expr.eq_of_eval_eq_done he h
      exact ⟨k, hk⟩
  | left =>
    cases ha with
    | binary t hop h₁ h₂ => exact h₁
  | right h =>
    cases ha with
    | binary t hop h₁ h₂ => exact h₂
  | binary h h' =>
    cases ha with
    | binary t hop h₁ h₂ =>
      obtain ⟨a, ha, -⟩ := Expr.eq_of_eval_eq_done h₁ h
      obtain ⟨b, hb, -⟩ := Expr.eq_of_eval_eq_done h₂ h'
      exact ⟨a, b, ha, hb⟩
  | _ => cases ha

theorem Within.isArithmetic {a b : Activity} (h : Within a b) (ha : a.action.IsArithmetic) :
    b.action.IsArithmetic := by
  induction h with
  | self => exact ha
  | part _ hc ih => exact hc.isArithmetic ih

end Activity

namespace Expr

variable {e : Expr} {d : Nat} {scope : ScopeId} {m : Machine} {a : Int64}

/-- Behind a fault there is a division by zero of the dividend that it names. -/
theorem divides_of_failed (he : e.BuiltFrom [.add, .subtract, .multiply, .divide])
    (h : e.eval d scope m = .failed (.divisionByZero a) m) :
    e.Divides d scope m (.integer a) (.integer 0) := by
  induction he generalizing d with
  | integer t k =>
    cases d with
    | zero => cases h
    | succ d => cases h
  | @negate t e he ih =>
    cases d with
    | zero => cases h
    | succ d =>
      rw [eval_succ, Evaluator.layer] at h
      obtain hx | ⟨v, m₁, hx, h⟩ := cases_of_bind_eq_failed h
      · obtain ⟨d', m', hwithin⟩ := ih hx
        exact ⟨d', m', .of_part .operand hwithin⟩
      · obtain ⟨k, rfl, rfl⟩ := eq_of_eval_eq_done he hx
        cases h
  | @binary t op e₁ e₂ hop h₁ h₂ ih₁ ih₂ =>
    cases d with
    | zero => cases h
    | succ d =>
      rw [eval_succ, Evaluator.layer] at h
      obtain hx | ⟨v, m₁, hx, h⟩ := cases_of_bind_eq_failed h
      · obtain ⟨d', m', hwithin⟩ := ih₁ hx
        exact ⟨d', m', .of_part .left hwithin⟩
      obtain ⟨b, rfl, rfl⟩ := eq_of_eval_eq_done h₁ hx
      obtain hy | ⟨w, m₂, hy, h⟩ := cases_of_bind_eq_failed h
      · obtain ⟨d', m', hwithin⟩ := ih₂ hy
        exact ⟨d', m', .of_part (.right hx) hwithin⟩
      obtain ⟨c, rfl, rfl⟩ := eq_of_eval_eq_done h₂ hy
      -- Both operands have results, so it is this operation that fails.
      by_cases hzero : op = .divide ∧ c = 0
      · obtain ⟨rfl, rfl⟩ := hzero
        cases h
        exact ⟨d, _, .of_part (.binary hx hy) .self⟩
      · rw [BinaryOp.apply_integers hop hzero] at h
        cases h

/-- A division by zero ends the whole with the dividend, and nothing was done to the machine. -/
theorem failed_of_divides (he : e.BuiltFrom [.add, .subtract, .multiply, .divide])
    (h : e.Divides d scope m (.integer a) (.integer 0)) :
    e.eval d scope m = .failed (.divisionByZero a) m := by
  obtain ⟨d', m', hwithin⟩ := h
  have hfailed : e.eval d scope m = .failed (.divisionByZero a) m' := hwithin.failed rfl
  have hreckoned : e.eval d scope m = e.reckoned m := eval_eq_reckoned he (by rw [hfailed]; nofun)
  obtain ⟨k, -, hk⟩ | ⟨b, -, hb⟩ := e.reckoned_cases m
  · rw [hfailed, hk] at hreckoned
    cases hreckoned
  · rw [hfailed, hb] at hreckoned
    injection hreckoned with hf hm
    rw [hfailed, hm]

end Expr

/-- An expression of integer literals, negations and the four operations has an integer as its
result or divides by zero, as it reckons from left to right. It divides by zero exactly if in its
course something is divided by zero, which is then the dividend of the fault; any other quotient
is rounded toward zero, but for the least integer and -1 it is the least integer; and without a
division the result is the exact value modulo 2⁶⁴. -/
theorem arithmetic_exact {e : Expr} (he : e.BuiltFrom [.add, .subtract, .multiply, .divide]) :
    ∃ n, ∀ d, n ≤ d → ∀ (scope : ScopeId) (m : Machine),
      ((∃ k, e.reckon = .ok k ∧ e.eval d scope m = .done (.integer k) m) ∨
        ∃ a, e.reckon = .error a ∧ e.eval d scope m = .failed (.divisionByZero a) m) ∧
      (∀ a, e.eval d scope m = .failed (.divisionByZero a) m ↔
        e.Divides d scope m (.integer a) (.integer 0)) ∧
      (∀ v w, e.Divides d scope m v w → ∃ a b, v = .integer a ∧ w = .integer b ∧
        (b ≠ 0 → ∃ q, BinaryOp.divide.apply v w = .ok (.integer q) ∧
          q.toInt = if a = Int64.minValue ∧ b = -1 then -2 ^ 63 else a.toInt.tdiv b.toInt)) ∧
      (e.BuiltFrom [.add, .subtract, .multiply] →
        ∃ k, e.eval d scope m = .done (.integer k) m ∧ k.toInt = e.exact.bmod (2 ^ 64)) := by
  obtain ⟨n, hn⟩ := Expr.exists_eval_eq_reckoned he
  refine ⟨n, fun d hd scope m => ?_⟩
  have heval : e.eval d scope m = e.reckoned m := by rw [hn d hd scope]
  refine ⟨?_, fun a => ⟨Expr.divides_of_failed he, Expr.failed_of_divides he⟩, ?_, ?_⟩
  · rw [heval]
    exact e.reckoned_cases m
  · rintro v w ⟨d', m', hwithin⟩
    obtain ⟨a, b, rfl, rfl⟩ := hwithin.isArithmetic he
    refine ⟨a, b, rfl, rfl, fun hb => ⟨a / b, ?_, toInt_divide a b⟩⟩
    simp only [BinaryOp.apply, BinaryOp.applyIntegers, if_neg hb]
  · intro hfree
    refine ⟨.ofInt e.exact, ?_, Int64.toInt_ofInt⟩
    rw [heval, Expr.reckoned, Expr.reckon_of_divisionFree hfree]
    rfl

/-- The least integer divided by -1, and `-7 / (3 - 3) + 1 / 0`, which does not reach its second
division. -/
theorem arithmetic_exact_corners : ∃ e e' : Expr,
    (∃ n, ∀ d, n ≤ d → ∀ scope m, e.eval d scope m = .done (.integer Int64.minValue) m) ∧
    ∃ n, ∀ d, n ≤ d → ∀ scope m, e'.eval d scope m = .failed (.divisionByZero (-7)) m ∧
      e'.Divides d scope m (.integer (-7)) (.integer 0) := by
  let t := Token.endOfInput 0
  let e : Expr := .binary t .divide
    (.binary t .subtract (.unary t .negate (.integer t Int64.maxValue)) (.integer t 1))
    (.unary t .negate (.integer t 1))
  let e' : Expr := .binary t .add
    (.binary t .divide (.unary t .negate (.integer t 7))
      (.binary t .subtract (.integer t 3) (.integer t 3)))
    (.binary t .divide (.integer t 1) (.integer t 0))
  have he : e.BuiltFrom [.add, .subtract, .multiply, .divide] :=
    .binary t (by simp) (.binary t (by simp) (.negate t (.integer t _)) (.integer t _))
      (.negate t (.integer t _))
  have he' : e'.BuiltFrom [.add, .subtract, .multiply, .divide] :=
    .binary t (by simp)
      (.binary t (by simp) (.negate t (.integer t _))
        (.binary t (by simp) (.integer t _) (.integer t _)))
      (.binary t (by simp) (.integer t _) (.integer t _))
  obtain ⟨n, hn⟩ := arithmetic_exact he
  obtain ⟨n', hn'⟩ := arithmetic_exact he'
  refine ⟨e, e', ⟨n, fun d hd scope m => ?_⟩, n', fun d hd scope m => ?_⟩
  · have hreckon : e.reckon = .ok Int64.minValue := by with_unfolding_all rfl
    obtain ⟨⟨k, hk, heval⟩ | ⟨a, ha, -⟩, -⟩ := hn d hd scope m
    · rw [hreckon] at hk
      cases hk
      exact heval
    · rw [hreckon] at ha
      cases ha
  · have hreckon : e'.reckon = .error (-7) := by with_unfolding_all rfl
    obtain ⟨⟨k, hk, -⟩ | ⟨a, ha, heval⟩, hzero, -⟩ := hn' d hd scope m
    · rw [hreckon] at hk
      cases hk
    · rw [hreckon] at ha
      cases ha
      exact ⟨heval, (hzero _).mp heval⟩

end Monkey
