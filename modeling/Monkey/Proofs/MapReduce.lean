import Mathlib.Algebra.Order.Ring.Int
import Monkey.Proofs.Inspection
import Monkey.Proofs.Series
import Monkey.Proofs.TotalCorrectness

/-!
Mapping and folding a list with recursive closures. The language has no loops: `map` and `reduce`
each bind a closure that calls itself on the rest of the list, and that finds itself by its name in
the scope of the call that made it. Every round opens a scope of its own, but what it does is
decided by what can be seen from there, so a loop folds its list, whatever a round is to do. From
this follows what `map` and `reduce` do with any function, and what a program that uses them does
with any list.
-/

namespace Monkey

open Machine Value

namespace MapReduce

section Code

/-! Code as it is read, with all places erased. -/

def word (x : String) : Token := ⟨.ident, x, .empty 0⟩

def keyword (k : Keyword) : Token := ⟨.keyword k, k.text, .empty 0⟩

def named (x : String) : Name := ⟨word x⟩

def var (x : String) : Expr := .name (named x)

def number (n : Nat) : Expr := .integer (.numeral n) (Int64.ofNat n)

def call (f : String) (args : List Expr) : Expr := .call (.ofSymbol .openParen) (var f) args

def binary (op : BinaryOp) (left right : Expr) : Expr := .binary (.ofSymbol op.symbol) op left right

def braces (ss : List Stmt) : Block := .mk (.ofSymbol .openBrace) ss

def lambda (xs : List String) (body : List Stmt) : Expr :=
  .function (keyword .fnWord) (xs.map named) (braces body)

def bind (x : String) (e : Expr) : Stmt := .bind (keyword .letWord) (named x) e

/-- An expression that begins with a word, as a statement. -/
def line (x : String) (e : Expr) : Stmt := .expr (word x) e

/-- `if (len(arr) == 0) { accumulator } else { iter(rest(arr), next); }` -/
def loopBody (accumulator : String) (next : Expr) : List Stmt :=
  [.expr (keyword .ifWord) (.cond (keyword .ifWord)
    (binary .equal (call "len" [var "arr"]) (number 0))
    (braces [line accumulator (var accumulator)])
    (some (braces [line "iter" (call "iter" [call "rest" [var "arr"], next])])))]

/-- `let iter = fn(arr, accumulator) { … }; iter(arr, start);` -/
def loop (accumulator : String) (next start : Expr) : List Stmt :=
  [bind "iter" (lambda ["arr", accumulator] (loopBody accumulator next)),
    line "iter" (call "iter" [var "arr", start])]

def empty : Expr := .array (.ofSymbol .openBracket) []

/-- What `map` gives the next round: the value of the function for one element is added. -/
def pushed : Expr := call "push" [var "accumulated", call "f" [call "first" [var "arr"]]]

def mapBody : List Stmt := loop "accumulated" pushed empty

/-- What `reduce` gives the next round. -/
def combined : Expr := call "f" [var "result", call "first" [var "arr"]]

def reduceBody : List Stmt := loop "result" combined (var "initial")

def additionBody : List Stmt := [line "initial" (binary .add (var "initial") (var "el"))]

def doublingBody : List Stmt := [line "x" (binary .multiply (var "x") (number 2))]

def sumBody : List Stmt :=
  [line "reduce" (call "reduce" [var "arr", number 0, lambda ["initial", "el"] additionBody])]

def program : List Stmt :=
  [bind "map" (lambda ["arr", "f"] mapBody),
    bind "reduce" (lambda ["arr", "initial", "f"] reduceBody),
    bind "sum" (lambda ["arr"] sumBody),
    bind "doubled" (call "map" [var "input", lambda ["x"] doublingBody]),
    line "puts" (call "puts" [var "doubled"]),
    line "sum" (call "sum" [var "doubled"])]

/-- What a function literal becomes in a scope. -/
def closure (xs : List String) (body : List Stmt) (scope : ScopeId) : Closure :=
  ⟨xs.map named, braces body, scope⟩

end Code

section Calls

variable {scope : ScopeId} {m : Machine} {env : List (String × Value)} {x f : String} {v : Value}
  {args : List Expr} {Q : Value → Machine → Prop}

theorem gives_var (h : m.Sees scope env) (hx : env.lookup x = some v) (hQ : Q v m) :
    (var x).Gives scope m Q := Expr.gives_name h hx hQ

theorem gives_call_bound (h : m.Sees scope env) (hf : env.lookup f = some v)
    (hargs : Expr.AllGive args scope m fun vs m₁ => v.CallGives vs m₁ Q) :
    (call f args).Gives scope m Q := Expr.gives_call (Expr.gives_name h hf hargs)

theorem gives_call_builtin {b : Builtin} (h : m.Sees scope env) (hf : env.lookup f = none)
    (hb : Builtin.ofName? f = some b)
    (hargs : Expr.AllGive args scope m fun vs m₁ => (builtin b).CallGives vs m₁ Q) :
    (call f args).Gives scope m Q := Expr.gives_call (Expr.gives_builtin h hf hb hargs)

end Calls

section Loop

theorem ofNat_beq_zero {vs : List Value} (hlength : vs.length < 2 ^ 63) :
    (Int64.ofNat vs.length == Int64.ofNat 0) = vs.isEmpty := by
  cases vs with
  | nil => rfl
  | cons v vs =>
    have hzero : (Int64.ofNat 0).toInt = 0 := rfl
    rw [List.isEmpty_cons, beq_eq_false_iff_ne, ne_eq, ← Int64.toInt_inj,
      Int64.toInt_ofNat_of_lt hlength, hzero]
    simp only [List.length_cons]
    omega

/-- The condition under which the loop ends. -/
theorem gives_isEmpty {m : Machine} {t : ScopeId} {env : List (String × Value)} {i : Identity}
    {vs : List Value} {Q : Value → Machine → Prop} (h : m.Sees t env)
    (harr : env.lookup "arr" = some (array i vs)) (hlen : env.lookup "len" = none)
    (hlength : vs.length < 2 ^ 63) (hQ : Q (boolean vs.isEmpty) m) :
    (binary .equal (call "len" [var "arr"]) (number 0)).Gives t m Q := by
  refine Expr.gives_binary (gives_call_builtin h hlen rfl ?_)
  refine Expr.allGive_cons (gives_var h harr (Expr.allGive_nil ?_))
  refine callGives_builtin rfl (Expr.gives_integer ⟨boolean vs.isEmpty, ?_, hQ⟩)
  rw [BinaryOp.apply, BinaryOp.applyIntegers, ofNat_beq_zero hlength]

variable {β : Type} {Represents : β → Value → Prop} {step : β → Int64 → β}

/-- A call of `iter` folds a list into its accumulator, if what it is given next is a step of the
fold. -/
theorem callGives_loop {m : Machine} {s : ScopeId} {env : List (String × Value)} (id : Identity)
    (accumulator : String) (next : Expr) (hs : m.Sees s env)
    (haccumulator : accumulator ∉ ["arr", "iter", "len", "rest"])
    (hiter : env.lookup "iter" =
      some (function id (closure ["arr", accumulator] (loopBody accumulator next) s)))
    (hlen : env.lookup "len" = none) (hrest : env.lookup "rest" = none)
    (hunwrap : ∀ b v, Represents b v → v.unwrap = v)
    (hnext : ∀ m₁ t i x vs a b, m.GrowsTo m₁ →
      m₁.Sees t ([(accumulator, a), ("arr", array i (integer x :: vs))] ++ env) →
      Represents b a → next.Gives t m₁ fun w m₂ => Represents (step b x) w ∧ m₁.GrowsTo m₂)
    (xs : List Int64) (hlength : xs.length < 2 ^ 63) {i : Identity} {a : Value} {b : β}
    {m₁ : Machine} (hm : m.GrowsTo m₁) (ha : Represents b a) :
    (function id (closure ["arr", accumulator] (loopBody accumulator next) s)).CallGives
      [array i (xs.map integer), a] m₁
      fun v m₂ => Represents (xs.foldl step b) v ∧ m₁.GrowsTo m₂ := by
  simp only [List.mem_cons, List.not_mem_nil, or_false, not_or] at haccumulator
  obtain ⟨harr, hiter', hlen', hrest'⟩ := haccumulator
  have hbound : ∀ a v : Value, ([(accumulator, a), ("arr", v)] ++ env).lookup "arr" = some v := by
    intro a v
    simp [List.lookup_cons, beq_false_of_ne (Ne.symm harr)]
  have hfree : ∀ (a v : Value) (y : String), accumulator ≠ y → y ≠ "arr" →
      ([(accumulator, a), ("arr", v)] ++ env).lookup y = env.lookup y := by
    intro a v y hy hy'
    simp [List.lookup_cons, beq_false_of_ne hy.symm, beq_false_of_ne hy']
  -- Every round is called with a list and an accumulator of its own, in a machine that has grown.
  induction xs generalizing i a b m₁ with
  | nil =>
    refine callGives_function (hs.grow hm) fun t m₂ _ hm₂ hsees => ?_
    replace hsees : m₂.Sees t ([(accumulator, a), ("arr", array i [])] ++ env) := hsees
    refine Stmt.allGive_single (Stmt.gives_expr (Expr.gives_cond ?_))
    refine gives_isEmpty hsees (hbound _ _) ((hfree _ _ _ hlen' (by decide)).trans hlen)
      (by simp) ?_
    have hresult :
        ([(accumulator, a), ("arr", array i [])] ++ env).lookup accumulator = some a := by
      simp
    refine Stmt.allGive_single (Stmt.gives_expr (gives_var hsees hresult ?_))
    rw [hunwrap b a ha]
    exact ⟨ha, hm₂⟩
  | cons x xs ih =>
    refine callGives_function (hs.grow hm) fun t m₂ _ hm₂ hsees => ?_
    let v : Value := array i (integer x :: xs.map integer)
    replace hsees : m₂.Sees t ([(accumulator, a), ("arr", v)] ++ env) := hsees
    refine Stmt.allGive_single (Stmt.gives_expr (Expr.gives_cond ?_))
    refine gives_isEmpty hsees (hbound _ _) ((hfree _ _ _ hlen' (by decide)).trans hlen)
      (by simpa using hlength) ?_
    refine Stmt.allGive_single (Stmt.gives_expr (gives_call_bound hsees
      ((hfree _ _ _ hiter' (by decide)).trans hiter) ?_))
    refine Expr.allGive_cons (gives_call_builtin hsees
      ((hfree _ _ _ hrest' (by decide)).trans hrest) rfl ?_)
    refine Expr.allGive_cons (gives_var hsees (hbound _ _) (Expr.allGive_nil ?_))
    refine callGives_newArray rfl fun k m₃ hm₃ => Expr.allGive_cons ?_
    have hgrown : m₁.GrowsTo m₃ := hm₂.trans hm₃
    refine (hnext m₃ t i x _ a b (hm.trans hgrown) (hsees.grow hm₃) ha).mono ?_
    rintro w m₄ ⟨hw, hm₄⟩
    have hlater : m₁.GrowsTo m₄ := hgrown.trans hm₄
    have hrounds := ih (i := k) (Nat.lt_of_succ_lt hlength) (hm.trans hlater) hw
    refine Expr.allGive_nil (hrounds.mono ?_)
    rintro u m₅ ⟨hu, hm₅⟩
    rw [hunwrap _ u hu]
    exact ⟨hu, hlater.trans hm₅⟩

/-- Behind the parameters of the function that it stands in, the loop folds what `arr` is bound to,
beginning with what `start` gives. -/
theorem allGive_loop (accumulator : String) (next start : Expr) (Represents : β → Value → Prop)
    (step : β → Int64 → β) (b : β) {m₀ m : Machine} {t : ScopeId}
    {env : List (String × Value)} {xs : List Int64} {i : Identity}
    (ht : m₀.scopes.size ≤ t) (hm₀ : m₀.GrowsTo m) (hsees : m.Sees t env)
    (haccumulator : accumulator ∉ ["arr", "iter", "len", "rest"])
    (harr : env.lookup "arr" = some (array i (xs.map integer)))
    (hlen : env.lookup "len" = none) (hrest : env.lookup "rest" = none)
    (hunwrap : ∀ b v, Represents b v → v.unwrap = v) (hlength : xs.length < 2 ^ 63)
    (hstart : ∀ m₁ f, m₁.Sees t (("iter", f) :: env) →
      start.Gives t m₁ fun v m₂ => Represents b v ∧ m₁.GrowsTo m₂)
    (hnext : ∀ m₁ t' i x vs a b f, m₀.GrowsTo m₁ →
      m₁.Sees t' ([(accumulator, a), ("arr", array i (integer x :: vs))] ++ ("iter", f) :: env) →
      Represents b a → next.Gives t' m₁ fun w m₂ => Represents (step b x) w ∧ m₁.GrowsTo m₂) :
    Stmt.AllGive (loop accumulator next start) t .null m
      fun v m' => Represents (xs.foldl step b) v ∧ m₀.GrowsTo m' := by
  refine Stmt.allGive_cons (Stmt.gives_bind (Expr.gives_function fun id m₁ hm₁ => ⟨nofun, ?_⟩))
  let iter := function id (closure ["arr", accumulator] (loopBody accumulator next) t)
  let m₂ := m₁.assign t "iter" iter
  have hm₂ : m₀.GrowsTo m₂ := (hm₀.trans hm₁).assign ht "iter" iter
  have hsees₂ : m₂.Sees t (("iter", iter) :: env) := (hsees.grow hm₁).assign "iter" iter
  have harr₂ : List.lookup "arr" (("iter", iter) :: env) = some (array i (xs.map integer)) := harr
  refine Stmt.allGive_single (Stmt.gives_expr (gives_call_bound hsees₂ rfl ?_))
  refine Expr.allGive_cons (gives_var hsees₂ harr₂ ?_)
  refine Expr.allGive_cons ((hstart m₂ iter hsees₂).mono ?_)
  rintro v m₃ ⟨hv, hm₃⟩
  have hloop := callGives_loop id accumulator next hsees₂ haccumulator rfl hlen hrest hunwrap
    (fun m₄ t' i x vs a b hm₄ => hnext m₄ t' i x vs a b iter (hm₂.trans hm₄)) xs hlength
    (i := i) hm₃ hv
  refine Expr.allGive_nil (hloop.mono ?_)
  rintro u m₄ ⟨hu, hm₄⟩
  exact ⟨hu, hm₂.trans (hm₃.trans hm₄)⟩

end Loop

section Functions

variable {m : Machine} {s : ScopeId} {env : List (String × Value)} {f : Value} {xs : List Int64}

theorem foldl_concat (g : Int64 → Int64) (ys xs : List Int64) :
    xs.foldl (fun ys x => ys ++ [g x]) ys = ys ++ xs.map g := by
  induction xs generalizing ys with
  | nil => simp
  | cons x xs ih => simp [ih]

/-- `map` maps a list, whatever function it is given. -/
theorem computes_map (id i : Identity) {g : Int64 → Int64} (hs : m.Sees s env)
    (hfree : ∀ x ∈ ["len", "rest", "push", "first"], env.lookup x = none)
    (hf : ∀ x, f.Computes m [integer x] (· = integer (g x))) (hlength : xs.length < 2 ^ 63) :
    (function id (closure ["arr", "f"] mapBody s)).Computes m [array i (xs.map integer), f]
      fun v => ∃ j, v = array j ((xs.map g).map integer) := by
  intro m₁ hm₁
  refine callGives_function (hs.grow hm₁) fun t m₂ ht hm₂ hsees => ?_
  have hloop := allGive_loop "accumulated" pushed empty
    (fun ys v => ∃ j, v = array j (ys.map integer)) (fun ys x => ys ++ [g x]) [] ht hm₂ hsees
    (by decide) rfl (hfree "len" (by simp)) (hfree "rest" (by simp)) ?_ hlength ?_ ?_
  · refine hloop.mono ?_
    rintro v m₃ ⟨⟨j, rfl⟩, hm₃⟩
    rw [foldl_concat]
    exact ⟨⟨j, rfl⟩, hm₃⟩
  · rintro ys v ⟨j, rfl⟩
    rfl
  · intro m₃ iter hsees₃
    exact Expr.gives_array (Expr.allGive_nil fun j m₄ hm₄ => ⟨⟨j, rfl⟩, hm₄⟩)
  · rintro m₃ t' k x vs _ ys iter hm₃ hsees₃ ⟨j, rfl⟩
    refine gives_call_builtin hsees₃ (hfree "push" (by simp)) rfl ?_
    refine Expr.allGive_cons (gives_var hsees₃ rfl (Expr.allGive_cons ?_))
    refine gives_call_bound hsees₃ (v := f) rfl (Expr.allGive_cons ?_)
    refine gives_call_builtin hsees₃ (hfree "first" (by simp)) rfl ?_
    refine Expr.allGive_cons (gives_var hsees₃ rfl (Expr.allGive_nil ?_))
    refine callGives_builtin rfl (Expr.allGive_nil ((hf x m₃ (hm₁.trans hm₃)).mono ?_))
    rintro w m₄ ⟨rfl, hm₄⟩
    refine Expr.allGive_nil (callGives_newArray rfl fun l m₅ hm₅ => ⟨⟨l, ?_⟩, hm₄.trans hm₅⟩)
    rw [List.map_append]
    rfl

/-- `reduce` folds a list, whatever function it is given. -/
theorem computes_reduce (id i : Identity) {step : Int64 → Int64 → Int64} (hs : m.Sees s env)
    (hfree : ∀ x ∈ ["len", "rest", "first"], env.lookup x = none)
    (hf : ∀ a x, f.Computes m [integer a, integer x] (· = integer (step a x)))
    (hlength : xs.length < 2 ^ 63) (a : Int64) :
    (function id (closure ["arr", "initial", "f"] reduceBody s)).Computes m
      [array i (xs.map integer), integer a, f] (· = integer (xs.foldl step a)) := by
  intro m₁ hm₁
  refine callGives_function (hs.grow hm₁) fun t m₂ ht hm₂ hsees => ?_
  have hloop := allGive_loop "result" combined (var "initial") (fun b v => v = integer b) step a
    ht hm₂ hsees (by decide) rfl (hfree "len" (by simp)) (hfree "rest" (by simp)) ?_ hlength ?_ ?_
  · refine hloop.mono ?_
    rintro v m₃ ⟨rfl, hm₃⟩
    exact ⟨rfl, hm₃⟩
  · rintro b v rfl
    rfl
  · intro m₃ iter hsees₃
    exact gives_var hsees₃ rfl ⟨rfl, GrowsTo.refl m₃⟩
  · rintro m₃ t' k x vs _ b iter hm₃ hsees₃ rfl
    refine gives_call_bound hsees₃ (v := f) rfl ?_
    refine Expr.allGive_cons (gives_var hsees₃ rfl (Expr.allGive_cons ?_))
    refine gives_call_builtin hsees₃ (hfree "first" (by simp)) rfl ?_
    refine Expr.allGive_cons (gives_var hsees₃ rfl (Expr.allGive_nil ?_))
    exact callGives_builtin rfl (Expr.allGive_nil (hf b x m₃ (hm₁.trans hm₃)))

theorem computes_addition (id : Identity) (hs : m.Sees s env) (a b : Int64) :
    (function id (closure ["initial", "el"] additionBody s)).Computes m [integer a, integer b]
      (· = integer (a + b)) := by
  intro m₁ hm₁
  refine callGives_function (hs.grow hm₁) fun t m₂ _ hm₂ hsees => ?_
  refine Stmt.allGive_single (Stmt.gives_expr (Expr.gives_binary ?_))
  exact gives_var hsees rfl (gives_var hsees rfl ⟨_, rfl, rfl, hm₂⟩)

theorem computes_doubling (id : Identity) (hs : m.Sees s env) (x : Int64) :
    (function id (closure ["x"] doublingBody s)).Computes m [integer x] (· = integer (x * 2)) := by
  intro m₁ hm₁
  refine callGives_function (hs.grow hm₁) fun t m₂ _ hm₂ hsees => ?_
  refine Stmt.allGive_single (Stmt.gives_expr (Expr.gives_binary ?_))
  exact gives_var hsees rfl (Expr.gives_integer ⟨_, rfl, rfl, hm₂⟩)

/-- `sum` adds up a list with the `reduce` that its scope sees. -/
theorem computes_sum (id id' i : Identity) (hs : m.Sees s env)
    (hreduce : env.lookup "reduce" =
      some (function id' (closure ["arr", "initial", "f"] reduceBody s)))
    (hfree : ∀ x ∈ ["len", "rest", "first"], env.lookup x = none) (hlength : xs.length < 2 ^ 63) :
    (function id (closure ["arr"] sumBody s)).Computes m [array i (xs.map integer)]
      (· = integer (xs.foldl (· + ·) 0)) := by
  intro m₁ hm₁
  refine callGives_function (hs.grow hm₁) fun t m₂ _ hm₂ hsees => ?_
  refine Stmt.allGive_single (Stmt.gives_expr ?_)
  refine gives_call_bound hsees hreduce (Expr.allGive_cons (gives_var hsees rfl ?_))
  refine Expr.allGive_cons (Expr.gives_integer (Expr.allGive_cons ?_))
  refine Expr.gives_function fun k m₃ hm₃ => Expr.allGive_nil ?_
  have houter : m₃.Sees s env := hs.grow (hm₁.trans (hm₂.trans hm₃))
  have hsum := computes_reduce id' i houter hfree (computes_addition k (hsees.grow hm₃)) hlength 0
    m₃ (GrowsTo.refl m₃)
  refine hsum.mono ?_
  rintro v m₄ ⟨rfl, hm₄⟩
  exact ⟨rfl, hm₂.trans (hm₃.trans hm₄)⟩

end Functions

/-- Where `input` is all that is bound, the program doubles its elements, prints them and gives
their sum. -/
theorem allGive_program {m : Machine} {i : Identity} {xs : List Int64}
    (hs : m.Sees globalScope [("input", array i (xs.map integer))]) (hlength : xs.length < 2 ^ 63) :
    Stmt.AllGive program globalScope .null m fun v m' =>
      v = integer ((xs.map (· * 2)).foldl (· + ·) 0) ∧
      m'.printed = m.printed.push (array i ((xs.map (· * 2)).map integer)).inspect ∧
      m'.lookup globalScope "input" = some (array i (xs.map integer)) := by
  refine Stmt.allGive_cons (Stmt.gives_bind (Expr.gives_function fun k₁ m₁ hm₁ => ⟨nofun, ?_⟩))
  have hs₁ := (hs.grow hm₁).assign "map" (function k₁ (closure ["arr", "f"] mapBody globalScope))
  refine Stmt.allGive_cons (Stmt.gives_bind (Expr.gives_function fun k₂ m₂ hm₂ => ⟨nofun, ?_⟩))
  have hs₂ := (hs₁.grow hm₂).assign "reduce"
    (function k₂ (closure ["arr", "initial", "f"] reduceBody globalScope))
  refine Stmt.allGive_cons (Stmt.gives_bind (Expr.gives_function fun k₃ m₃ hm₃ => ⟨nofun, ?_⟩))
  have hs₃ := (hs₂.grow hm₃).assign "sum" (function k₃ (closure ["arr"] sumBody globalScope))
  refine Stmt.allGive_cons (Stmt.gives_bind (gives_call_bound hs₃ rfl ?_))
  refine Expr.allGive_cons (gives_var hs₃ rfl (Expr.allGive_cons ?_))
  refine Expr.gives_function fun k₄ m₄ hm₄ => Expr.allGive_nil ?_
  have hs₄ := hs₃.grow hm₄
  have hmap := computes_map k₁ i hs₄ (by simp [List.lookup_cons]) (computes_doubling k₄ hs₄) hlength m₄
    (GrowsTo.refl m₄)
  refine hmap.mono ?_
  rintro _ m₅ ⟨⟨j, rfl⟩, hm₅⟩
  have hs₅ := (hs₄.grow hm₅).assign "doubled" (array j ((xs.map (· * 2)).map integer))
  refine ⟨nofun, Stmt.allGive_cons (Stmt.gives_expr (gives_call_builtin hs₅ rfl rfl ?_))⟩
  refine Expr.allGive_cons (gives_var hs₅ rfl (Expr.allGive_nil ?_))
  refine callGives_builtin rfl ⟨nofun, ?_⟩
  let m₆ := (m₅.assign globalScope "doubled" (array j ((xs.map (· * 2)).map integer))).print
    (array j ((xs.map (· * 2)).map integer)).inspect
  have hs₆ : m₆.Sees globalScope _ := hs₅.keep fun _ _ => rfl
  refine Stmt.allGive_single (Stmt.gives_expr (gives_call_bound hs₆ rfl ?_))
  refine Expr.allGive_cons (gives_var hs₆ rfl (Expr.allGive_nil ?_))
  have hlength' : (xs.map (· * 2)).length < 2 ^ 63 := by simpa using hlength
  have hsum := computes_sum k₃ k₂ j hs₆ rfl (by simp [List.lookup_cons]) hlength' m₆ (GrowsTo.refl m₆)
  refine hsum.mono ?_
  rintro _ m₇ ⟨rfl, hm₇⟩
  have hprinted : m₅.printed = m.printed :=
    (hm₄.trans hm₅).silent.trans (hm₃.silent.trans (hm₂.silent.trans hm₁.silent))
  refine ⟨rfl, ?_, (hs₆.grow hm₇).lookup_eq "input"⟩
  calc m₇.printed = m₅.printed.push (array j ((xs.map (· * 2)).map integer)).inspect := hm₇.silent
    _ = m.printed.push (array i ((xs.map (· * 2)).map integer)).inspect := by
      rw [hprinted]
      rfl

section Text

def lines : List String := [
  "",
  "        let map = fn(arr, f) \x7b",
  "            let iter = fn(arr, accumulated) \x7b",
  "                if (len(arr) == 0) \x7b",
  "                    accumulated",
  "                \x7d else \x7b",
  "                    iter(rest(arr), push(accumulated, f(first(arr))));",
  "                \x7d",
  "            \x7d;",
  "            iter(arr, []);",
  "        \x7d;",
  "",
  "        let reduce = fn(arr, initial, f) \x7b",
  "            let iter = fn(arr, result) \x7b",
  "                if (len(arr) == 0) \x7b",
  "                    result",
  "                \x7d else \x7b",
  "                    iter(rest(arr), f(result, first(arr)));",
  "                \x7d",
  "            \x7d;",
  "            iter(arr, initial);",
  "        \x7d;",
  "",
  "        let sum = fn(arr) \x7b reduce(arr, 0, fn(initial, el) \x7b initial + el \x7d) \x7d;",
  "        let doubled = map(input, fn(x) \x7b x * 2 \x7d);",
  "        puts(doubled);",
  "        sum(doubled);",
  "    "]

/-- The text of the program. -/
def source : String := "\n".intercalate lines

set_option maxRecDepth 100000 in
/-- The text reads as the program. -/
theorem ofSource_source : (Reading.ofSource source).move Span.erase = ⟨⟨program⟩, []⟩ := by
  rw [source, Reading.ofSource, Lexer.ofString, String.toList_intercalate, ← Reading.ofTokens_move]
  simp only [lines, List.map_cons, List.map_nil, String.reduceToList]
  with_unfolding_all rfl

theorem exists_parse_source :
    ∃ p, Program.parse source = .ok p ∧ p.move Span.erase = ⟨program⟩ := by
  have hread := ofSource_source
  -- From here on only the result counts; the text must not be read again.
  generalize hr : Reading.ofSource source = r at hread
  obtain ⟨p, ds⟩ := r
  rw [Reading.move, Reading.mk.injEq, List.map_eq_nil_iff] at hread
  obtain ⟨hp, rfl⟩ := hread
  refine ⟨p, ?_, hp⟩
  rw [Program.parse]
  simp only [hr]
  rfl

end Text

section Places

variable {σ : Span → Span} {v : Value} {xs : List Int64} {i : Identity}

theorem eq_integer_of_move {n : Int64} (h : v.move σ = integer n) : v = integer n := by
  cases v with
  | hash id content =>
    rw [move_hash] at h
    cases h
  | _ =>
    simp only [move] at h
    first | exact h | cases h

theorem eq_integers_of_move {vs : List Value} (h : vs.map (move σ) = xs.map integer) :
    vs = xs.map integer := by
  induction vs generalizing xs with
  | nil =>
    cases xs with
    | nil => rfl
    | cons x xs => cases h
  | cons v vs ih =>
    cases xs with
    | nil => cases h
    | cons x xs =>
      simp only [List.map_cons, List.cons.injEq] at h
      rw [eq_integer_of_move h.1, ih h.2, List.map_cons]

theorem eq_array_of_move (h : v.move σ = array i (xs.map integer)) :
    v = array i (xs.map integer) := by
  cases v with
  | array j vs =>
    rw [move_array, array.injEq] at h
    rw [h.1, eq_integers_of_move h.2]
  | hash id content =>
    rw [move_hash] at h
    cases h
  | _ =>
    simp only [move] at h
    cases h

theorem move_integers : (array i (xs.map integer)).move σ = array i (xs.map integer) := by
  rw [move_array, List.map_map]
  rfl

end Places

theorem doubled_eq_ofInt (x : Int64) : x * 2 = .ofInt (2 * x.toInt) := by
  have htwo : (2 : Int64) = .ofInt 2 := rfl
  rw [Int64.ofInt_mul, Int64.ofInt_toInt, htwo, Int64.mul_comm]

/-- Adding up in 64 bits is adding up and taking the sum into the range of 64 bits. -/
theorem foldl_doubled (a : Int) (xs : List Int64) :
    (xs.map (· * 2)).foldl (· + ·) (.ofInt a) = .ofInt (a + (xs.map fun x => 2 * x.toInt).sum) := by
  induction xs generalizing a with
  | nil => simp
  | cons x xs ih =>
    have hstep : Int64.ofInt a + x * 2 = .ofInt (a + 2 * x.toInt) := by
      rw [Int64.ofInt_add, doubled_eq_ofInt]
    rw [List.map_cons, List.foldl_cons, hstep, ih, List.map_cons, List.sum_cons, Int.add_assoc]

/-- What the program does from the machine on, wherever its text stands. -/
theorem eval_source {xs : List Int64} (hlength : xs.length < 2 ^ 63) {i : Identity} {m : Machine}
    (hscopes : m.scopes = #[⟨[("input", array i (xs.map integer))], none⟩])
    (hprinted : m.printed = #[]) {p : Program} (hp : p.move Span.erase = ⟨program⟩) :
    ∃ n, ∀ d, n ≤ d → ∃ m',
      p.eval d globalScope m = .done (integer ((xs.map (· * 2)).foldl (· + ·) 0)) m' ∧
      m'.printed = #[(array i ((xs.map (· * 2)).map integer)).inspect] ∧
      m'.lookup globalScope "input" = some (array i (xs.map integer)) := by
  have hs : m.Sees globalScope [("input", array i (xs.map integer))] :=
    .outermost (by rw [hscopes]; rfl)
  have hcarry : m.carry Span.erase #[] = m := by
    obtain ⟨scopes, printed, next⟩ := m
    subst hscopes
    simp [Machine.carry, Scope.move, move_integers]
  obtain ⟨n, v, m₁, hdone, rfl, hline, hinput⟩ := allGive_program hs hlength
  refine ⟨n, fun d hd => ?_⟩
  have heval : (⟨program⟩ : Program).eval d globalScope m = .done _ m₁ :=
    Eval.bind_of_done (hdone d hd) _
  have hcarries := p.eval_carries Span.erase #[] d globalScope m
  rw [hp, hcarry, heval] at hcarries
  obtain ⟨w, m₂, hresult, hw, rfl⟩ := Outcome.exists_of_carry_eq_done hcarries.symm
  rw [lookup_carry] at hinput
  obtain ⟨u, hu, hmove⟩ := Option.map_eq_some_iff.mp hinput
  rw [hprinted] at hline
  refine ⟨m₂, ?_, ?_, ?_⟩
  · rw [hresult, eq_integer_of_move hw]
  · simpa [Machine.carry] using hline
  · rw [hu, eq_array_of_move hmove]

/-- The program doubles the elements of any list, prints them and gives their sum. -/
theorem run_source (xs : List Int64) (hlength : xs.length < 2 ^ 63) (i : Identity) (m : Machine)
    (hscopes : m.scopes = #[⟨[("input", array i (xs.map integer))], none⟩])
    (hprinted : m.printed = #[]) :
    ∃ n, ∀ d, n ≤ d → ∃ m',
      run d globalScope source m =
        some (⟨[(array i (xs.map fun x => integer (.ofInt (2 * x.toInt)))).inspect],
          .ok (integer (.ofInt (xs.map fun x => 2 * x.toInt).sum))⟩, m') ∧
      m'.lookup globalScope "input" = some (array i (xs.map integer)) := by
  obtain ⟨p, hp, hmove⟩ := exists_parse_source
  obtain ⟨n, hn⟩ := eval_source hlength hscopes hprinted hmove
  refine ⟨n, fun d hd => ?_⟩
  obtain ⟨m', heval, hline, hinput⟩ := hn d hd
  have hvalues : (xs.map (· * 2)).map integer =
      xs.map fun x => integer (.ofInt (2 * x.toInt)) := by
    rw [List.map_map]
    exact List.map_congr_left fun x _ => congrArg integer (doubled_eq_ofInt x)
  have hsum : (xs.map (· * 2)).foldl (· + ·) 0 = .ofInt (xs.map fun x => 2 * x.toInt).sum := by
    have h := foldl_doubled 0 xs
    rwa [Int.zero_add] at h
  rw [hvalues] at hline
  rw [hsum] at heval
  refine ⟨{ m' with printed := #[] }, ?_, ?_⟩
  · rw [run_eq_answer hp, heval, Outcome.answer, hline]
  · have hscope : globalScope < m'.scopes.size := by
      refine Nat.lt_of_not_le fun hle => ?_
      rw [lookup_of_size_le hle] at hinput
      cases hinput
    have hkeeps : Keeps m' { m' with printed := #[] } := fun _ _ => rfl
    rw [hkeeps.lookup_eq hscope, hinput]

/-- The list `[1, 2, 3, 4]` is printed as `[2, 4, 6, 8]`, and the sum is 20. -/
theorem run_source_four : ∃ m m' : Machine, ∃ d,
    m.lookup globalScope "input" =
      some (array 0 [integer 1, integer 2, integer 3, integer 4]) ∧
    run d globalScope source m = some (⟨["[2, 4, 6, 8]"], .ok (integer 20)⟩, m') ∧
    m'.lookup globalScope "input" =
      some (array 0 [integer 1, integer 2, integer 3, integer 4]) := by
  let m : Machine := initial.assign globalScope "input"
    (array 0 ([1, 2, 3, 4].map integer))
  obtain ⟨n, hn⟩ := run_source [1, 2, 3, 4] (by decide) 0 m rfl rfl
  obtain ⟨m', hrun, hinput⟩ := hn n (Nat.le_refl n)
  refine ⟨m, m', n, lookup_of_bound rfl rfl, ?_, hinput⟩
  rw [hrun]
  rfl

end MapReduce

end Monkey
