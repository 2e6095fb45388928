import Monkey.Proofs.ProgramResult
import Monkey.Proofs.RelocatedRun
import Monkey.Proofs.Seam
import Monkey.Proofs.WellFormedness

/-!
Texts run one after another, and the same texts run as one. A series ends early at the first text
that is left, by a fault or with a value on its way out of a call; where every text ends with a
semicolon, the single text that has them on lines of its own does the same, but for the places of
the functions that it makes.
-/

namespace Monkey

open Machine Value Evaluator Eval

/-- A text that can be read and whose last token is a semicolon. -/
structure IsClosed (source : String) : Prop where
  parses : ∃ p, Program.parse source = .ok p
  last : lastKind (Lexer.ofString source).tokens = some (.symbol .semicolon)

theorem isClosed_iff {source : String} : IsClosed source ↔ (Program.parse source).toBool = true ∧
    lastKind (Lexer.ofString source).tokens = some (.symbol .semicolon) := by
  constructor
  · rintro ⟨⟨p, hp⟩, hlast⟩
    exact ⟨by rw [hp]; rfl, hlast⟩
  · rintro ⟨hparse, hlast⟩
    refine ⟨?_, hlast⟩
    cases hp : Program.parse source with
    | ok p => exact ⟨p, rfl⟩
    | error ds =>
      rw [hp] at hparse
      cases hparse

instance (source : String) : Decidable (IsClosed source) := decidable_of_iff _ isClosed_iff.symm

/-- A program is left, by a fault or with a value on its way out of a call. -/
def Program.isLeft (d : Nat) (scope : ScopeId) (p : Program) (m : Machine) : Bool :=
  match Evaluator.statements (Expr.eval d) scope .null p.statements m with
  | .done (.returned _) _ | .failed _ _ => true
  | _ => false

/-- The program of a text is left. -/
def isLeft (d : Nat) (scope : ScopeId) (source : String) (m : Machine) : Bool :=
  match Program.parse source with
  | .ok p => p.isLeft d scope m
  | .error _ => false

/-- The lines of both replies, and the result of the later one. -/
def Reply.followedBy (r later : Reply) : Reply := ⟨r.printed ++ later.printed, later.result⟩

/-- Runs texts one after another, up to the first that is left. -/
def runInTurn (d : Nat) (scope : ScopeId) (source : String) (others : List String) (m : Machine) :
    Option (Reply × Machine) :=
  match others with
  | [] => run d scope source m
  | next :: others =>
    (run d scope source m).bind fun (r, m') =>
      if isLeft d scope source m then some (r, m')
      else (runInTurn d scope next others m').map fun (later, m'') => (r.followedBy later, m'')

/-- A reply and the machine behind it, with the places of functions erased. -/
def bareAnswer (a : Reply × Machine) : Reply × Machine :=
  (⟨a.1.printed, a.1.result.map (Value.move Span.erase)⟩, a.2.carry Span.erase #[])

/-- Neither run ends, or both do with the same lines, the same result and the same bindings, where
functions may differ in place. -/
def SameAnswer (x y : Option (Reply × Machine)) : Prop := x.map bareAnswer = y.map bareAnswer

theorem Program.isLeft_iff {d : Nat} {scope : ScopeId} {p : Program} {m : Machine} :
    p.isLeft d scope m = true ↔ (∃ f m', p.eval d scope m = .failed f m') ∨
      ∃ v m', Leaves d scope p.statements m v m' := by
  have hleaves : ∀ v m', Leaves d scope p.statements m v m' ↔
      Evaluator.statements (Expr.eval d) scope .null p.statements m = .done (.returned v) m' :=
    fun v m' => statements_eq_returned_iff.symm
  simp only [hleaves, isLeft, Program.eval, bind_apply]
  cases Evaluator.statements (Expr.eval d) scope .null p.statements m with
  | done v m' => cases v <;> simp [pure_apply]
  | failed f m' => simp
  | unfinished => simp

/-- What a user is told of an outcome. -/
def Outcome.answer : Outcome Value → Option (Reply × Machine)
  | .done v m => some (⟨m.printed.toList, .ok v⟩, { m with printed := #[] })
  | .failed f m => some (⟨m.printed.toList, .ok (.error f)⟩, { m with printed := #[] })
  | .unfinished => none

theorem run_eq_answer {d : Nat} {scope : ScopeId} {source : String} {p : Program} {m : Machine}
    (hp : Program.parse source = .ok p) : run d scope source m = (p.eval d scope m).answer := by
  rw [run, hp]
  simp only [Program.run]
  cases p.eval d scope m <;> rfl

theorem Outcome.answer_carry (σ : Span → Span) (earlier : Array String) (o : Outcome Value) :
    (o.carry σ earlier (Value.move σ)).answer = o.answer.map fun a =>
      (⟨earlier.toList ++ a.1.printed, a.1.result.map (Value.move σ)⟩, a.2.carry σ #[]) := by
  cases o with
  | done v m => simp [carry, answer, Machine.carry, Except.map]
  | failed f m => simp [carry, answer, Machine.carry, Except.map, Value.move]
  | unfinished => rfl

theorem Outcome.map_bareAnswer (o : Outcome Value) :
    o.answer.map bareAnswer = (o.carry Span.erase #[] (Value.move Span.erase)).answer := by
  rw [answer_carry]
  rfl

/-- Statements behind others go on from what these give, unless they are left. -/
theorem statements_append {eval : Evaluator} {scope : ScopeId} {last : Value} {ss : List Stmt}
    (ss' : List Stmt) {m : Machine} (hlast : ∀ w, last ≠ .returned w) :
    eval.statements scope last (ss ++ ss') m =
      match eval.statements scope last ss m with
      | .done (.returned v) m₁ => .done (.returned v) m₁
      | .done v m₁ => eval.statements scope v ss' m₁
      | .failed f m₁ => .failed f m₁
      | .unfinished => .unfinished := by
  induction ss generalizing last m with
  | nil =>
    cases last with
    | returned w => exact absurd rfl (hlast w)
    | _ => rfl
  | cons s ss ih =>
    rw [List.cons_append, Evaluator.statements, Evaluator.statements, bind_apply, bind_apply]
    cases eval.statement scope s m with
    | done v m₁ =>
      cases v with
      | returned w => rfl
      | _ => exact ih (by simp)
    | failed f m₁ => rfl
    | unfinished => rfl

/-- A program in two parts: the second is run where the first ends, unless that is left. -/
theorem Program.eval_append {d : Nat} {scope : ScopeId} {ss ss' : List Stmt} {m : Machine}
    (hne : ss' ≠ []) : (⟨ss ++ ss'⟩ : Program).eval d scope m =
      match Evaluator.statements (Expr.eval d) scope .null ss m with
      | .done (.returned v) m₁ => .done v m₁
      | .done _ m₁ => (⟨ss'⟩ : Program).eval d scope m₁
      | .failed f m₁ => .failed f m₁
      | .unfinished => .unfinished := by
  obtain ⟨s, others, rfl⟩ := List.exists_cons_of_ne_nil hne
  have hnull : ∀ w, Value.null ≠ .returned w := by
    intro w hw
    cases hw
  rw [Program.eval, bind_apply, statements_append (s :: others) hnull]
  cases Evaluator.statements (Expr.eval d) scope .null ss m with
  | done v m₁ => cases v <;> rfl
  | failed f m₁ => rfl
  | unfinished => rfl

/-- A program in another place, run where some lines have been printed, gives the answer of the
program with these lines before it. -/
theorem Program.answer_move (p : Program) (d : Nat) (scope : ScopeId) (σ : Span → Span)
    (m : Machine) :
    ((p.move σ).eval d scope m).answer.map bareAnswer =
      ((p.eval d scope { m with printed := #[] }).answer.map bareAnswer).map fun a =>
        (⟨m.printed.toList ++ a.1.printed, a.1.result⟩, a.2) := by
  have herased : (p.move σ).move Span.erase = p.move Span.erase := by
    simp only [Program.move, List.map_map]
    congr 1
    exact List.map_congr_left fun s _ => s.move_move Span.erase σ
  have hcarry : m.carry Span.erase #[] =
      ({ m with printed := #[] } : Machine).carry Span.erase m.printed := by
    simp [Machine.carry]
  have hmoved := (p.move σ).eval_carries Span.erase #[] d scope m
  have hplain := p.eval_carries Span.erase m.printed d scope { m with printed := #[] }
  rw [herased, hcarry, hplain] at hmoved
  rw [Outcome.map_bareAnswer, ← hmoved, Outcome.answer_carry, Option.map_map]
  rfl

theorem IsClosed.statements_ne_nil {source : String} {p : Program} (h : IsClosed source)
    (hp : Program.parse source = .ok p) : p.statements ≠ [] := by
  have hstatements := Grammar.isProgram_tokenize_iff.mp (Grammar.isProgram_of_parse hp)
  have hlast := h.last
  intro hnil
  rw [hnil] at hstatements
  generalize (Lexer.ofString source).tokens = ts at hlast hstatements
  cases hstatements
  cases hlast

theorem lastKind_map_move (σ : Span → Span) (ts : List Token) :
    lastKind (ts.map (Token.move σ)) = lastKind ts := by
  rw [lastKind, lastKind, List.getLast?_map, Option.map_map]
  rfl

theorem IsClosed.join {a b : String} (ha : IsClosed a) (hb : IsClosed b) :
    IsClosed (a ++ "\n" ++ b) := by
  obtain ⟨p, hp⟩ := ha.parses
  obtain ⟨q, hq⟩ := hb.parses
  refine ⟨⟨_, Program.parse_join hp ha.last hq⟩, ?_⟩
  have hne : (Lexer.ofString b).tokens ≠ [] := by
    intro hnil
    have hlast := hb.last
    rw [hnil] at hlast
    cases hlast
  rw [tokens_join b ha.last, lastKind_append_of_ne (by simpa using hne), lastKind_map_move, hb.last]

theorem isClosed_intercalate {source : String} {others : List String}
    (h : ∀ a ∈ source :: others, IsClosed a) :
    IsClosed ("\n".intercalate (source :: others)) := by
  induction others generalizing source with
  | nil =>
    rw [String.intercalate_singleton]
    exact h source List.mem_cons_self
  | cons next others ih =>
    rw [String.intercalate_cons_cons]
    exact (h source List.mem_cons_self).join (ih fun a ha => h a (List.mem_cons_of_mem _ ha))

/-- A text and another behind it, run as one: either the first is left, or the second is run where
the first ended. -/
theorem sameAnswer_join {d : Nat} {scope : ScopeId} {a b : String} {m : Machine} (ha : IsClosed a)
    (hb : IsClosed b) :
    SameAnswer (run d scope (a ++ "\n" ++ b) m)
      ((run d scope a m).bind fun (r, m') =>
        if isLeft d scope a m then some (r, m')
        else (run d scope b m').map fun (later, m'') => (r.followedBy later, m'')) := by
  obtain ⟨p, hp⟩ := ha.parses
  obtain ⟨q, hq⟩ := hb.parses
  have hleft : isLeft d scope a m = p.isLeft d scope m := by rw [isLeft, hp]
  have hjoin := Program.parse_join hp ha.last hq
  have hq_ne : (q.move (Span.shift (a.length + 1))).statements ≠ [] := by
    simpa [Program.move] using hb.statements_ne_nil hq
  have hfirst : p.eval d scope m =
      match Evaluator.statements (Expr.eval d) scope .null p.statements m with
      | .done v m₁ => .done v.unwrap m₁
      | .failed f m₁ => .failed f m₁
      | .unfinished => .unfinished := by
    rw [Program.eval, bind_apply]
    cases Evaluator.statements (Expr.eval d) scope .null p.statements m <;> rfl
  rw [run_eq_answer hjoin, run_eq_answer hp, hleft, Program.isLeft, Program.eval_append hq_ne,
    hfirst]
  cases Evaluator.statements (Expr.eval d) scope .null p.statements m with
  | done v m₁ =>
    have hlater : ∀ r : Except (List Diagnostic) Value,
        SameAnswer ((q.move (Span.shift (a.length + 1))).eval d scope m₁).answer
          ((run d scope b { m₁ with printed := #[] }).map fun (later, m'') =>
            ((⟨m₁.printed.toList, r⟩ : Reply).followedBy later, m'')) := by
      intro r
      rw [SameAnswer, Program.answer_move, run_eq_answer hq, Option.map_map, Option.map_map]
      rfl
    cases v with
    | returned w => rfl
    | _ => exact hlater _
  | failed f m₁ => rfl
  | unfinished => rfl

theorem SameAnswer.trans {x y z : Option (Reply × Machine)} (h : SameAnswer x y)
    (h' : SameAnswer y z) : SameAnswer x z := Eq.trans h h'

/-- A text in front of answers that are the same makes the same answers. -/
theorem SameAnswer.followedBy {x y : Option (Reply × Machine)} (h : SameAnswer x y) (r : Reply) :
    SameAnswer (x.map fun (later, m) => (r.followedBy later, m))
      (y.map fun (later, m) => (r.followedBy later, m)) := by
  have hfirst : ∀ z : Option (Reply × Machine),
      (z.map fun (later, m) => (r.followedBy later, m)).map bareAnswer =
        (z.map bareAnswer).map fun (later, m) => (r.followedBy later, m) := by
    intro z
    rw [Option.map_map, Option.map_map]
    rfl
  rw [SameAnswer, hfirst, hfirst, h]

/-- Texts on lines of their own, each closed by a semicolon, do as one text what they do in turn. -/
theorem sameAnswer_intercalate {d : Nat} {scope : ScopeId} {source : String} {others : List String}
    {m : Machine} (h : ∀ a ∈ source :: others, IsClosed a) :
    SameAnswer (run d scope ("\n".intercalate (source :: others)) m)
      (runInTurn d scope source others m) := by
  induction others generalizing source m with
  | nil =>
    rw [String.intercalate_singleton, runInTurn]
    rfl
  | cons next others ih =>
    obtain ⟨hsource, hothers⟩ := List.forall_mem_cons.mp h
    rw [String.intercalate_cons_cons, runInTurn]
    refine (sameAnswer_join hsource (isClosed_intercalate hothers)).trans ?_
    cases run d scope source m with
    | none => rfl
    | some answer =>
      obtain ⟨r, m'⟩ := answer
      simp only [Option.bind_some]
      split
      · rfl
      · exact (ih hothers).followedBy r

/-- Texts on lines of their own, each closed by a semicolon, give as one text the result, the lines
and the bindings that they give in turn, up to the places of functions. What ends a series is a
fault, or a program that is left with a value on its way out of a call. -/
theorem run_intercalate (d : Nat) (scope : ScopeId) (source : String) (others : List String)
    (m : Machine) (h : ∀ a ∈ source :: others, IsClosed a) :
    SameAnswer (run d scope ("\n".intercalate (source :: others)) m)
      (runInTurn d scope source others m) ∧
    ∀ (p : Program) (m₁ : Machine), p.isLeft d scope m₁ = true ↔
      (∃ f m', p.eval d scope m₁ = .failed f m') ∨ ∃ v m', Leaves d scope p.statements m₁ v m' :=
  ⟨sameAnswer_intercalate h, fun _ _ => Program.isLeft_iff⟩

/-- A function that one text binds and the next calls. -/
theorem run_intercalate_call :
    (∀ a ∈ ["let f = fn(x) \x7b x + 1 \x7d;", "f(2);"], IsClosed a) ∧
    SameAnswer (run 8 globalScope "let f = fn(x) \x7b x + 1 \x7d;\nf(2);" initial)
      (runInTurn 8 globalScope "let f = fn(x) \x7b x + 1 \x7d;" ["f(2);"] initial) ∧
    ((runInTurn 8 globalScope "let f = fn(x) \x7b x + 1 \x7d;" ["f(2);"] initial).bind fun a =>
      a.1.result.toOption.map Value.inspect) = some "3" := by
  have hclosed : ∀ a ∈ ["let f = fn(x) \x7b x + 1 \x7d;", "f(2);"], IsClosed a := by decide +kernel
  refine ⟨hclosed, (run_intercalate 8 globalScope _ ["f(2);"] initial hclosed).1, ?_⟩
  decide +kernel

/-- What is carried out where a program is just a name. -/
inductive NameAction (scope : ScopeId) (t : Token) (x : Name) : Action → Prop
  | statements : NameAction scope t x (.statements scope .null [.expr t (.name x)])
  | behind (last : Value) : NameAction scope t x (.statements scope last [])
  | statement : NameAction scope t x (.statement scope (.expr t (.name x)))
  | expression : NameAction scope t x (.expression scope (.name x))
  | resolve : NameAction scope t x (.resolve scope x)

theorem Activity.nameAction_of_within {d : Nat} {scope : ScopeId} {t : Token} {x : Name}
    {m : Machine} {a : Activity}
    (h : (ofProgram d scope ⟨[.expr t (.name x)]⟩ m).Within a) : NameAction scope t x a.action := by
  refine h.induct (P := fun a => NameAction scope t x a.action) ?_ .statements
  rintro ⟨depth, action, m₁⟩ b ha hpart
  cases ha with
  | statements =>
    cases hpart with
    | statement => exact .statement
    | statements => exact .behind _
  | behind last => cases hpart
  | statement =>
    cases hpart with
    | expression => exact .expression
  | expression =>
    cases hpart with
    | resolve => exact .resolve
  | resolve => cases hpart

theorem parse_name : ∃ t, Program.parse "x;" = .ok ⟨[.expr t (.name ⟨t⟩)]⟩ := by
  have htokens : (Lexer.ofString "x;").tokens =
      [⟨.ident, "x", ⟨0, 1⟩⟩] ++ ⟨.symbol .semicolon, ";", ⟨1, 2⟩⟩ :: [] := by decide +kernel
  refine ⟨⟨.ident, "x", ⟨0, 1⟩⟩, Grammar.parse_of_isProgram ?_⟩
  rw [Grammar.isProgram_tokenize_iff, htokens]
  refine .closed (.expr ?_) rfl .nil
  exact .next (.next (.next (.next (.next (.next (.name rfl))))))

/-- A session that has kept a value on its way out of a call, and two texts of which the first is
just its name: no `return` is executed and no fault is raised, and still the second text is run
only where it stands by itself. -/
theorem run_intercalate_kept_return : ∃ (m m' m'' : Machine) (p : Program) (r r' r'' : Reply),
    m.Reached ∧ IsClosed "x;" ∧ IsClosed "2;" ∧ Program.parse "x;" = .ok p ∧
    (∀ a, (Activity.ofProgram 4 globalScope p m).Within a → ∀ v, a.action ≠ .wrap v) ∧
    run 4 globalScope "x;" m = some (r, m') ∧ r.succeeded = true ∧
    run 4 globalScope "2;" m' = some (r', m'') ∧ r'.lines = ["2"] ∧
    (run 4 globalScope "x;\n2;" m).map Prod.fst = some r'' ∧ r''.lines = ["1"] := by
  have h : ((run 4 globalScope "let x = if (true) \x7b return 1; \x7d;" initial).bind fun a =>
      (run 4 globalScope "x;" a.2).bind fun b =>
        (run 4 globalScope "2;" b.2).bind fun c =>
          (run 4 globalScope "x;\n2;" a.2).map fun e =>
            (b.1.succeeded, c.1.lines, e.1.lines)) = some (true, ["2"], ["1"]) := by
    decide +kernel
  obtain ⟨⟨r₀, m⟩, hbound, h⟩ := Option.bind_eq_some_iff.mp h
  obtain ⟨⟨r, m'⟩, hfirst, h⟩ := Option.bind_eq_some_iff.mp h
  obtain ⟨⟨r', m''⟩, hsecond, h⟩ := Option.bind_eq_some_iff.mp h
  obtain ⟨⟨r'', m₃⟩, hboth, h⟩ := Option.map_eq_some_iff.mp h
  simp only [Prod.mk.injEq] at h
  obtain ⟨hsucceeded, hlines, hlines'⟩ := h
  obtain ⟨t, hparse⟩ := parse_name
  refine ⟨m, m', m'', _, r, r', r'', .run .initial hbound, by decide +kernel, by decide +kernel,
    hparse, ?_, hfirst, hsucceeded, hsecond, hlines, by rw [hboth]; rfl, hlines'⟩
  intro a ha v heq
  have hname := Activity.nameAction_of_within ha
  rw [heq] at hname
  cases hname

end Monkey
