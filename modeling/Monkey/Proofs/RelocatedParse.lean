import Monkey.Proofs.Relocation
import Monkey.Tree.Parser

/-!
The parser does not look at spans. Of moved tokens it makes the moved tree, or complains at the
moved place of what it makes of the tokens themselves, and goes on at the same token.
-/

namespace Monkey

namespace Parsed

variable {α α' β β' : Type} {n k : Nat} {σ : Span → Span}

/-- The second result is the first in another place. -/
structure Moves (σ : Span → Span) (f : α → α') (p : Parsed α n) (q : Parsed α' k) : Prop where
  outcome : q.outcome = (p.outcome.map f).mapError (Diagnostic.move σ)
  rest : q.rest = p.rest.map (Token.move σ)

theorem moves_done {f : α → α'} (a : α) (rest : List Token) :
    Moves σ f (done a rest) (done (f a) (rest.map (Token.move σ))) := ⟨rfl, rfl⟩

theorem moves_failed {f : α → α'} (d : Diagnostic) (rest : List Token) :
    Moves σ f (failed d rest) (failed (d.move σ) (rest.map (Token.move σ))) := ⟨rfl, rfl⟩

namespace Moves

variable {f : α → α'} {g : β → β'}

theorem loosen {p : Parsed α (n - 1)} {q : Parsed α' (k - 1)} (h : Moves σ f p q) :
    Moves σ f p.loosen q.loosen := ⟨h.outcome, h.rest⟩

theorem afterToken {p : Parsed α n} {q : Parsed α' k} (h : Moves σ f p q) :
    Moves σ f p.afterToken q.afterToken := ⟨h.outcome, h.rest⟩

theorem map {p : Parsed α n} {q : Parsed α' k} {u : α → β} {u' : α' → β'} (h : Moves σ f p q)
    (hu : ∀ a, u' (f a) = g (u a)) : Moves σ g (p.map u) (q.map u') := by
  refine ⟨?_, h.rest⟩
  rw [outcome_map, outcome_map, h.outcome]
  cases p.outcome with
  | ok a => exact congrArg Except.ok (hu a)
  | error d => rfl

theorem bind {p : Parsed α n} {q : Parsed α' k}
    {u : α → (rest : List Token) → rest.length ≤ n → Parsed β rest.length}
    {u' : α' → (rest : List Token) → rest.length ≤ k → Parsed β' rest.length} (h : Moves σ f p q)
    (hu : ∀ a rest hn hk, Moves σ g (u a rest hn) (u' (f a) (rest.map (Token.move σ)) hk)) :
    Moves σ g (p.bind u) (q.bind u') := by
  obtain ⟨outcome, rest, hn⟩ := p
  obtain ⟨outcome', rest', hk⟩ := q
  obtain ⟨houtcome, hrest⟩ := h
  simp only at houtcome hrest
  subst houtcome hrest
  cases outcome with
  | ok a => exact ⟨(hu a rest hn hk).outcome, (hu a rest hn hk).rest⟩
  | error d => exact ⟨rfl, rfl⟩

theorem ite {c : Prop} [Decidable c] {p p' : Parsed α n} {q q' : Parsed α' k}
    (h : c → Moves σ f p q) (h' : ¬ c → Moves σ f p' q') :
    Moves σ f (if c then p else p') (if c then q else q') := by
  by_cases hc : c
  · rw [if_pos hc, if_pos hc]
    exact h hc
  · rw [if_neg hc, if_neg hc]
    exact h' hc

end Moves

end Parsed

namespace Parser

open Parsed

variable (σ : Span → Span) (stop : Token)

theorem expect_moves (kind : Token.Kind) (ts : List Token) :
    Moves σ (Token.move σ) (expect stop kind ts)
      (expect (stop.move σ) kind (ts.map (Token.move σ))) := by
  cases ts with
  | nil => exact moves_failed ⟨.unexpected kind stop.kind, stop.span⟩ []
  | cons t rest =>
    show Moves σ _ _ (expect (stop.move σ) kind (t.move σ :: rest.map (Token.move σ)))
    simp only [expect, Token.kind_move]
    refine .ite (fun _ => ?_) fun _ => ?_
    · exact (moves_done t rest).afterToken
    · exact moves_failed ⟨.unexpected kind t.kind, t.span⟩ (t :: rest)

theorem close_moves (s : Stmt) (ts : List Token) :
    Moves σ (Stmt.move σ) (close s ts) (close (s.move σ) (ts.map (Token.move σ))) := by
  cases ts with
  | nil => exact moves_done s []
  | cons t rest =>
    show Moves σ _ _ (close (s.move σ) (t.move σ :: rest.map (Token.move σ)))
    simp only [close, Token.kind_move]
    refine .ite (fun _ => ?_) fun _ => ?_
    · exact (moves_done s rest).afterToken
    · exact moves_done s (t :: rest)

theorem integer_moves (t : Token) (rest : List Token) :
    Moves σ (Expr.move σ) (integer t rest) (integer (t.move σ) (rest.map (Token.move σ))) := by
  simp only [integer, Token.literal_move]
  refine .ite (fun _ => ?_) fun _ => ?_
  · exact moves_done (Expr.integer t _) rest
  · exact moves_failed ⟨.integerTooLarge t.literal, t.span⟩ rest

variable {σ stop} in
theorem listTail_moves {α : Type} {f : α → α} {closing : Symbol} (item : α) (ts : List Token)
    {more : (rest : List Token) → rest.length < ts.length → Parsed (List α) rest.length}
    {more' : (rest : List Token) → rest.length < (ts.map (Token.move σ)).length →
      Parsed (List α) rest.length}
    (h : ∀ rest h h', Moves σ (List.map f) (more rest h) (more' (rest.map (Token.move σ)) h')) :
    Moves σ (List.map f) (listTail stop closing item ts more)
      (listTail (stop.move σ) closing (f item) (ts.map (Token.move σ)) more') := by
  cases ts with
  | nil => exact (expect_moves σ stop (.symbol closing) []).map fun _ => rfl
  | cons t rest =>
    show Moves σ _ _
      (listTail (stop.move σ) closing (f item) (t.move σ :: rest.map (Token.move σ)) more')
    simp only [listTail, Token.kind_move]
    refine .ite (fun _ => ?_) fun _ => ?_
    · exact ((h rest _ _).map (u := (item :: ·)) (g := List.map f) fun _ => rfl).afterToken
    · exact (expect_moves σ stop (.symbol closing) (t :: rest)).map fun _ => rfl

theorem names_moves (ts : List Token) :
    Moves σ (List.map (Name.move σ)) (names stop ts)
      (names (stop.move σ) (ts.map (Token.move σ))) := by
  rw [names, names]
  refine (expect_moves σ stop .ident ts).bind fun x rest hrest _ => ?_
  exact listTail_moves (f := Name.move σ) ⟨x⟩ rest fun rest' hlt _ => names_moves rest'
termination_by ts.length

theorem parameters_moves (ts : List Token) :
    Moves σ (List.map (Name.move σ)) (parameters stop ts)
      (parameters (stop.move σ) (ts.map (Token.move σ))) := by
  cases ts with
  | nil => exact names_moves σ stop []
  | cons t rest =>
    show Moves σ _ _ (parameters (stop.move σ) (t.move σ :: rest.map (Token.move σ)))
    simp only [parameters, Token.kind_move]
    refine .ite (fun _ => ?_) fun _ => ?_
    · exact (moves_done [] rest).afterToken
    · exact names_moves σ stop (t :: rest)

mutual

theorem expr_moves (p : Precedence) (ts : List Token) :
    Moves σ (Expr.move σ) (expr stop p ts) (expr (stop.move σ) p (ts.map (Token.move σ))) := by
  rw [expr, expr]
  exact (operand_moves ts).bind fun left rest _ _ => extend_moves p left rest
termination_by 5 * ts.length + 1

theorem operand_moves (ts : List Token) :
    Moves σ (Expr.move σ) (operand stop ts)
      (operand (stop.move σ) (ts.map (Token.move σ))) := by
  cases ts with
  | nil =>
    show Moves σ _ _ (operand (stop.move σ) [])
    rw [operand, operand]
    exact moves_failed ⟨.noOperand stop.kind, stop.span⟩ []
  | cons t rest =>
    show Moves σ _ _ (operand (stop.move σ) (t.move σ :: rest.map (Token.move σ)))
    rw [operand.eq_def, operand.eq_def]
    dsimp only
    rw [Token.kind_move]
    cases hk : t.kind with
    | ident => exact moves_done (Expr.name ⟨t⟩) rest
    | integer => exact integer_moves σ t rest
    | string => exact moves_done (Expr.string t) rest
    | keyword k =>
      cases k with
      | trueWord => exact moves_done (Expr.boolean t true) rest
      | falseWord => exact moves_done (Expr.boolean t false) rest
      | ifWord =>
        refine (expect_moves σ stop (.symbol .openParen) rest).bind fun _ rest _ _ => ?_
        refine (expr_moves .lowest rest).loosen.bind fun condition rest _ _ => ?_
        refine (expect_moves σ stop (.symbol .closeParen) rest).bind fun _ rest _ _ => ?_
        refine (block_moves rest).bind fun consequence rest _ _ => ?_
        cases rest with
        | nil => exact moves_done (Expr.cond t condition consequence none) []
        | cons u rest =>
          refine .ite (fun _ => ?_) fun _ => ?_
          · refine ((block_moves rest).map fun alternative => ?_).afterToken
            exact Expr.move_cond σ t condition consequence (some alternative)
          · exact moves_done (Expr.cond t condition consequence none) (u :: rest)
      | fnWord =>
        refine (expect_moves σ stop (.symbol .openParen) rest).bind fun _ rest _ _ => ?_
        refine (parameters_moves σ stop rest).bind fun xs rest _ _ => ?_
        exact (block_moves rest).map fun body => by rw [Expr.move]
      | _ => exact moves_failed ⟨.noOperand _, t.span⟩ rest
    | symbol s =>
      cases s with
      | openParen =>
        refine (expr_moves .lowest rest).loosen.bind fun e rest _ _ => ?_
        exact (expect_moves σ stop (.symbol .closeParen) rest).map fun _ => rfl
      | openBracket =>
        exact (exprs_moves .closeBracket rest).map fun es => by rw [Expr.move, Expr.moveAll_eq_map]
      | openBrace =>
        cases rest with
        | nil => exact (pairs_moves []).map fun ps => by rw [Expr.move, Expr.movePairs_eq_map]
        | cons u rest =>
          refine .ite (fun _ => ?_) fun _ => ?_
          · exact (moves_done (Expr.hash t []) rest).afterToken
          · exact (pairs_moves (u :: rest)).map fun ps => by
              rw [Expr.move, Expr.movePairs_eq_map]
      | bang => exact (expr_moves .unary rest).loosen.map fun e => by rw [Expr.move]
      | minus => exact (expr_moves .unary rest).loosen.map fun e => by rw [Expr.move]
      | _ => exact moves_failed ⟨.noOperand _, t.span⟩ rest
    | _ => exact moves_failed ⟨.noOperand _, t.span⟩ rest
termination_by 5 * ts.length
decreasing_by all_goals grind

theorem extend_moves (p : Precedence) (left : Expr) (ts : List Token) :
    Moves σ (Expr.move σ) (extend stop p left ts)
      (extend (stop.move σ) p (left.move σ) (ts.map (Token.move σ))) := by
  cases ts with
  | nil =>
    show Moves σ _ _ (extend (stop.move σ) p (left.move σ) [])
    rw [extend, extend]
    exact moves_done left []
  | cons t rest =>
    show Moves σ _ _
      (extend (stop.move σ) p (left.move σ) (t.move σ :: rest.map (Token.move σ)))
    rw [extend, extend, Token.kind_move]
    refine .ite (fun _ => ?_) fun _ => ?_
    · have hbinary : ∀ op, Moves σ (Expr.move σ)
          ((expr stop (.ofKind t.kind) rest).loosen.bind fun right rest _ =>
            extend stop p (.binary t op left right) rest).afterToken
          ((expr (stop.move σ) (.ofKind t.kind) (rest.map (Token.move σ))).loosen.bind
            fun right rest _ => extend (stop.move σ) p
              (.binary (t.move σ) op (left.move σ) right) rest).afterToken := by
        intro op
        refine ((expr_moves (.ofKind t.kind) rest).loosen.bind fun right rest _ _ => ?_).afterToken
        have hright := extend_moves p (.binary t op left right) rest
        rw [Expr.move] at hright
        exact hright
      cases hk : t.kind with
      | symbol s =>
        rw [hk] at hbinary
        cases s with
        | openParen =>
          refine ((exprs_moves .closeParen rest).bind fun arguments rest _ _ => ?_).afterToken
          have hcall := extend_moves p (.call t left arguments) rest
          rw [Expr.move, Expr.moveAll_eq_map] at hcall
          exact hcall
        | openBracket =>
          refine ((expr_moves .lowest rest).loosen.bind fun position rest _ _ => ?_).afterToken
          refine (expect_moves σ stop (.symbol .closeBracket) rest).bind fun _ rest _ _ => ?_
          have hindex := extend_moves p (.index t left position) rest
          rw [Expr.move] at hindex
          exact hindex
        | plus => exact hbinary .add
        | minus => exact hbinary .subtract
        | asterisk => exact hbinary .multiply
        | slash => exact hbinary .divide
        | less => exact hbinary .less
        | greater => exact hbinary .greater
        | equal => exact hbinary .equal
        | notEqual => exact hbinary .notEqual
        | _ => exact moves_done left (t :: rest)
      | _ => exact moves_done left (t :: rest)
    · exact moves_done left (t :: rest)
termination_by 5 * ts.length
decreasing_by all_goals grind

theorem exprs_moves (closing : Symbol) (ts : List Token) :
    Moves σ (List.map (Expr.move σ)) (exprs stop closing ts)
      (exprs (stop.move σ) closing (ts.map (Token.move σ))) := by
  cases ts with
  | nil =>
    show Moves σ _ _ (exprs (stop.move σ) closing [])
    rw [exprs, exprs]
    exact elements_moves closing []
  | cons t rest =>
    show Moves σ _ _ (exprs (stop.move σ) closing (t.move σ :: rest.map (Token.move σ)))
    rw [exprs, exprs, Token.kind_move]
    refine .ite (fun _ => ?_) fun _ => ?_
    · exact (moves_done [] rest).afterToken
    · exact elements_moves closing (t :: rest)
termination_by 5 * ts.length + 3

theorem elements_moves (closing : Symbol) (ts : List Token) :
    Moves σ (List.map (Expr.move σ)) (elements stop closing ts)
      (elements (stop.move σ) closing (ts.map (Token.move σ))) := by
  rw [elements, elements]
  refine (expr_moves .lowest ts).loosen.bind fun e rest _ _ => ?_
  exact listTail_moves e rest fun rest' _ _ => elements_moves closing rest'
termination_by 5 * ts.length + 2

theorem pairs_moves (ts : List Token) :
    Moves σ (List.map (Prod.map (Expr.move σ) (Expr.move σ))) (pairs stop ts)
      (pairs (stop.move σ) (ts.map (Token.move σ))) := by
  rw [pairs, pairs]
  refine (expr_moves .lowest ts).loosen.bind fun key rest _ _ => ?_
  refine (expect_moves σ stop (.symbol .colon) rest).bind fun _ rest _ _ => ?_
  refine (expr_moves .lowest rest).loosen.bind fun value rest _ _ => ?_
  exact listTail_moves (f := Prod.map (Expr.move σ) (Expr.move σ)) (key, value) rest
    fun rest' _ _ => pairs_moves rest'
termination_by 5 * ts.length + 2

theorem block_moves (ts : List Token) :
    Moves σ (Block.move σ) (block stop ts) (block (stop.move σ) (ts.map (Token.move σ))) := by
  rw [block, block]
  refine (expect_moves σ stop (.symbol .openBrace) ts).bind fun brace rest _ _ => ?_
  exact (statements_moves rest).map fun ss => by rw [Block.move, Stmt.moveAll_eq_map]
termination_by 5 * ts.length + 4

theorem statements_moves (ts : List Token) :
    Moves σ (List.map (Stmt.move σ)) (statements stop ts)
      (statements (stop.move σ) (ts.map (Token.move σ))) := by
  cases ts with
  | nil =>
    show Moves σ _ _ (statements (stop.move σ) [])
    rw [statements, statements]
    exact moves_failed ⟨.unexpected (.symbol .closeBrace) stop.kind, stop.span⟩ []
  | cons t rest =>
    show Moves σ _ _ (statements (stop.move σ) (t.move σ :: rest.map (Token.move σ)))
    rw [statements, statements, Token.kind_move]
    refine .ite (fun _ => ?_) fun _ => ?_
    · exact (moves_done [] rest).afterToken
    · refine ((statement_moves (t :: rest)).bind fun s behind _ _ => ?_).loosen
      exact (statements_moves behind).map fun ss => rfl
termination_by 5 * ts.length + 3
decreasing_by all_goals grind

theorem statement_moves (ts : List Token) :
    Moves σ (Stmt.move σ) (statement stop ts)
      (statement (stop.move σ) (ts.map (Token.move σ))) := by
  cases ts with
  | nil =>
    show Moves σ _ _ (statement (stop.move σ) [])
    rw [statement, statement]
    exact (expr_moves .lowest []).map fun e => by rw [Stmt.move]
  | cons t rest =>
    show Moves σ _ _ (statement (stop.move σ) (t.move σ :: rest.map (Token.move σ)))
    rw [statement, statement, Token.kind_move]
    have hexpr : Moves σ (Stmt.move σ)
        ((expr stop .lowest (t :: rest)).bind fun value rest _ => close (.expr t value) rest)
        ((expr (stop.move σ) .lowest (t.move σ :: rest.map (Token.move σ))).bind
          fun value rest _ => close (.expr (t.move σ) value) rest) := by
      refine (expr_moves .lowest (t :: rest)).bind fun value rest _ _ => ?_
      exact close_moves σ (.expr t value) rest
    cases hk : t.kind with
    | keyword k =>
      cases k with
      | letWord =>
        refine (expect_moves σ stop .ident rest).bind fun x rest _ _ => ?_
        refine (expect_moves σ stop (.symbol .assign) rest).bind fun _ rest _ _ => ?_
        refine (expr_moves .lowest rest).loosen.bind fun value rest _ _ => ?_
        exact close_moves σ (.bind t ⟨x⟩ value) rest
      | returnWord =>
        refine (expr_moves .lowest rest).loosen.bind fun value rest _ _ => ?_
        exact close_moves σ (.return t value) rest
      | _ => exact hexpr
    | _ => exact hexpr
termination_by 5 * ts.length + 2
decreasing_by all_goals grind

end

end Parser

/-- What reading makes of a text in another place. -/
def Reading.move (σ : Span → Span) (r : Reading) : Reading :=
  ⟨r.program.move σ, r.diagnostics.map (Diagnostic.move σ)⟩

/-- Reading moved tokens gives the moved program, and the same complaints at the moved places. -/
theorem Reading.ofTokens_move (σ : Span → Span) (stop : Token) (ts : List Token) :
    ofTokens (stop.move σ) (ts.map (Token.move σ)) = (ofTokens stop ts).move σ := by
  cases ts with
  | nil =>
    rw [List.map_nil, ofTokens, ofTokens]
    rfl
  | cons t rest =>
    have hmoves : (Parser.statement stop (t :: rest)).Moves σ (Stmt.move σ)
        (Parser.statement (stop.move σ) (t.move σ :: rest.map (Token.move σ))) :=
      Parser.statement_moves σ stop (t :: rest)
    rw [List.map_cons, ofTokens, ofTokens]
    obtain ⟨houtcome, hrest⟩ := hmoves
    generalize Parser.statement (stop.move σ) _ = q at houtcome hrest
    obtain ⟨outcome', behind', hle'⟩ := q
    cases hp : Parser.statement stop (t :: rest) with
    | mk outcome behind hle =>
      rw [hp] at houtcome hrest
      simp only at houtcome hrest
      subst houtcome hrest
      cases outcome with
      | ok s =>
        show Reading.mk
          ⟨s.move σ :: (ofTokens (stop.move σ) (behind.map _)).program.statements⟩ _ = _
        rw [ofTokens_move σ stop behind]
        rfl
      | error d =>
        show Reading.mk _ (d.move σ :: (ofTokens (stop.move σ) (behind.map _)).diagnostics) = _
        rw [ofTokens_move σ stop behind]
        rfl
termination_by ts.length
decreasing_by all_goals grind

end Monkey
