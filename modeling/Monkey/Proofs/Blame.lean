import Monkey.Proofs.ParserSoundness
import Monkey.Proofs.Respelling

/-!
Where reading fails. A diagnostic is about one token, or the end of input, and it says what kind of
token that is; and everything before that token is good: some more tokens behind it would make it
what was to be read. A step of the parser that is made of steps stops at the first that fails, so
the proof goes along the steps: each of them is given what has been read before it, and asks that
this can be completed.
-/

namespace Monkey

/-- The complaint says what the token is. -/
def Complaint.Describes (t : Token) : Complaint → Prop
  | .noOperand found => found = t.kind
  | .unexpected _ found => found = t.kind
  | .integerTooLarge literal => t.kind = .integer ∧ literal = t.literal

/-- The diagnostic stands at the token and says what it is. -/
def Diagnostic.Describes (d : Diagnostic) (t : Token) : Prop :=
  d.span = t.span ∧ d.value.Describes t

/-- Another token was required, or else no operand begins here. -/
def Complaint.isUnexpected : Complaint → Bool
  | .unexpected _ _ => true
  | .noOperand _ | .integerTooLarge _ => false

/-- Tokens that can be written complete these tokens to such as have the property. -/
def Viable (P : List Token → Prop) (us : List Token) : Prop :=
  ∃ vs, (∀ v ∈ vs, v.IsSpelled) ∧ P (us ++ vs)

namespace Viable

variable {P Q : List Token → Prop} {us vs : List Token}

theorem self (h : P us) : Viable P us := ⟨[], by simp, by rwa [List.append_nil]⟩

theorem of_append (h : Viable P (us ++ vs)) (hvs : ∀ v ∈ vs, v.IsSpelled) : Viable P us := by
  obtain ⟨ws, hws, hP⟩ := h
  refine ⟨vs ++ ws, ?_, by rwa [← List.append_assoc]⟩
  exact fun v hv => (List.mem_append.mp hv).elim (hvs v) (hws v)

/-- What begins a part of something begins the whole. -/
theorem within (h : Viable Q vs) (hPQ : ∀ ws, Q ws → Viable P (us ++ ws)) :
    Viable P (us ++ vs) := by
  obtain ⟨ws, hws, hQ⟩ := h
  have hP := hPQ _ hQ
  rw [← List.append_assoc] at hP
  exact hP.of_append hws

theorem mono (h : Viable Q us) (hPQ : ∀ ws, Q ws → Viable P ws) : Viable P us := by
  have hnil : Viable P ([] ++ us) := h.within hPQ
  rwa [List.nil_append] at hnil

end Viable

/-- The name that completions are made of. -/
def Token.sample : Token := ⟨.ident, "x", .empty 0⟩

@[simp] theorem Token.isSpelled_sample : Token.sample.IsSpelled := by
  have hx : ∀ c ∈ ['x'], Token.isNameChar c = true := List.forall_mem_singleton.mpr rfl
  refine ⟨['x'], [], .name (List.cons_ne_nil _ _) hx nofun fun k => ?_⟩
  cases k <;> decide

@[simp] theorem Token.isSpelled_ofSymbol (s : Symbol) : (Token.ofSymbol s).IsSpelled := by
  cases s
  case equal => exact ⟨_, [], .equal⟩
  case notEqual => exact ⟨_, [], .notEqual⟩
  all_goals exact ⟨_, [], .symbol (by rfl) (by simp)⟩

/-- The diagnostic is about the first of the tokens `behind`, or the end of input if there is none,
and reading goes on at `rest`: behind a token that begins no operand, at a token that stands where
another was required. -/
inductive Blames (stop : Token) : Diagnostic → List Token → List Token → Prop
  | unexpected {kind : Token.Kind} (behind : List Token) :
      Blames stop ⟨.unexpected kind (behind.headD stop).kind, (behind.headD stop).span⟩
        behind behind
  | noOperand (behind : List Token) :
      Blames stop ⟨.noOperand (behind.headD stop).kind, (behind.headD stop).span⟩
        behind behind.tail
  | tooLarge {t : Token} {rest : List Token} (ht : t.kind = .integer) :
      Blames stop ⟨.integerTooLarge t.literal, t.span⟩ (t :: rest) rest

theorem Blames.describes {stop : Token} {d : Diagnostic} {behind rest : List Token}
    (h : Blames stop d behind rest) : d.Describes (behind.headD stop) := by
  cases h with
  | unexpected => exact ⟨rfl, rfl⟩
  | noOperand => exact ⟨rfl, rfl⟩
  | tooLarge ht => exact ⟨rfl, ht, rfl⟩

/-- If reading these tokens fails, then at a token before which everything could have become such as
has the property, `before` being what was read already. -/
def Breaks {α : Type} {n : Nat} (stop : Token) (P : List Token → Prop) (before ts : List Token)
    (p : Parsed α n) : Prop :=
  ∀ ⦃d⦄, p.outcome = .error d → ∃ us behind, ts = us ++ behind ∧ Blames stop d behind p.rest ∧
    Viable P (before ++ us)

namespace Breaks

variable {α β : Type} {n : Nat} {stop : Token} {P Q : List Token → Prop}
  {before ts : List Token} {p : Parsed α n}

theorem of_ok {a : α} (h : p.outcome = .ok a) : Breaks stop P before ts p := by
  intro d hd
  rw [h] at hd
  cases hd

theorem map {f : α → β} (h : Breaks stop P before ts p) : Breaks stop P before ts (p.map f) := by
  intro d hd
  rw [Parsed.outcome_map] at hd
  cases hp : p.outcome with
  | ok a =>
    rw [hp] at hd
    cases hd
  | error e =>
    rw [hp] at hd
    obtain rfl : e = d := Except.error.inj hd
    exact h hp

/-- Tokens read before count as read. -/
theorem behind (us : List Token) (h : Breaks stop P (before ++ us) ts p) :
    Breaks stop P before (us ++ ts) p := by
  intro d hd
  obtain ⟨vs, behind, rfl, hblames, hviable⟩ := h hd
  refine ⟨us ++ vs, behind, (List.append_assoc _ _ _).symm, hblames, ?_⟩
  rwa [← List.append_assoc]

theorem bind {f : α → (rest : List Token) → rest.length ≤ n → Parsed β rest.length}
    (h : Breaks stop P before ts p)
    (hf : ∀ a mid hmid, p.Yields a mid → Breaks stop P before ts (f a mid hmid)) :
    Breaks stop P before ts (p.bind f) := by
  obtain ⟨outcome, mid, hmid⟩ := p
  cases outcome with
  | ok a => exact hf a mid hmid ⟨rfl, rfl⟩
  | error d =>
    have houtcome : (Parsed.bind ⟨.error d, mid, hmid⟩ f).outcome = .error d := rfl
    intro e he
    rw [houtcome] at he
    obtain rfl : d = e := Except.error.inj he
    exact h rfl

/-- A part that fails leaves the beginning of a part. -/
theorem within (h : Breaks stop Q [] ts p) (hPQ : ∀ ws, Q ws → Viable P (before ++ ws)) :
    Breaks stop P before ts p := by
  intro d hd
  obtain ⟨us, behind, hts, hblames, hviable⟩ := h hd
  exact ⟨us, behind, hts, hblames, hviable.within hPQ⟩

theorem loosen {p : Parsed α (n - 1)} (h : Breaks stop P before ts p) :
    Breaks stop P before ts p.loosen := h

theorem afterToken {t : Token} (h : Breaks stop P (before ++ [t]) ts p) :
    Breaks stop P before (t :: ts) p.afterToken := behind [t] h

end Breaks

namespace Grammar

open Monkey.Parser

/-- The tokens are such as have the property, and a symbol that closes them. -/
def Closed (closing : Symbol) (P : List Token → Prop) (ws : List Token) : Prop :=
  ∃ us c, ws = us ++ [c] ∧ c.kind = .symbol closing ∧ P us

def IsExpression (l : Level) (ws : List Token) : Prop := ∃ e, Expression l ws e

variable {α : Type} {stop : Token} {P : List Token → Prop} {before ts : List Token}

theorem expression_sample (l : Level) : Expression l [.sample] (.name ⟨.sample⟩) :=
  (Expression.name (t := .sample) rfl).loosen l.rank_le

section Completions

variable {us : List Token}

theorem viable_symbol (s : Symbol) (h : ∀ c, c.kind = .symbol s → Viable P (us ++ [c])) :
    Viable P us :=
  (h (.ofSymbol s) rfl).of_append (by simp)

theorem viable_name (h : ∀ x, x.kind = .ident → Viable P (us ++ [x])) : Viable P us :=
  (h .sample rfl).of_append (by simp)

theorem viable_expression (h : ∀ ws, IsExpression .equality ws → Viable P (us ++ ws)) :
    Viable P us :=
  (h _ ⟨_, expression_sample .equality⟩).of_append (by simp)

theorem viable_braces (h : ∀ bs b, Braces bs b → Viable P (us ++ bs)) : Viable P us :=
  (h _ _ (.mk (o := .ofSymbol .openBrace) (c := .ofSymbol .closeBrace) rfl .nil rfl)).of_append
    (by simp)

end Completions

theorem expect_breaks {kind : Token.Kind} (h : Viable P before) :
    Breaks stop P before ts (expect stop kind ts) := by
  have hviable : Viable P (before ++ []) := by rwa [List.append_nil]
  intro d hd
  cases ts with
  | nil =>
    obtain rfl := Except.error.inj hd
    exact ⟨[], [], rfl, .unexpected [], hviable⟩
  | cons t rest =>
    by_cases hk : t.kind = kind
    · rw [expect, if_pos hk] at hd
      cases hd
    · rw [expect, if_neg hk] at hd ⊢
      obtain rfl := Except.error.inj hd
      exact ⟨[], t :: rest, rfl, .unexpected (t :: rest), hviable⟩

/-- Behind an item the closing symbol could stand, and so could a comma and more items. -/
theorem listTail_breaks {closing : Symbol} {item : α}
    {more : (rest : List Token) → rest.length < ts.length → Parsed (List α) rest.length}
    (hclose : ∀ c, c.kind = .symbol closing → P (before ++ [c]))
    (hcomma : ∀ c ws, c.kind = .symbol .comma → P ws → P (before ++ c :: ws))
    (hmore : ∀ rest h, Breaks stop P [] rest (more rest h)) :
    Breaks stop P before ts (listTail stop closing item ts more) := by
  have hviable : Viable P before := viable_symbol closing fun c hc => .self (hclose c hc)
  have hexpect : ∀ ts, Breaks stop P before ts ((expect stop (.symbol closing) ts).map
      fun _ => [item]) := fun ts => (expect_breaks hviable).map
  cases ts with
  | nil => exact hexpect []
  | cons c rest =>
    rw [listTail]
    split
    · next hc =>
      refine ((hmore rest _).within fun ws hws => ?_).map.afterToken
      have hP := hcomma c ws hc hws
      rw [← List.singleton_append, ← List.append_assoc] at hP
      exact .self hP
    · exact hexpect (c :: rest)

theorem close_breaks (s : Stmt) (us : List Token) : Breaks stop P before ts (close s us) := by
  cases us with
  | nil => exact .of_ok rfl
  | cons t rest =>
    rw [close]
    split
    · exact .of_ok (a := s) rfl
    · exact .of_ok rfl

theorem noOperand_breaks {l : Level} (ts : List Token) : Breaks stop (IsExpression l) [] ts
    (Parsed.failed (α := α) ⟨.noOperand (ts.headD stop).kind, (ts.headD stop).span⟩ ts.tail) := by
  intro d hd
  obtain rfl := Except.error.inj hd
  exact ⟨[], ts, rfl, .noOperand ts, [.sample], by simp, _, expression_sample l⟩

theorem integer_breaks {l : Level} {t : Token} {rest : List Token} (ht : t.kind = .integer) :
    Breaks stop (IsExpression l) [] (t :: rest) (integer t rest) := by
  simp only [integer]
  split
  · exact .of_ok rfl
  · intro d hd
    obtain rfl := Except.error.inj hd
    exact ⟨[], t :: rest, rfl, .tooLarge ht, [.sample], by simp, _, expression_sample l⟩

theorem names_breaks (ts : List Token) :
    Breaks stop (Closed .closeParen fun us => ∃ x xs, Names us (x :: xs)) [] ts
      (names stop ts) := by
  have hsingle : ∀ {t : Token}, t.kind = .ident → ∀ c, c.kind = .symbol .closeParen →
      Closed .closeParen (fun us => ∃ x xs, Names us (x :: xs)) ([t] ++ [c]) :=
    fun ht c hc => ⟨_, c, rfl, hc, _, _, .single ht⟩
  rw [names]
  refine .bind (expect_breaks ?_) fun x mid hmid hread => ?_
  · exact viable_name fun x hx => viable_symbol .closeParen fun c hc => .self (hsingle hx c hc)
  · obtain ⟨rfl, hkind⟩ := expect_yields.mp hread
    refine .behind [x] (listTail_breaks (hsingle hkind) ?_ fun rest _ => names_breaks rest)
    rintro c _ hc ⟨us, d, rfl, hd, y, ys, hnames⟩
    exact ⟨x :: c :: us, d, rfl, hd, _, _, .cons hkind hc hnames⟩
termination_by ts.length

theorem parameters_breaks (ts : List Token) :
    Breaks stop (Closed .closeParen fun us => ∃ xs, Names us xs) [] ts (parameters stop ts) := by
  have hnames : ∀ ts, Breaks stop (Closed .closeParen fun us => ∃ xs, Names us xs) [] ts
      (names stop ts) := by
    intro ts
    refine (names_breaks ts).within ?_
    rintro _ ⟨us, c, rfl, hc, x, xs, h⟩
    exact .self ⟨us, c, rfl, hc, _, h⟩
  cases ts with
  | nil => exact hnames []
  | cons t rest =>
    rw [parameters]
    split
    · exact .of_ok (a := []) rfl
    · exact hnames (t :: rest)

/-- Statements, and behind them what ends them. -/
def Sequence (Ending : List Token → Prop) (ws : List Token) : Prop :=
  ∃ us tail ss, ws = us ++ tail ∧ Ending tail ∧ Statements us ss

/-- What ends the statements of a block. -/
def IsCloseBrace (tail : List Token) : Prop := ∃ c, tail = [c] ∧ c.kind = .symbol .closeBrace

/-- A statement in front of what can be completed to a sequence can be completed with it. -/
theorem viable_behind_statement {Ending : List Token → Prop} {us vs behind : List Token} {s : Stmt}
    (hend : Viable Ending []) (h : Statement us s)
    (hbehind : (∃ c, c.kind = .symbol .semicolon ∧ behind = c :: vs) ∨ (behind = vs ∧ Ends vs))
    (hvs : Viable (Sequence Ending) vs) : Viable (Sequence Ending) (us ++ behind) := by
  obtain ⟨ws, hws, zs, tail, ss, heq, htail, hss⟩ := hvs
  rcases hbehind with ⟨c, hc, rfl⟩ | ⟨rfl, hends⟩
  · exact ⟨ws, hws, us ++ c :: zs, tail, _, by simp [heq], htail, .closed h hc hss⟩
  · cases behind with
    | nil =>
      -- What follows need not end the statement; so nothing follows.
      obtain ⟨tail, htail, hends⟩ := hend
      have hss : Statements (us ++ []) [s] := .opened h nofun .nil
      rw [List.append_nil] at hss ⊢
      exact ⟨tail, htail, us, tail, _, rfl, hends, hss⟩
    | cons v vs =>
      obtain ⟨zs', heq', hall⟩ := Statements.cons h hss heq (.inr ⟨rfl, hends⟩)
      exact ⟨ws, hws, zs', tail, _, by rw [List.append_assoc, heq'], htail, hall⟩

theorem viable_statement {Ending : List Token → Prop} {us : List Token} {s : Stmt}
    (hend : Viable Ending []) (h : Statement us s) : Viable (Sequence Ending) us := by
  have hnil : Viable (Sequence Ending) [] :=
    hend.mono fun ws hws => .self ⟨[], ws, [], rfl, hws, .nil⟩
  have hends : Ends [] := nofun
  have hviable := viable_behind_statement hend h (.inr ⟨rfl, hends⟩) hnil
  rwa [List.append_nil] at hviable

/-- Where reading stops behind a statement, the statement stays what it is. -/
theorem viable_through_statement {Ending : List Token → Prop}
    {us mid vs left behind : List Token} {s : Stmt} (hend : Viable Ending []) (h : Statement us s)
    (hbehind : (∃ c, c.kind = .symbol .semicolon ∧ behind = c :: mid) ∨ (behind = mid ∧ Ends mid))
    (hmid : mid = vs ++ left) (hvs : Viable (Sequence Ending) vs) :
    ∃ ws, us ++ behind = ws ++ left ∧ Viable (Sequence Ending) ws := by
  subst hmid
  rcases hbehind with ⟨c, hc, rfl⟩ | ⟨rfl, hends⟩
  · exact ⟨us ++ c :: vs, by simp, viable_behind_statement hend h (.inl ⟨c, hc, rfl⟩) hvs⟩
  · have hvends : Ends vs := by
      cases vs with
      | nil => exact nofun
      | cons v vs => exact hends
    exact ⟨us ++ vs, by simp, viable_behind_statement hend h (.inr ⟨rfl, hvends⟩) hvs⟩

theorem viable_isCloseBrace : Viable IsCloseBrace [] :=
  viable_symbol .closeBrace fun c hc => .self ⟨c, rfl, hc⟩

theorem statement_of_expression {ws : List Token} (h : IsExpression .equality ws) :
    ∃ s, Statement ws s := by
  obtain ⟨e, he⟩ := h
  obtain ⟨t, us, rfl, -⟩ := he.head
  exact ⟨_, .expr he⟩

-- A step begins a part of its own, which `within` puts in its place in the whole. `extend_breaks`
-- alone is given tokens read before: an operand and what extends it are one part.
mutual

theorem expr_breaks (p : Precedence) (ts : List Token) :
    Breaks stop (IsExpression (above p)) [] ts (expr stop p ts) := by
  rw [expr]
  refine .bind ((operand_breaks ts).within ?_) fun left mid hmid hleft => ?_
  · rintro ws ⟨e, he⟩
    exact .self ⟨e, he.loosen (by cases p <;> decide)⟩
  · obtain ⟨us, hus, hread⟩ := operand_sound (fun us _ => sound us) hleft
    subst hus
    exact .behind us (extend_breaks p left us mid (fits_of_operand hread))
termination_by 5 * ts.length + 1

theorem operand_breaks (ts : List Token) :
    Breaks stop (IsExpression .unary) [] ts (operand stop ts) := by
  cases ts with
  | nil =>
    rw [operand]
    exact noOperand_breaks []
  | cons t rest =>
    have hnone : ∀ k, t.kind = k → Breaks stop (IsExpression .unary) [] (t :: rest)
        (Parsed.failed (α := Expr) ⟨.noOperand k, t.span⟩ rest) := by
      rintro _ rfl
      exact noOperand_breaks (t :: rest)
    have hcond := cond_breaks t rest
    have hfunction := function_breaks t rest
    have hhash := hash_breaks t rest
    rw [operand.eq_def] at hcond hfunction hhash ⊢
    dsimp only at hcond hfunction hhash ⊢
    cases hk : t.kind with
    | ident => exact .of_ok rfl
    | integer => exact integer_breaks hk
    | string => exact .of_ok rfl
    | keyword k =>
      rw [hk] at hcond hfunction
      cases k with
      | trueWord => exact .of_ok rfl
      | falseWord => exact .of_ok rfl
      | ifWord => exact hcond rfl
      | fnWord => exact hfunction rfl
      | _ => exact hnone _ hk
    | symbol s =>
      have hunary : ∀ op : UnaryOp, t.kind = .symbol op.symbol →
          Breaks stop (IsExpression .unary) [] (t :: rest)
            ((expr stop .unary rest).loosen.map (Expr.unary t op)) := by
        intro op ht
        refine .behind [t] (.map (.loosen ((expr_breaks .unary rest).within ?_)))
        rintro ws ⟨e, he⟩
        exact .self ⟨_, .unary op ht he⟩
      cases s with
      | openParen =>
        have hgroup : ∀ ws, IsExpression .equality ws →
            Viable (IsExpression .unary) ([t] ++ ws) := by
          rintro ws ⟨e, he⟩
          refine viable_symbol .closeParen fun c hc => .self ⟨e, ?_⟩
          exact (Expression.group hk he hc).loosen (by decide)
        refine .behind [t] ?_
        refine .bind (.loosen ((expr_breaks .lowest rest).within hgroup)) fun e mid hmid hread => ?_
        obtain ⟨us, rfl, hus, -⟩ := (sound rest).expr hread
        exact .behind us (.map (expect_breaks (hgroup us ⟨e, hus⟩)))
      | openBracket =>
        refine .behind [t] (.map ((exprs_breaks .closeBracket rest).within ?_))
        rintro _ ⟨us, c, rfl, hc, es, hus⟩
        exact .self ⟨_, (Expression.array hk hus hc).loosen (by decide)⟩
      | openBrace =>
        rw [hk] at hhash
        exact hhash rfl
      | bang => exact hunary .not hk
      | minus => exact hunary .negate hk
      | _ => exact hnone _ hk
    | _ => exact hnone _ hk
termination_by 5 * ts.length
decreasing_by all_goals (subst_vars; simp only [List.length_cons] at *; omega)

theorem cond_breaks (t : Token) (ts : List Token) (ht : t.kind = .keyword .ifWord) :
    Breaks stop (IsExpression .unary) [] (t :: ts) (operand stop (t :: ts)) := by
  have hcond : ∀ o cs c bs e b, o.kind = .symbol .openParen → Expression .equality cs e →
      c.kind = .symbol .closeParen → Braces bs b →
      Viable (IsExpression .unary) ([t] ++ [o] ++ cs ++ [c] ++ bs) := by
    intro o cs c bs e b ho he hc hb
    refine .self ⟨.cond t e b none, ?_⟩
    simpa using (Expression.cond ht ho he hc hb).loosen (l := .unary) (by decide)
  have hcondition : ∀ o cs e, o.kind = .symbol .openParen → Expression .equality cs e →
      Viable (IsExpression .unary) ([t] ++ [o] ++ cs) := by
    intro o cs e ho he
    refine viable_symbol .closeParen fun c hc => viable_braces fun bs b hb => ?_
    exact hcond o cs c bs e b ho he hc hb
  rw [operand.eq_def]
  simp only [ht]
  refine .behind [t] (.bind (expect_breaks ?_) fun o mid hmid hread => ?_)
  · refine viable_symbol .openParen fun o ho => viable_expression ?_
    exact fun cs ⟨e, he⟩ => hcondition o cs e ho he
  obtain ⟨rfl, ho⟩ := expect_yields.mp hread
  refine .behind [o] (.bind (.loosen ((expr_breaks .lowest mid).within ?_))
    fun e mid hmid hread => ?_)
  · exact fun cs ⟨e, he⟩ => hcondition o cs e ho he
  obtain ⟨cs, rfl, he, -⟩ := (sound _).expr hread
  refine .behind cs (.bind (expect_breaks (hcondition o cs e ho he)) fun c mid hmid hread => ?_)
  obtain ⟨rfl, hc⟩ := expect_yields.mp hread
  refine .behind [c] (.bind ((block_breaks mid).within ?_) fun b mid hmid hread => ?_)
  · exact fun bs ⟨b, hb⟩ => hcond o cs c bs e b ho he hc hb
  obtain ⟨bs, rfl, hb⟩ := (sound _).block hread
  cases mid with
  | nil => exact .of_ok rfl
  | cons w mid =>
    dsimp only
    split
    · next hw =>
      refine .behind bs (.afterToken (.map ((block_breaks mid).within ?_)))
      rintro as ⟨a, ha⟩
      refine .self ⟨.cond t e b (some a), ?_⟩
      simpa using (Expression.condElse ht ho he hc hb hw ha).loosen (l := .unary) (by decide)
    · exact .of_ok rfl
termination_by 5 * ts.length + 4
decreasing_by all_goals (subst_vars; simp only [List.length_append, List.length_cons] at *; omega)

theorem function_breaks (t : Token) (ts : List Token) (ht : t.kind = .keyword .fnWord) :
    Breaks stop (IsExpression .unary) [] (t :: ts) (operand stop (t :: ts)) := by
  have hfunction : ∀ o ps c bs b, o.kind = .symbol .openParen → (∃ xs, Names ps xs) →
      c.kind = .symbol .closeParen → Braces bs b →
      Viable (IsExpression .unary) ([t] ++ [o] ++ (ps ++ [c]) ++ bs) := by
    rintro o ps c bs b ho ⟨xs, hps⟩ hc hb
    refine .self ⟨.function t xs b, ?_⟩
    simpa using (Expression.function ht ho hps hc hb).loosen (l := .unary) (by decide)
  have hparameters : ∀ o ws, o.kind = .symbol .openParen →
      Closed .closeParen (fun us => ∃ xs, Names us xs) ws →
      Viable (IsExpression .unary) ([t] ++ [o] ++ ws) := by
    rintro o _ ho ⟨ps, c, rfl, hc, hps⟩
    exact viable_braces fun bs b hb => hfunction o ps c bs b ho hps hc hb
  rw [operand.eq_def]
  simp only [ht]
  refine .behind [t] (.bind (expect_breaks ?_) fun o mid hmid hread => ?_)
  · refine viable_symbol .openParen fun o ho => viable_symbol .closeParen fun c hc => ?_
    exact hparameters o [c] ho ⟨[], c, rfl, hc, [], .nil⟩
  obtain ⟨rfl, ho⟩ := expect_yields.mp hread
  refine .behind [o] (.bind ((parameters_breaks mid).within fun ws hws => ?_)
    fun xs mid hmid hxs => ?_)
  · exact hparameters o ws ho hws
  obtain ⟨ps, c, rfl, hc, hps⟩ := parameters_sound hxs
  rw [List.append_cons ps]
  refine .behind (ps ++ [c]) (.map ((block_breaks mid).within ?_))
  exact fun bs ⟨b, hb⟩ => hfunction o ps c bs b ho ⟨xs, hps⟩ hc hb
termination_by 5 * ts.length + 4
decreasing_by all_goals (subst_vars; simp only [List.length_append, List.length_cons] at *; omega)

theorem hash_breaks (t : Token) (ts : List Token) (ht : t.kind = .symbol .openBrace) :
    Breaks stop (IsExpression .unary) [] (t :: ts) (operand stop (t :: ts)) := by
  have hpairs : Breaks stop (IsExpression .unary) [] (t :: ts)
      ((pairs stop ts).map (Expr.hash t)) := by
    refine .behind [t] (.map ((pairs_breaks ts).within ?_))
    rintro _ ⟨us, c, rfl, hc, p, ps, hus⟩
    exact .self ⟨_, (Expression.hash ht hus hc).loosen (by decide)⟩
  rw [operand.eq_def]
  simp only [ht]
  cases ts with
  | nil => exact hpairs
  | cons u rest =>
    dsimp only
    split
    · exact .of_ok (a := Expr.hash t []) rfl
    · exact hpairs
termination_by 5 * ts.length + 4
decreasing_by all_goals (simp only [List.length_cons] at *; omega)

theorem extend_breaks (p : Precedence) (left : Expr) (read ts : List Token)
    (h : Fits p read left ts) :
    Breaks stop (IsExpression (above p)) read ts (extend stop p left ts) := by
  have hsuffixed : (above p).rank ≤ Level.rank .suffixed := by cases p <;> decide
  cases ts with
  | nil =>
    rw [extend]
    exact .of_ok rfl
  | cons t rest =>
    by_cases hp : p < .ofKind t.kind
    · rw [extend, if_pos hp]
      rcases binding_cases hp with ht | ht | ⟨op, ht⟩
      · simp only [ht]
        refine .afterToken (.bind ((exprs_breaks .closeParen rest).within ?_)
          fun arguments mid hmid ha => ?_)
        · rintro _ ⟨as, c, rfl, hc, es, has⟩
          refine .self ⟨.call t left es, ?_⟩
          simpa using (h.call hp ht has hc).loosen hsuffixed
        · obtain ⟨as, c, rfl, hc, has⟩ := (sound rest).exprs (by decide) ha
          have hcall := h.call hp ht has hc
          rw [List.append_cons as]
          refine .behind (as ++ [c]) (extend_breaks p _ _ mid (fits_of_suffixed ?_))
          simpa using hcall
      · have hindex : ∀ is e, Expression .equality is e →
            Viable (IsExpression (above p)) (read ++ [t] ++ is) := by
          intro is e he
          refine viable_symbol .closeBracket fun c hc => .self ⟨.index t left e, ?_⟩
          simpa using (h.index hp ht he hc).loosen hsuffixed
        simp only [ht]
        refine .afterToken (.bind (.loosen ((expr_breaks .lowest rest).within ?_))
          fun e mid hmid hread => ?_)
        · exact fun is ⟨e, he⟩ => hindex is e he
        obtain ⟨is, rfl, he, -⟩ := (sound rest).expr hread
        refine .behind is (.bind (expect_breaks (hindex is e he)) fun c mid hmid hread => ?_)
        obtain ⟨rfl, hc⟩ := expect_yields.mp hread
        refine .behind [c] (extend_breaks p _ _ mid (fits_of_suffixed ?_))
        simpa using h.index hp ht he hc
      · have hop : BinaryOp.ofKind? t.kind = some op := by rw [ht, binaryOfKind?_symbol]
        have hopen := ofKind?_ne_open hop
        have hrank := rank_above_le hp (ofKind_ne_unary _)
        split
        · next hk => exact absurd hk hopen.1
        · next hk => exact absurd hk hopen.2
        simp only [hop]
        refine .afterToken (.bind (.loosen ((expr_breaks (.ofKind t.kind) rest).within ?_))
          fun right mid hmid hr => ?_)
        · rintro rs ⟨right, hr⟩
          refine .self ⟨.binary t op left right, ?_⟩
          simpa using (h.binary hp ht hr).loosen hrank
        · obtain ⟨rs, rfl, hrs, hmid⟩ := (sound rest).expr hr
          refine .behind rs (extend_breaks p _ _ mid (fits_of_halts ?_ hrank hmid))
          simpa using h.binary hp ht hrs
    · rw [extend, if_neg hp]
      exact .of_ok rfl
termination_by 5 * ts.length
decreasing_by all_goals (subst_vars; simp only [List.length_append, List.length_cons] at *; omega)

theorem exprs_breaks (closing : Symbol) (ts : List Token) :
    Breaks stop (Closed closing fun us => ∃ es, Expressions us es) [] ts
      (exprs stop closing ts) := by
  have helements : Breaks stop (Closed closing fun us => ∃ es, Expressions us es) [] ts
      (elements stop closing ts) := by
    refine (elements_breaks closing ts).within ?_
    rintro _ ⟨us, c, rfl, hc, e, es, h⟩
    exact .self ⟨us, c, rfl, hc, _, h⟩
  cases ts with
  | nil =>
    rw [exprs]
    exact helements
  | cons t rest =>
    rw [exprs]
    split
    · exact .of_ok (a := []) rfl
    · exact helements
termination_by 5 * ts.length + 3

theorem elements_breaks (closing : Symbol) (ts : List Token) :
    Breaks stop (Closed closing fun us => ∃ e es, Expressions us (e :: es)) [] ts
      (elements stop closing ts) := by
  rw [elements]
  refine .bind (.loosen ((expr_breaks .lowest ts).within ?_)) fun e mid hmid hread => ?_
  · rintro ws ⟨e, he⟩
    exact viable_symbol closing fun c hc => .self ⟨ws, c, rfl, hc, e, [], .single he⟩
  obtain ⟨us, rfl, he, -⟩ := (sound _).expr hread
  refine .behind us (listTail_breaks ?_ ?_ fun rest _ => elements_breaks closing rest)
  · exact fun c hc => ⟨us, c, rfl, hc, e, [], .single he⟩
  · rintro c _ hc ⟨vs, d, rfl, hd, e', es, hvs⟩
    exact ⟨us ++ c :: vs, d, by simp, hd, e, e' :: es, .cons he hc hvs⟩
termination_by 5 * ts.length + 2
decreasing_by all_goals (subst_vars; simp only [List.length_append, List.length_cons] at *; omega)

theorem pairs_breaks (ts : List Token) :
    Breaks stop (Closed .closeBrace fun us => ∃ p ps, Pairs us (p :: ps)) [] ts
      (pairs stop ts) := by
  have hsingle : ∀ ks c vs key value, Expression .equality ks key → c.kind = .symbol .colon →
      Expression .equality vs value → ∀ d, d.kind = .symbol .closeBrace →
      Closed .closeBrace (fun us => ∃ p ps, Pairs us (p :: ps)) (ks ++ [c] ++ vs ++ [d]) := by
    intro ks c vs key value hk hc hv d hd
    refine ⟨ks ++ [c] ++ vs, d, rfl, hd, (key, value), [], .single ?_⟩
    simpa using Pair.mk hk hc hv
  have hvalue : ∀ ks c vs key value, Expression .equality ks key → c.kind = .symbol .colon →
      Expression .equality vs value →
      Viable (Closed .closeBrace fun us => ∃ p ps, Pairs us (p :: ps)) (ks ++ [c] ++ vs) :=
    fun ks c vs key value hk hc hv =>
      viable_symbol .closeBrace fun d hd => .self (hsingle ks c vs key value hk hc hv d hd)
  have hkey : ∀ ks key, Expression .equality ks key →
      Viable (Closed .closeBrace fun us => ∃ p ps, Pairs us (p :: ps)) ks :=
    fun ks key hk => viable_symbol .colon fun c hc => viable_expression fun vs ⟨value, hv⟩ =>
      hvalue ks c vs key value hk hc hv
  rw [pairs]
  refine .bind (.loosen ((expr_breaks .lowest ts).within ?_)) fun key mid hmid hread => ?_
  · exact fun ks ⟨key, hk⟩ => hkey ks key hk
  obtain ⟨ks, rfl, hk, -⟩ := (sound _).expr hread
  refine .behind ks (.bind (expect_breaks (hkey ks key hk)) fun c mid hmid hread => ?_)
  obtain ⟨rfl, hc⟩ := expect_yields.mp hread
  refine .behind [c] (.bind (.loosen ((expr_breaks .lowest mid).within ?_))
    fun value mid hmid hread => ?_)
  · exact fun vs ⟨value, hv⟩ => hvalue ks c vs key value hk hc hv
  obtain ⟨vs, rfl, hv, -⟩ := (sound _).expr hread
  refine .behind vs (listTail_breaks ?_ ?_ fun rest _ => pairs_breaks rest)
  · exact fun d hd => hsingle ks c vs key value hk hc hv d hd
  · rintro d _ hd ⟨us, b, rfl, hb, p, ps, hus⟩
    refine ⟨ks ++ c :: vs ++ d :: us, b, by simp, hb, (key, value), p :: ps, ?_⟩
    exact .cons (.mk hk hc hv) hd hus
termination_by 5 * ts.length + 2
decreasing_by all_goals (subst_vars; simp only [List.length_append, List.length_cons] at *; omega)

theorem block_breaks (ts : List Token) :
    Breaks stop (fun ws => ∃ b, Braces ws b) [] ts (block stop ts) := by
  rw [block]
  refine .bind (expect_breaks (viable_braces fun bs b hb => .self ⟨b, hb⟩))
    fun o mid hmid hread => ?_
  obtain ⟨rfl, ho⟩ := expect_yields.mp hread
  refine .behind [o] (.map ((statements_breaks mid).within ?_))
  rintro _ ⟨us, _, ss, rfl, ⟨c, rfl, hc⟩, hss⟩
  exact .self ⟨_, .mk ho hss hc⟩
termination_by 5 * ts.length + 4
decreasing_by all_goals (subst_vars; simp only [List.length_cons] at *; omega)

theorem statements_breaks (ts : List Token) :
    Breaks stop (Sequence IsCloseBrace) [] ts (statements stop ts) := by
  cases ts with
  | nil =>
    rw [statements]
    intro d hd
    obtain rfl := Except.error.inj hd
    refine ⟨[], [], rfl, .unexpected [], ?_⟩
    exact viable_isCloseBrace.mono fun ws hws => .self ⟨[], ws, [], rfl, hws, .nil⟩
  | cons t rest =>
    rw [statements]
    split
    · exact .of_ok (a := []) rfl
    refine .loosen (.bind ((statement_breaks (t :: rest)).within ?_) fun s mid hmid hs => ?_)
    · exact fun ws ⟨s, hs⟩ => viable_statement viable_isCloseBrace hs
    · obtain ⟨us, behind, heq, hus, hbehind⟩ := (sound (t :: rest)).statement hs
      refine .map fun d hd => ?_
      obtain ⟨vs, left, hmid, hblames, hvs⟩ := statements_breaks mid hd
      obtain ⟨ws, hws, hviable⟩ :=
        viable_through_statement viable_isCloseBrace hus hbehind hmid hvs
      exact ⟨ws, left, by rw [heq, hws], hblames, hviable⟩
termination_by 5 * ts.length + 3
decreasing_by all_goals (subst_vars; simp only [List.length_cons] at *; omega)

theorem statement_breaks (ts : List Token) :
    Breaks stop (fun ws => ∃ s, Statement ws s) [] ts (statement stop ts) := by
  have hexpr : Breaks stop (fun ws => ∃ s, Statement ws s) [] ts (expr stop .lowest ts) :=
    (expr_breaks .lowest ts).within fun ws hws => .self (statement_of_expression hws)
  cases ts with
  | nil =>
    rw [statement]
    exact .map hexpr
  | cons t rest =>
    have hplain : Breaks stop (fun ws => ∃ s, Statement ws s) [] (t :: rest)
        ((expr stop .lowest (t :: rest)).bind fun value rest _ => close (.expr t value) rest) :=
      .bind hexpr fun value mid _ _ => close_breaks _ _
    rw [statement]
    cases hk : t.kind with
    | keyword k =>
      cases k with
      | letWord =>
        have hlet : ∀ x a ws, x.kind = .ident → a.kind = .symbol .assign →
            IsExpression .equality ws →
            Viable (fun ws => ∃ s, Statement ws s) ([t] ++ [x] ++ [a] ++ ws) :=
          fun x a ws hx ha ⟨e, he⟩ => .self ⟨_, .bind hk hx ha he⟩
        refine .behind [t] (.bind (expect_breaks ?_) fun x mid hmid hread => ?_)
        · exact viable_name fun x hx => viable_symbol .assign fun a ha =>
            viable_expression fun ws hws => hlet x a ws hx ha hws
        obtain ⟨rfl, hx⟩ := expect_yields.mp hread
        refine .behind [x] (.bind (expect_breaks ?_) fun a mid hmid hread => ?_)
        · exact viable_symbol .assign fun a ha => viable_expression fun ws hws =>
            hlet x a ws hx ha hws
        obtain ⟨rfl, ha⟩ := expect_yields.mp hread
        refine .behind [a] (.bind (.loosen ((expr_breaks .lowest mid).within ?_))
          fun value mid hmid _ => close_breaks _ _)
        exact fun ws hws => hlet x a ws hx ha hws
      | returnWord =>
        refine .behind [t] (.bind (.loosen ((expr_breaks .lowest rest).within ?_))
          fun value mid hmid _ => close_breaks _ _)
        exact fun ws ⟨e, he⟩ => .self ⟨_, .return hk he⟩
      | _ => exact hplain
    | _ => exact hplain
termination_by 5 * ts.length + 2
decreasing_by all_goals (subst_vars; simp only [List.length_cons] at *; omega)

end

/-- The first diagnostic of a text is about a token before which everything begins a program. -/
theorem ofTokens_breaks {d : Diagnostic} {ds : List Diagnostic} (ts : List Token)
    (h : (Reading.ofTokens stop ts).diagnostics = d :: ds) :
    ∃ us behind, ts = us ++ behind ∧ d.Describes (behind.headD stop) ∧
      Viable (Sequence (· = [])) us := by
  have hend : Viable (· = []) [] := .self rfl
  cases ts with
  | nil =>
    rw [Reading.ofTokens] at h
    cases h
  | cons t rest =>
    cases hs : (statement stop (t :: rest)).outcome with
    | error e =>
      rw [Reading.ofTokens_of_error hs] at h
      obtain ⟨rfl, -⟩ := List.cons.inj h
      obtain ⟨us, behind, hts, hblames, hus⟩ := statement_breaks (t :: rest) hs
      refine ⟨us, behind, hts, hblames.describes, hus.mono fun ws ⟨s, hws⟩ => ?_⟩
      exact viable_statement hend hws
    | ok s =>
      have hyields : (statement stop (t :: rest)).Yields s _ := ⟨hs, rfl⟩
      rw [Reading.ofTokens_of_yields hyields] at h
      obtain ⟨us, behind, heq, hus, hbehind⟩ := (sound (t :: rest)).statement hyields
      obtain ⟨vs, left, hmid, hd, hvs⟩ := ofTokens_breaks _ h
      obtain ⟨ws, hws, hviable⟩ := viable_through_statement hend hus hbehind hmid hvs
      exact ⟨ws, left, by rw [heq, hws], hd, hviable⟩
termination_by ts.length
decreasing_by
  have hle := hyields.length_le
  grind

end Grammar

end Monkey
