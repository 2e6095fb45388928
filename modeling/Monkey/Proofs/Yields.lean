import Monkey.Tree.Parser

/-!
What the parser reads where it reads without a diagnostic. A step yields a piece and the tokens
behind it; each step of the parser has one lemma that says what it yields in terms of the steps
that it is made of.
-/

namespace Monkey

namespace Parsed

variable {α β : Type} {n : Nat}

/-- Reading succeeds with the piece `a` and goes on at `rest`. -/
def Yields (p : Parsed α n) (a : α) (rest : List Token) : Prop := p.outcome = .ok a ∧ p.rest = rest

@[simp] theorem yields_done {a b : α} {rest rest' : List Token} :
    (done a rest).Yields b rest' ↔ a = b ∧ rest = rest' := by
  simp [Yields, done]

@[simp] theorem not_yields_failed {d : Diagnostic} {a : α} {rest rest' : List Token} :
    ¬ (failed d rest).Yields a rest' := by
  simp [Yields, failed]

@[simp] theorem yields_loosen {p : Parsed α (n - 1)} {a : α} {rest : List Token} :
    p.loosen.Yields a rest ↔ p.Yields a rest := Iff.rfl

@[simp] theorem yields_afterToken {p : Parsed α n} {a : α} {rest : List Token} :
    p.afterToken.Yields a rest ↔ p.Yields a rest := Iff.rfl

@[simp] theorem yields_map {p : Parsed α n} {f : α → β} {b : β} {rest : List Token} :
    (p.map f).Yields b rest ↔ ∃ a, p.Yields a rest ∧ f a = b := by
  obtain ⟨outcome, rest', h⟩ := p
  cases outcome with
  | error d => simp [Yields, map, Except.map]
  | ok a =>
    simp only [Yields, map, Except.map, Except.ok.injEq]
    constructor
    · rintro ⟨rfl, rfl⟩
      exact ⟨a, ⟨rfl, rfl⟩, rfl⟩
    · rintro ⟨_, ⟨rfl, rfl⟩, rfl⟩
      exact ⟨rfl, rfl⟩

theorem yields_bind {p : Parsed α n} {b : β} {rest : List Token}
    {f : α → (rest : List Token) → rest.length ≤ n → Parsed β rest.length} :
    (p.bind f).Yields b rest ↔ ∃ a mid h, p.Yields a mid ∧ (f a mid h).Yields b rest := by
  obtain ⟨outcome, mid, h⟩ := p
  cases outcome with
  | error d => simp [Yields, bind]
  | ok a =>
    constructor
    · intro hb
      exact ⟨a, mid, h, ⟨rfl, rfl⟩, hb⟩
    · rintro ⟨a', mid', h', ⟨ha, hm⟩, hb⟩
      obtain rfl := Except.ok.inj ha
      subst hm
      exact hb

theorem Yields.length_le {p : Parsed α n} {a : α} {rest : List Token} (h : p.Yields a rest) :
    rest.length ≤ n := h.2 ▸ p.length_rest_le

/-- A step whose continuation does not look at the bound yields what its parts yield. -/
theorem yields_bind_iff {p : Parsed α n} {b : β} {rest : List Token}
    {f : α → (rest : List Token) → Parsed β rest.length} :
    (p.bind fun a mid _ => f a mid).Yields b rest ↔
      ∃ a mid, p.Yields a mid ∧ (f a mid).Yields b rest := by
  rw [yields_bind]
  constructor
  · rintro ⟨a, mid, -, h⟩
    exact ⟨a, mid, h⟩
  · rintro ⟨a, mid, ha, hb⟩
    exact ⟨a, mid, ha.length_le, ha, hb⟩

end Parsed

namespace Parser

variable {stop : Token}

@[simp] theorem expect_yields {kind : Token.Kind} {ts rest : List Token} {t : Token} :
    (expect stop kind ts).Yields t rest ↔ ts = t :: rest ∧ t.kind = kind := by
  cases ts with
  | nil => simp [expect]
  | cons u us =>
    by_cases hk : u.kind = kind
    · simp only [expect, if_pos hk, Parsed.yields_afterToken, Parsed.yields_done, List.cons.injEq]
      constructor
      · rintro ⟨rfl, rfl⟩
        exact ⟨⟨rfl, rfl⟩, hk⟩
      · exact And.left
    · simp only [expect, if_neg hk, Parsed.not_yields_failed, List.cons.injEq, false_iff]
      rintro ⟨⟨rfl, -⟩, ht⟩
      exact hk ht

/-- A statement takes the semicolon behind it, if there is one. -/
theorem close_yields {s s' : Stmt} {ts rest : List Token} :
    (close s ts).Yields s' rest ↔ s = s' ∧
      ((∃ c, c.kind = .symbol .semicolon ∧ ts = c :: rest) ∨
        (ts = rest ∧ ∀ t ∈ ts.head?, t.kind ≠ .symbol .semicolon)) := by
  cases ts with
  | nil => simp [close]
  | cons t us =>
    by_cases hk : t.kind = .symbol .semicolon
    · simp only [close, if_pos hk, Parsed.yields_afterToken, Parsed.yields_done,
        List.head?_cons, Option.mem_some_iff, List.cons.injEq]
      constructor
      · rintro ⟨rfl, rfl⟩
        exact ⟨rfl, .inl ⟨t, hk, rfl, rfl⟩⟩
      · rintro ⟨rfl, ⟨_, -, -, rfl⟩ | ⟨-, hne⟩⟩
        · exact ⟨rfl, rfl⟩
        · exact absurd hk (hne t rfl)
    · simp only [close, if_neg hk, Parsed.yields_done, List.head?_cons, Option.mem_some_iff,
        List.cons.injEq]
      constructor
      · rintro ⟨rfl, rfl⟩
        exact ⟨rfl, .inr ⟨rfl, by rintro _ rfl; exact hk⟩⟩
      · rintro ⟨rfl, ⟨c, hc, rfl, -⟩ | ⟨rfl, -⟩⟩
        · exact absurd hc hk
        · exact ⟨rfl, rfl⟩

theorem integer_yields {t : Token} {ts rest : List Token} {e : Expr} :
    (integer t ts).Yields e rest ↔ Text.Decimal.value t.literal.toList < Nat.pow 2 63 ∧
      .integer t (Int64.ofNat (Text.Decimal.value t.literal.toList)) = e ∧ ts = rest := by
  rw [integer]
  by_cases h : Text.Decimal.value t.literal.toList < Nat.pow 2 63
  · rw [if_pos h, Parsed.yields_done]
    exact ⟨fun hdone => ⟨h, hdone⟩, And.right⟩
  · rw [if_neg h]
    exact ⟨fun hfailed => absurd hfailed Parsed.not_yields_failed, fun hle => absurd hle.1 h⟩

/-- Behind an item stands a comma with more items, or the closing symbol. -/
theorem listTail_yields {α : Type} {closing : Symbol} {item : α} {items : List α}
    {ts rest : List Token} {more : (rest : List Token) → Parsed (List α) rest.length}
    (hclosing : closing ≠ .comma) :
    (listTail stop closing item ts fun rest _ => more rest).Yields items rest ↔
      (∃ c, c.kind = .symbol closing ∧ ts = c :: rest ∧ items = [item]) ∨
      (∃ c us others, c.kind = .symbol .comma ∧ ts = c :: us ∧
        (more us).Yields others rest ∧ items = item :: others) := by
  cases ts with
  | nil => simp [listTail]
  | cons t us =>
    by_cases hk : t.kind = .symbol .comma
    · simp only [listTail, if_pos hk, Parsed.yields_afterToken, Parsed.yields_map]
      constructor
      · rintro ⟨others, hothers, rfl⟩
        exact .inr ⟨t, us, others, hk, rfl, hothers, rfl⟩
      · rintro (⟨c, hc, h, -⟩ | ⟨c, us', others, -, h, hothers, rfl⟩)
        · obtain ⟨rfl, -⟩ := List.cons.inj h
          exact absurd (Token.Kind.symbol.inj (hc.symm.trans hk)) hclosing
        · obtain ⟨rfl, rfl⟩ := List.cons.inj h
          exact ⟨others, hothers, rfl⟩
    · simp only [listTail, if_neg hk, Parsed.yields_map, expect_yields]
      constructor
      · rintro ⟨c, ⟨h, hc⟩, rfl⟩
        exact .inl ⟨c, hc, h, rfl⟩
      · rintro (⟨c, hc, h, rfl⟩ | ⟨c, us', others, hc, h, -⟩)
        · exact ⟨c, ⟨h, hc⟩, rfl⟩
        · obtain ⟨rfl, -⟩ := List.cons.inj h
          exact absurd hc hk

/-- Names are read one by one, as the items of a list. -/
theorem names_yields {ts rest : List Token} {xs : List Name} :
    (names stop ts).Yields xs rest ↔ ∃ x mid, ts = x :: mid ∧ x.kind = .ident ∧
      (listTail stop .closeParen ⟨x⟩ mid fun rest _ => names stop rest).Yields xs rest := by
  rw [names, Parsed.yields_bind_iff]
  simp only [expect_yields, and_assoc]

theorem parameters_yields_of_close {t : Token} {ts rest : List Token} {xs : List Name}
    (ht : t.kind = .symbol .closeParen) :
    (parameters stop (t :: ts)).Yields xs rest ↔ xs = [] ∧ ts = rest := by
  simp [parameters, ht, eq_comm]

theorem parameters_yields_of_name {t : Token} {ts rest : List Token} {xs : List Name}
    (ht : t.kind ≠ .symbol .closeParen) :
    (parameters stop (t :: ts)).Yields xs rest ↔ (names stop (t :: ts)).Yields xs rest := by
  simp [parameters, ht]

/-- An operand and its extensions make an expression. -/
theorem expr_yields {p : Precedence} {ts rest : List Token} {e : Expr} :
    (expr stop p ts).Yields e rest ↔
      ∃ left mid, (operand stop ts).Yields left mid ∧ (extend stop p left mid).Yields e rest := by
  rw [expr]
  exact Parsed.yields_bind_iff

section Extend

variable {p : Precedence} {left e : Expr} {t : Token} {ts rest : List Token}

@[simp] theorem extend_yields_nil :
    (extend stop p left []).Yields e rest ↔ left = e ∧ [] = rest := by
  rw [extend, Parsed.yields_done]

theorem extend_yields_of_loose (h : ¬ p < .ofKind t.kind) :
    (extend stop p left (t :: ts)).Yields e rest ↔ left = e ∧ t :: ts = rest := by
  rw [extend, if_neg h, Parsed.yields_done]

theorem extend_yields_of_call (h : p < .ofKind t.kind) (ht : t.kind = .symbol .openParen) :
    (extend stop p left (t :: ts)).Yields e rest ↔
      ∃ arguments mid, (exprs stop .closeParen ts).Yields arguments mid ∧
        (extend stop p (.call t left arguments) mid).Yields e rest := by
  rw [extend, if_pos h]
  simp only [ht, Parsed.yields_afterToken, Parsed.yields_bind_iff]

theorem extend_yields_of_index (h : p < .ofKind t.kind) (ht : t.kind = .symbol .openBracket) :
    (extend stop p left (t :: ts)).Yields e rest ↔
      ∃ position c mid, (expr stop .lowest ts).Yields position (c :: mid) ∧
        c.kind = .symbol .closeBracket ∧
        (extend stop p (.index t left position) mid).Yields e rest := by
  rw [extend, if_pos h]
  simp only [ht, Parsed.yields_afterToken, Parsed.yields_bind_iff, Parsed.yields_loosen,
    expect_yields]
  constructor
  · rintro ⟨position, _, hp, c, mid, ⟨rfl, hc⟩, he⟩
    exact ⟨position, c, mid, hp, hc, he⟩
  · rintro ⟨position, c, mid, hp, hc, he⟩
    exact ⟨position, c :: mid, hp, c, mid, ⟨rfl, hc⟩, he⟩

theorem ofKind?_ne_open {k : Token.Kind} {op : BinaryOp} (h : BinaryOp.ofKind? k = some op) :
    k ≠ .symbol .openParen ∧ k ≠ .symbol .openBracket := by
  constructor <;> rintro rfl <;> simp [BinaryOp.ofKind?] at h

theorem extend_yields_of_binary {op : BinaryOp} (h : p < .ofKind t.kind)
    (ht : BinaryOp.ofKind? t.kind = some op) :
    (extend stop p left (t :: ts)).Yields e rest ↔
      ∃ right mid, (expr stop (.ofKind t.kind) ts).Yields right mid ∧
        (extend stop p (.binary t op left right) mid).Yields e rest := by
  have hopen := ofKind?_ne_open ht
  rw [extend, if_pos h]
  split
  · next hk => exact absurd hk hopen.1
  · next hk => exact absurd hk hopen.2
  · simp only [ht, Parsed.yields_afterToken, Parsed.yields_bind_iff, Parsed.yields_loosen]

end Extend

section Operand

variable {t : Token} {ts rest : List Token} {e : Expr}

theorem operand_yields_of_name (ht : t.kind = .ident) :
    (operand stop (t :: ts)).Yields e rest ↔ .name ⟨t⟩ = e ∧ ts = rest := by
  rw [operand.eq_def]
  simp only [ht]
  exact Parsed.yields_done

theorem operand_yields_of_integer (ht : t.kind = .integer) :
    (operand stop (t :: ts)).Yields e rest ↔ Text.Decimal.value t.literal.toList < Nat.pow 2 63 ∧
      .integer t (Int64.ofNat (Text.Decimal.value t.literal.toList)) = e ∧ ts = rest := by
  rw [operand.eq_def]
  simp only [ht]
  exact integer_yields

theorem operand_yields_of_string (ht : t.kind = .string) :
    (operand stop (t :: ts)).Yields e rest ↔ .string t = e ∧ ts = rest := by
  rw [operand.eq_def]
  simp only [ht]
  exact Parsed.yields_done

theorem operand_yields_of_true (ht : t.kind = .keyword .trueWord) :
    (operand stop (t :: ts)).Yields e rest ↔ .boolean t true = e ∧ ts = rest := by
  rw [operand.eq_def]
  simp only [ht]
  exact Parsed.yields_done

theorem operand_yields_of_false (ht : t.kind = .keyword .falseWord) :
    (operand stop (t :: ts)).Yields e rest ↔ .boolean t false = e ∧ ts = rest := by
  rw [operand.eq_def]
  simp only [ht]
  exact Parsed.yields_done

/-- A conditional takes the `else` behind its first block, if there is one. -/
theorem operand_yields_of_if (ht : t.kind = .keyword .ifWord) :
    (operand stop (t :: ts)).Yields e rest ↔
      ∃ o mid condition c mid' b behind, ts = o :: mid ∧ o.kind = .symbol .openParen ∧
        (expr stop .lowest mid).Yields condition (c :: mid') ∧ c.kind = .symbol .closeParen ∧
        (block stop mid').Yields b behind ∧
        ((∃ w us alternative, behind = w :: us ∧ w.kind = .keyword .elseWord ∧
            (block stop us).Yields alternative rest ∧
            .cond t condition b (some alternative) = e) ∨
          ((∀ w ∈ behind.head?, w.kind ≠ .keyword .elseWord) ∧ .cond t condition b none = e ∧
            behind = rest)) := by
  rw [operand.eq_def]
  simp only [ht]
  refine Iff.trans Parsed.yields_bind_iff ?_
  simp only [Parsed.yields_bind_iff, expect_yields, Parsed.yields_loosen]
  -- What follows the first block is told apart with its bound in hand.
  simp only [Parsed.yields_bind]
  constructor
  · rintro ⟨o, mid, ⟨rfl, ho⟩, condition, _, hcond, c, mid', ⟨rfl, hc⟩, b, behind, _, hb, he⟩
    refine ⟨o, mid, condition, c, mid', b, behind, rfl, ho, hcond, hc, hb, ?_⟩
    cases behind with
    | nil => simpa using he
    | cons w us =>
      by_cases hw : w.kind = .keyword .elseWord
      · simp only [if_pos hw, Parsed.yields_afterToken, Parsed.yields_map] at he
        obtain ⟨alternative, ha, rfl⟩ := he
        exact .inl ⟨w, us, alternative, rfl, hw, ha, rfl⟩
      · simp only [if_neg hw, Parsed.yields_done] at he
        exact .inr ⟨by rintro _ ⟨⟩; exact hw, he⟩
  · rintro ⟨o, mid, condition, c, mid', b, behind, rfl, ho, hcond, hc, hb, he⟩
    refine ⟨o, mid, ⟨rfl, ho⟩, condition, _, hcond, c, mid', ⟨rfl, hc⟩, b, behind,
      hb.length_le, hb, ?_⟩
    rcases he with ⟨w, us, alternative, rfl, hw, ha, rfl⟩ | ⟨hw, rfl, rfl⟩
    · simp only [if_pos hw, Parsed.yields_afterToken, Parsed.yields_map]
      exact ⟨alternative, ha, rfl⟩
    · cases behind with
      | nil => simp
      | cons w us => simp [hw w rfl]

theorem operand_yields_of_function (ht : t.kind = .keyword .fnWord) :
    (operand stop (t :: ts)).Yields e rest ↔
      ∃ o mid xs mid' b, ts = o :: mid ∧ o.kind = .symbol .openParen ∧
        (parameters stop mid).Yields xs mid' ∧ (block stop mid').Yields b rest ∧
        .function t xs b = e := by
  rw [operand.eq_def]
  simp only [ht]
  refine Iff.trans Parsed.yields_bind_iff ?_
  simp only [Parsed.yields_bind_iff, expect_yields, Parsed.yields_map]
  constructor
  · rintro ⟨o, mid, ⟨rfl, ho⟩, xs, mid', hxs, b, hb, rfl⟩
    exact ⟨o, mid, xs, mid', b, rfl, ho, hxs, hb, rfl⟩
  · rintro ⟨o, mid, xs, mid', b, rfl, ho, hxs, hb, rfl⟩
    exact ⟨o, mid, ⟨rfl, ho⟩, xs, mid', hxs, b, hb, rfl⟩

theorem operand_yields_of_group (ht : t.kind = .symbol .openParen) :
    (operand stop (t :: ts)).Yields e rest ↔
      ∃ c, (expr stop .lowest ts).Yields e (c :: rest) ∧ c.kind = .symbol .closeParen := by
  rw [operand.eq_def]
  simp only [ht]
  refine Iff.trans Parsed.yields_bind_iff ?_
  simp only [expect_yields, Parsed.yields_loosen, Parsed.yields_map]
  constructor
  · rintro ⟨_, _, he, c, ⟨rfl, hc⟩, rfl⟩
    exact ⟨c, he, hc⟩
  · rintro ⟨c, he, hc⟩
    exact ⟨e, _, he, c, ⟨rfl, hc⟩, rfl⟩

theorem operand_yields_of_array (ht : t.kind = .symbol .openBracket) :
    (operand stop (t :: ts)).Yields e rest ↔
      ∃ es, (exprs stop .closeBracket ts).Yields es rest ∧ .array t es = e := by
  rw [operand.eq_def]
  simp only [ht]
  exact Parsed.yields_map

theorem operand_yields_of_emptyHash {u : Token} (ht : t.kind = .symbol .openBrace)
    (hu : u.kind = .symbol .closeBrace) :
    (operand stop (t :: u :: ts)).Yields e rest ↔ .hash t [] = e ∧ ts = rest := by
  rw [operand.eq_def]
  simp only [ht, if_pos hu]
  exact Parsed.yields_done

theorem operand_yields_of_hash {u : Token} (ht : t.kind = .symbol .openBrace)
    (hu : u.kind ≠ .symbol .closeBrace) :
    (operand stop (t :: u :: ts)).Yields e rest ↔
      ∃ ps, (pairs stop (u :: ts)).Yields ps rest ∧ .hash t ps = e := by
  rw [operand.eq_def]
  simp only [ht, if_neg hu]
  exact Parsed.yields_map

theorem operand_yields_of_unary {op : UnaryOp} (ht : UnaryOp.ofKind? t.kind = some op) :
    (operand stop (t :: ts)).Yields e rest ↔
      ∃ operand, (expr stop .unary ts).Yields operand rest ∧ .unary t op operand = e := by
  have hk : t.kind = .symbol .bang ∧ op = .not ∨ t.kind = .symbol .minus ∧ op = .negate := by
    unfold UnaryOp.ofKind? at ht
    split at ht <;> simp_all
  rw [operand.eq_def]
  rcases hk with ⟨hk, rfl⟩ | ⟨hk, rfl⟩
  · simp only [hk, UnaryOp.ofKind?]
    exact Parsed.yields_map
  · simp only [hk, UnaryOp.ofKind?]
    exact Parsed.yields_map

end Operand

theorem exprs_yields_of_close {closing : Symbol} {t : Token} {ts rest : List Token}
    {es : List Expr} (ht : t.kind = .symbol closing) :
    (exprs stop closing (t :: ts)).Yields es rest ↔ es = [] ∧ ts = rest := by
  rw [exprs, if_pos ht, Parsed.yields_afterToken, Parsed.yields_done, eq_comm]

theorem exprs_yields_of_item {closing : Symbol} {t : Token} {ts rest : List Token}
    {es : List Expr} (ht : t.kind ≠ .symbol closing) :
    (exprs stop closing (t :: ts)).Yields es rest ↔
      (elements stop closing (t :: ts)).Yields es rest := by
  rw [exprs, if_neg ht]

theorem elements_yields {closing : Symbol} {ts rest : List Token} {es : List Expr} :
    (elements stop closing ts).Yields es rest ↔
      ∃ e mid, (expr stop .lowest ts).Yields e mid ∧
        (listTail stop closing e mid fun rest _ => elements stop closing rest).Yields es rest := by
  rw [elements, Parsed.yields_bind_iff]
  simp only [Parsed.yields_loosen]

theorem pairs_yields {ts rest : List Token} {ps : List (Expr × Expr)} :
    (pairs stop ts).Yields ps rest ↔
      ∃ key c mid value mid', (expr stop .lowest ts).Yields key (c :: mid) ∧
        c.kind = .symbol .colon ∧ (expr stop .lowest mid).Yields value mid' ∧
        (listTail stop .closeBrace (key, value) mid' fun rest _ => pairs stop rest).Yields
          ps rest := by
  rw [pairs]
  simp only [Parsed.yields_bind_iff, Parsed.yields_loosen, expect_yields]
  constructor
  · rintro ⟨key, _, hk, c, mid, ⟨rfl, hc⟩, value, mid', hv, ht⟩
    exact ⟨key, c, mid, value, mid', hk, hc, hv, ht⟩
  · rintro ⟨key, c, mid, value, mid', hk, hc, hv, ht⟩
    exact ⟨key, c :: mid, hk, c, mid, ⟨rfl, hc⟩, value, mid', hv, ht⟩

theorem block_yields {ts rest : List Token} {b : Block} :
    (block stop ts).Yields b rest ↔
      ∃ o mid ss, ts = o :: mid ∧ o.kind = .symbol .openBrace ∧
        (statements stop mid).Yields ss rest ∧ .mk o ss = b := by
  rw [block]
  simp only [Parsed.yields_bind_iff, expect_yields, Parsed.yields_map]
  constructor
  · rintro ⟨o, mid, ⟨rfl, ho⟩, ss, hss, rfl⟩
    exact ⟨o, mid, ss, rfl, ho, hss, rfl⟩
  · rintro ⟨o, mid, ss, rfl, ho, hss, rfl⟩
    exact ⟨o, mid, ⟨rfl, ho⟩, ss, hss, rfl⟩

theorem statements_yields_of_close {t : Token} {ts rest : List Token} {ss : List Stmt}
    (ht : t.kind = .symbol .closeBrace) :
    (statements stop (t :: ts)).Yields ss rest ↔ ss = [] ∧ ts = rest := by
  rw [statements, if_pos ht, Parsed.yields_afterToken, Parsed.yields_done, eq_comm]

theorem statements_yields_of_statement {t : Token} {ts rest : List Token} {ss : List Stmt}
    (ht : t.kind ≠ .symbol .closeBrace) :
    (statements stop (t :: ts)).Yields ss rest ↔
      ∃ s mid others, (statement stop (t :: ts)).Yields s mid ∧
        (statements stop mid).Yields others rest ∧ s :: others = ss := by
  rw [statements, if_neg ht]
  simp only [Parsed.yields_loosen, Parsed.yields_bind_iff, Parsed.yields_map]
  constructor
  · rintro ⟨s, mid, hs, others, ho, rfl⟩
    exact ⟨s, mid, others, hs, ho, rfl⟩
  · rintro ⟨s, mid, others, hs, ho, rfl⟩
    exact ⟨s, mid, hs, others, ho, rfl⟩

section Statement

variable {t : Token} {ts rest : List Token} {s : Stmt}

theorem statement_yields_of_let (ht : t.kind = .keyword .letWord) :
    (statement stop (t :: ts)).Yields s rest ↔
      ∃ x a mid value mid', ts = x :: a :: mid ∧ x.kind = .ident ∧ a.kind = .symbol .assign ∧
        (expr stop .lowest mid).Yields value mid' ∧
        (close (.bind t ⟨x⟩ value) mid').Yields s rest := by
  rw [statement]
  simp only [ht]
  refine Iff.trans Parsed.yields_bind_iff ?_
  simp only [Parsed.yields_bind_iff, expect_yields, Parsed.yields_loosen]
  constructor
  · rintro ⟨x, _, ⟨rfl, hx⟩, a, mid, ⟨rfl, ha⟩, value, mid', hv, hs⟩
    exact ⟨x, a, mid, value, mid', rfl, hx, ha, hv, hs⟩
  · rintro ⟨x, a, mid, value, mid', rfl, hx, ha, hv, hs⟩
    exact ⟨x, _, ⟨rfl, hx⟩, a, mid, ⟨rfl, ha⟩, value, mid', hv, hs⟩

theorem statement_yields_of_return (ht : t.kind = .keyword .returnWord) :
    (statement stop (t :: ts)).Yields s rest ↔
      ∃ value mid, (expr stop .lowest ts).Yields value mid ∧
        (close (.return t value) mid).Yields s rest := by
  rw [statement]
  simp only [ht]
  exact Parsed.yields_bind_iff

theorem statement_yields_of_expr (hl : t.kind ≠ .keyword .letWord)
    (hr : t.kind ≠ .keyword .returnWord) :
    (statement stop (t :: ts)).Yields s rest ↔
      ∃ value mid, (expr stop .lowest (t :: ts)).Yields value mid ∧
        (close (.expr t value) mid).Yields s rest := by
  rw [statement]
  split
  · next hk => exact absurd hk hl
  · next hk => exact absurd hk hr
  · exact Parsed.yields_bind_iff

end Statement

end Parser

namespace Reading

variable {stop t : Token} {ts rest : List Token}

/-- A statement that can be read is the first of the program. -/
theorem ofTokens_of_yields {s : Stmt} (h : (Parser.statement stop (t :: ts)).Yields s rest) :
    ofTokens stop (t :: ts) = ⟨⟨s :: (ofTokens stop rest).program.statements⟩,
      (ofTokens stop rest).diagnostics⟩ := by
  rw [ofTokens]
  split
  · next s' behind hle heq =>
    rw [heq] at h
    obtain ⟨hs, rfl⟩ := h
    obtain rfl := Except.ok.inj hs
    rfl
  · next d behind hle heq =>
    rw [heq] at h
    obtain ⟨hs, -⟩ := h
    cases hs

/-- A statement that cannot be read leaves a diagnostic, and reading goes on where it stopped. -/
theorem ofTokens_of_error {d : Diagnostic}
    (h : (Parser.statement stop (t :: ts)).outcome = .error d) :
    ofTokens stop (t :: ts) =
      ⟨(ofTokens stop (Parser.statement stop (t :: ts)).rest).program,
        d :: (ofTokens stop (Parser.statement stop (t :: ts)).rest).diagnostics⟩ := by
  rw [ofTokens]
  split
  · next s behind hle heq =>
    rw [heq] at h
    cases h
  · next e behind hle heq =>
    rw [heq] at h ⊢
    obtain rfl := Except.error.inj h
    rfl

/-- Without diagnostics the first statement has been read, and those behind it as well. -/
theorem exists_yields_of_ofTokens (h : (ofTokens stop (t :: ts)).diagnostics = []) :
    ∃ s rest, (Parser.statement stop (t :: ts)).Yields s rest ∧
      (ofTokens stop rest).diagnostics = [] ∧
      (ofTokens stop (t :: ts)).program.statements =
        s :: (ofTokens stop rest).program.statements := by
  rw [ofTokens] at h ⊢
  split at h
  · next s behind hle heq => exact ⟨s, behind, by rw [heq]; exact ⟨rfl, rfl⟩, h, rfl⟩
  · exact absurd h (List.cons_ne_nil _ _)

end Reading

end Monkey
