import Monkey.Proofs.Grammar
import Monkey.Proofs.Yields

/-!
The parser reads whatever the grammar derives. Since the operators of a stratum group to the left,
reading the tokens of an expression amounts to having read it as the left operand of what follows:
this is the form in which the induction on derivations goes through.
-/

namespace Monkey

namespace Grammar

/-- The tightest precedence at which all operators of a stratum are still taken in. -/
def Level.floor : Level → Precedence
  | equality => .lowest
  | comparison => .equality
  | sum => .comparison
  | product => .sum
  | unary | suffixed | primary => .unary

/-- The tightest precedence of a token that can stand behind an expression of a stratum. -/
def Level.ceiling : Level → Precedence
  | equality => .equality
  | comparison => .comparison
  | sum => .sum
  | product => .product
  | unary => .unary
  | suffixed | primary => .index

theorem Level.floor_le_next (l : Level) : l.floor.level ≤ l.next.floor.level := by
  cases l <;> decide

theorem Level.ceiling_le_next (l : Level) : l.ceiling.level ≤ l.next.ceiling.level := by
  cases l <;> decide

theorem floor_lt_ceiling (op : BinaryOp) :
    (level op).floor.level < (level op).ceiling.level := by
  cases op <;> decide

theorem ceiling_le_floor_next (op : BinaryOp) :
    (level op).ceiling.level ≤ (level op).next.floor.level := by
  cases op <;> decide

@[simp] theorem ofKind_symbol (op : BinaryOp) :
    Precedence.ofKind (.symbol op.symbol) = (level op).ceiling := by
  cases op <;> rfl

@[simp] theorem binaryOfKind?_symbol (op : BinaryOp) :
    BinaryOp.ofKind? (.symbol op.symbol) = some op := by
  cases op <;> rfl

@[simp] theorem unaryOfKind?_symbol (op : UnaryOp) :
    UnaryOp.ofKind? (.symbol op.symbol) = some op := by
  cases op <;> rfl

/-- An expression of the stratum is not carried on by the first of these tokens. -/
def Behind (l : Level) (ts : List Token) : Prop :=
  ∀ t ∈ ts.head?, t.kind ≠ .keyword .elseWord ∧ (Precedence.ofKind t.kind).level ≤ l.ceiling.level

theorem Behind.next {l : Level} {ts : List Token} (h : Behind l ts) : Behind l.next ts :=
  fun t ht => ⟨(h t ht).1, Nat.le_trans (h t ht).2 l.ceiling_le_next⟩

theorem Behind.cons {l : Level} {t : Token} {ts : List Token} (ht : t.kind ≠ .keyword .elseWord)
    (hp : (Precedence.ofKind t.kind).level ≤ l.ceiling.level) : Behind l (t :: ts) := by
  rintro _ ⟨⟩
  exact ⟨ht, hp⟩

/-- Nothing that stands behind a whole expression binds at all, or is an `else`. -/
def Closes (ts : List Token) : Prop :=
  ∀ t ∈ ts.head?, t.kind ≠ .keyword .elseWord ∧ Precedence.ofKind t.kind = .lowest

theorem Closes.behind {l : Level} {ts : List Token} (h : Closes ts) : Behind l ts := by
  intro t ht
  rw [(h t ht).2]
  exact ⟨(h t ht).1, Nat.zero_le _⟩

theorem closes_symbol {t : Token} {ts : List Token} {s : Symbol} (ht : t.kind = .symbol s)
    (hs : Precedence.ofKind (.symbol s) = .lowest) : Closes (t :: ts) := by
  rintro _ ⟨⟩
  rw [ht]
  exact ⟨Token.Kind.noConfusion, hs⟩

/-- The symbols that close a list. -/
def IsClosing (s : Symbol) : Prop := s = .closeParen ∨ s = .closeBracket ∨ s = .closeBrace

instance (s : Symbol) : Decidable (IsClosing s) :=
  inferInstanceAs (Decidable (s = .closeParen ∨ s = .closeBracket ∨ s = .closeBrace))

namespace IsClosing

variable {s : Symbol}

theorem ne_comma (h : IsClosing s) : s ≠ .comma := by
  rcases h with rfl | rfl | rfl <;> decide

theorem closes (h : IsClosing s) {c : Token} {ts : List Token} (hc : c.kind = .symbol s) :
    Closes (c :: ts) := by
  apply closes_symbol hc
  rcases h with rfl | rfl | rfl <;> rfl

theorem ne_of_opens (h : IsClosing s) {t : Token} (ht : opens t.kind = .true) :
    t.kind ≠ .symbol s := by
  apply Grammar.ne_of_opens ht
  rcases h with rfl | rfl | rfl <;> rfl

end IsClosing

end Grammar

namespace Parser

open Grammar

variable {stop : Token}

/-- Where the next token binds no tighter than `p`, an operand is left as it is. -/
theorem extend_yields_self {p : Precedence} {e : Expr} {ts : List Token}
    (h : ∀ t ∈ ts.head?, (Precedence.ofKind t.kind).level ≤ p.level) :
    (extend stop p e ts).Yields e ts := by
  cases ts with
  | nil => simp
  | cons t us => exact (extend_yields_of_loose (Nat.not_lt.mpr (h t rfl))).mpr ⟨rfl, rfl⟩

theorem extend_yields_self_of_behind {l : Level} {e : Expr} {ts : List Token}
    (h : Behind l ts) : (extend stop l.ceiling e ts).Yields e ts :=
  extend_yields_self fun t ht => (h t ht).2

end Parser

namespace Grammar

open Monkey.Parser

variable {stop : Token}

theorem names_reads {ts rest : List Token} {x : Name} {xs : List Name} {c : Token}
    (h : Names ts (x :: xs)) (hc : c.kind = .symbol .closeParen) :
    (names stop (ts ++ c :: rest)).Yields (x :: xs) rest := by
  generalize hys : x :: xs = ys at h
  induction h generalizing x xs with
  | nil => cases hys
  | single ht =>
    refine names_yields.mpr ⟨_, _, rfl, ht, ?_⟩
    exact (listTail_yields (by decide)).mpr (.inl ⟨c, hc, rfl, rfl⟩)
  | cons ht hcomma _ ih =>
    refine names_yields.mpr ⟨_, _, rfl, ht, ?_⟩
    exact (listTail_yields (by decide)).mpr (.inr ⟨_, _, _, hcomma, rfl, ih rfl, rfl⟩)

theorem parameters_reads {ts rest : List Token} {xs : List Name} {c : Token}
    (h : Names ts xs) (hc : c.kind = .symbol .closeParen) :
    (parameters stop (ts ++ c :: rest)).Yields xs rest := by
  cases h with
  | nil => exact (parameters_yields_of_close hc).mpr ⟨rfl, rfl⟩
  | single ht =>
    refine (parameters_yields_of_name (by rw [ht]; decide)).mpr ?_
    exact names_reads (.single ht) hc
  | cons ht hcomma hs =>
    refine (parameters_yields_of_name (by rw [ht]; decide)).mpr ?_
    exact names_reads (.cons ht hcomma hs) hc

theorem expr_yields_of_operand {p : Precedence} {ts mid rest : List Token} {e e' : Expr}
    (ho : (operand stop ts).Yields e mid) (he : (extend stop p e mid).Yields e' rest) :
    (expr stop p ts).Yields e' rest := expr_yields.mpr ⟨e, mid, ho, he⟩

variable (stop) in
/-- Reading these tokens leaves the tree as the left operand of whatever follows. -/
def Reads (l : Level) (ts : List Token) (e : Expr) : Prop :=
  ∀ ⦃p : Precedence⦄ ⦃rest rest' : List Token⦄ ⦃e' : Expr⦄, p.level ≤ l.floor.level →
    Behind l rest → (extend stop p e rest).Yields e' rest' →
    (expr stop p (ts ++ rest)).Yields e' rest'

theorem Reads.of_operand {l : Level} {ts : List Token} {e : Expr}
    (h : ∀ ⦃rest : List Token⦄, Behind l rest → (operand stop (ts ++ rest)).Yields e rest) :
    Reads stop l ts e :=
  fun _ _ _ _ _ hrest he => expr_yields_of_operand (h hrest) he

/-- An expression that stands before its closing token is read as a whole. -/
theorem Reads.whole {ts rest : List Token} {e : Expr} (h : Reads stop .equality ts e)
    (hrest : Closes rest) : (expr stop .lowest (ts ++ rest)).Yields e rest := by
  refine h (Nat.le_refl _) hrest.behind (extend_yields_self fun t ht => ?_)
  exact Nat.le_of_eq (congrArg Precedence.level (hrest t ht).2)

theorem exprs_reads {ts rest : List Token} {es : List Expr} {c : Token} {closing : Symbol}
    (hclosing : IsClosing closing) (hc : c.kind = .symbol closing) (hes : Expressions ts es)
    (h : es ≠ [] → (elements stop closing (ts ++ c :: rest)).Yields es rest) :
    (exprs stop closing (ts ++ c :: rest)).Yields es rest := by
  cases es with
  | nil =>
    cases hes
    exact (exprs_yields_of_close hc).mpr ⟨rfl, rfl⟩
  | cons e es =>
    obtain ⟨t, us, rfl, ht⟩ := hes.head
    exact (exprs_yields_of_item (hclosing.ne_of_opens ht)).mpr (h (List.cons_ne_nil _ _))

theorem hash_reads {ts rest : List Token} {ps : List (Expr × Expr)} {o c : Token}
    (ho : o.kind = .symbol .openBrace) (hc : c.kind = .symbol .closeBrace) (hps : Pairs ts ps)
    (h : ps ≠ [] → (pairs stop (ts ++ c :: rest)).Yields ps rest) :
    (operand stop (o :: (ts ++ c :: rest))).Yields (.hash o ps) rest := by
  cases ps with
  | nil =>
    cases hps
    exact (operand_yields_of_emptyHash ho hc).mpr ⟨rfl, rfl⟩
  | cons p ps =>
    obtain ⟨t, us, rfl, ht⟩ := hps.head
    have hclosing : IsClosing .closeBrace := by decide
    refine (operand_yields_of_hash ho (hclosing.ne_of_opens ht)).mpr ⟨_, ?_, rfl⟩
    exact h (List.cons_ne_nil _ _)

variable (stop) in
/-- A statement is read before anything that its expression cannot take in. -/
def ReadsStatement (ts : List Token) (s : Stmt) : Prop :=
  ∀ ⦃rest rest' : List Token⦄, Closes rest → (close s rest).Yields s rest' →
    (statement stop (ts ++ rest)).Yields s rest'

theorem ReadsStatement.closed {ts rest : List Token} {s : Stmt} {c : Token}
    (h : ReadsStatement stop ts s) (hc : c.kind = .symbol .semicolon) :
    (statement stop (ts ++ c :: rest)).Yields s rest :=
  h (closes_symbol hc rfl) (close_yields.mpr ⟨rfl, .inl ⟨c, hc, rfl⟩⟩)

/-- Tokens at which a statement without a semicolon stops. -/
def Apart (ts : List Token) : Prop :=
  Closes ts ∧ ∀ t ∈ ts.head?, t.kind ≠ .symbol .semicolon

theorem ReadsStatement.opened {ts rest : List Token} {s : Stmt} (h : ReadsStatement stop ts s)
    (hrest : Apart rest) : (statement stop (ts ++ rest)).Yields s rest :=
  h hrest.1 (close_yields.mpr ⟨rfl, .inr ⟨rfl, hrest.2⟩⟩)

theorem apart_nil : Apart [] := ⟨nofun, nofun⟩

theorem apart_symbol {t : Token} {ts : List Token} {s : Symbol} (ht : t.kind = .symbol s)
    (hs : Precedence.ofKind (.symbol s) = .lowest) (hne : s ≠ .semicolon) : Apart (t :: ts) := by
  refine ⟨closes_symbol ht hs, ?_⟩
  rintro _ ⟨⟩
  rw [ht]
  exact fun h => hne (Token.Kind.symbol.inj h)

theorem Ends.lowest {t : Token} {ts : List Token} (h : Ends (t :: ts)) :
    Precedence.ofKind t.kind = .lowest := by
  have hne := h t rfl
  unfold Precedence.ofKind
  split <;> first | rfl | exact absurd ‹_› (hne _ (by decide))

/-- Between statements stands the beginning of the next, or what follows the last. -/
theorem Statements.apart {ts rest : List Token} {ss : List Stmt} (h : Statements ts ss)
    (hts : Ends ts) (hrest : Apart rest) : Apart (ts ++ rest) := by
  cases ts with
  | nil => exact hrest
  | cons t us =>
    constructor
    · rintro _ ⟨⟩
      exact ⟨ne_of_starts h.head rfl, hts.lowest⟩
    · rintro _ ⟨⟩
      exact ne_of_starts h.head rfl

theorem statements_reads {ts behind mid rest : List Token} {s : Stmt} {ss : List Stmt}
    (h : Statement ts s) (hs : (statement stop (ts ++ behind)).Yields s mid)
    (hss : (statements stop mid).Yields ss rest) :
    (statements stop (ts ++ behind)).Yields (s :: ss) rest := by
  obtain ⟨t, us, rfl, ht⟩ := h.head
  exact (statements_yields_of_statement (ne_of_starts ht rfl)).mpr ⟨_, _, _, hs, hss, rfl⟩

mutual

theorem Expression.reads {l : Level} {ts : List Token} {e : Expr} :
    Expression l ts e → Reads stop l ts e
  | .next h => fun _ _ _ _ hp hrest he => h.reads (Nat.le_trans hp (Level.floor_le_next _)) hrest.next he
  | @Expression.binary op t ls rs left right hl ht hr => by
    intro p rest rest' e' hp hrest he
    have helse : t.kind ≠ .keyword .elseWord := by rw [ht]; exact Token.Kind.noConfusion
    have hkind : Precedence.ofKind t.kind = (level op).ceiling := by rw [ht, ofKind_symbol]
    have hop : BinaryOp.ofKind? t.kind = some op := by rw [ht, binaryOfKind?_symbol]
    have hbinds : p < .ofKind t.kind := by
      rw [hkind]
      exact Nat.lt_of_le_of_lt hp (floor_lt_ceiling op)
    have hright : (expr stop (.ofKind t.kind) (rs ++ rest)).Yields right rest := by
      rw [hkind]
      exact hr.reads (ceiling_le_floor_next op) hrest.next (extend_yields_self_of_behind hrest)
    have hbehind : Behind (level op) (t :: (rs ++ rest)) :=
      .cons helse (Nat.le_of_eq (by rw [hkind]))
    rw [List.append_assoc, List.cons_append]
    exact hl.reads hp hbehind
      ((extend_yields_of_binary hbinds hop).mpr ⟨right, rest, hright, he⟩)
  | .unary op ht h => .of_operand fun _ hrest => by
    refine (operand_yields_of_unary (by rw [ht, unaryOfKind?_symbol])).mpr ⟨_, ?_, rfl⟩
    exact h.reads (Nat.le_refl _) hrest (extend_yields_self_of_behind hrest)
  | @Expression.call o c fs as f arguments hf ho ha hc => by
    intro p rest rest' e' hp hrest he
    have helse : o.kind ≠ .keyword .elseWord := by rw [ho]; exact Token.Kind.noConfusion
    have hbinds : p < .ofKind o.kind := by
      rw [ho]
      exact Nat.lt_of_le_of_lt hp (by decide)
    have harguments : (exprs stop .closeParen (as ++ c :: rest)).Yields arguments rest :=
      exprs_reads (.inl rfl) hc ha (ha.reads (.inl rfl) hc)
    have hbehind : Behind .suffixed (o :: (as ++ c :: rest)) := .cons helse (by rw [ho]; decide)
    rw [List.append_assoc, List.cons_append, List.append_assoc, List.singleton_append]
    exact hf.reads hp hbehind
      ((extend_yields_of_call hbinds ho).mpr ⟨arguments, rest, harguments, he⟩)
  | @Expression.index o c ls is left position hl ho hi hc => by
    intro p rest rest' e' hp hrest he
    have helse : o.kind ≠ .keyword .elseWord := by rw [ho]; exact Token.Kind.noConfusion
    have hbinds : p < .ofKind o.kind := by
      rw [ho]
      exact Nat.lt_of_le_of_lt hp (by decide)
    have hposition : (expr stop .lowest (is ++ c :: rest)).Yields position (c :: rest) :=
      hi.reads.whole (closes_symbol hc rfl)
    have hbehind : Behind .suffixed (o :: (is ++ c :: rest)) := .cons helse (by rw [ho]; decide)
    rw [List.append_assoc, List.cons_append, List.append_assoc, List.singleton_append]
    exact hl.reads hp hbehind
      ((extend_yields_of_index hbinds ho).mpr ⟨position, c, rest, hposition, hc, he⟩)
  | .name ht => .of_operand fun _ _ => (operand_yields_of_name ht).mpr ⟨rfl, rfl⟩
  | .integer ht hv => .of_operand fun _ _ =>
    (operand_yields_of_integer ht).mpr ⟨Nat.lt_of_le_of_lt hv (by decide), rfl, rfl⟩
  | .string ht => .of_operand fun _ _ => (operand_yields_of_string ht).mpr ⟨rfl, rfl⟩
  | .true ht => .of_operand fun _ _ => (operand_yields_of_true ht).mpr ⟨rfl, rfl⟩
  | .false ht => .of_operand fun _ _ => (operand_yields_of_false ht).mpr ⟨rfl, rfl⟩
  | .group ho h hc => .of_operand fun _ _ => by
    rw [List.cons_append, List.append_assoc, List.singleton_append]
    exact (operand_yields_of_group ho).mpr ⟨_, h.reads.whole (closes_symbol hc rfl), hc⟩
  | @Expression.cond t o c cs bs e b ht ho he hc hb => .of_operand fun rest hrest => by
    have hcondition : (expr stop .lowest (cs ++ c :: (bs ++ rest))).Yields e (c :: (bs ++ rest)) :=
      he.reads.whole (closes_symbol hc rfl)
    have hend : ∀ w ∈ rest.head?, w.kind ≠ .keyword .elseWord := fun w hw => (hrest w hw).1
    rw [List.cons_append, List.cons_append, List.append_assoc, List.cons_append]
    exact (operand_yields_of_if ht).mpr ⟨_, _, _, _, _, _, _, rfl, ho, hcondition, hc, hb.reads,
      .inr ⟨hend, rfl, rfl⟩⟩
  | @Expression.condElse t o c w cs bs as e a b ht ho he hc hb hw ha => .of_operand fun rest _ => by
    have hcondition : (expr stop .lowest (cs ++ c :: (bs ++ w :: (as ++ rest)))).Yields e
        (c :: (bs ++ w :: (as ++ rest))) := he.reads.whole (closes_symbol hc rfl)
    rw [List.cons_append, List.cons_append, List.append_assoc, List.cons_append,
      List.append_assoc, List.cons_append]
    exact (operand_yields_of_if ht).mpr ⟨_, _, _, _, _, _, _, rfl, ho, hcondition, hc, hb.reads,
      .inl ⟨_, _, _, rfl, hw, ha.reads, rfl⟩⟩
  | .function ht ho hp hc hb => .of_operand fun _ _ => by
    rw [List.cons_append, List.cons_append, List.append_assoc, List.cons_append]
    exact (operand_yields_of_function ht).mpr
      ⟨_, _, _, _, _, rfl, ho, parameters_reads hp hc, hb.reads, rfl⟩
  | .array ho h hc => .of_operand fun _ _ => by
    rw [List.cons_append, List.append_assoc, List.singleton_append]
    refine (operand_yields_of_array ho).mpr ⟨_, exprs_reads (.inr (.inl rfl)) hc h ?_, rfl⟩
    exact h.reads (.inr (.inl rfl)) hc
  | .hash ho h hc => .of_operand fun _ _ => by
    rw [List.cons_append, List.append_assoc, List.singleton_append]
    exact hash_reads ho hc h (h.reads hc)

theorem Expressions.reads {ts rest : List Token} {es : List Expr} {c : Token} {closing : Symbol}
    (hclosing : IsClosing closing) (hc : c.kind = .symbol closing) :
    Expressions ts es → es ≠ [] → (elements stop closing (ts ++ c :: rest)).Yields es rest
  | .nil => fun hne => absurd rfl hne
  | .single h => fun _ => by
    refine elements_yields.mpr ⟨_, _, h.reads.whole (hclosing.closes hc), ?_⟩
    exact (listTail_yields hclosing.ne_comma).mpr (.inl ⟨c, hc, rfl, rfl⟩)
  | .cons h hcomma hs => fun _ => by
    rw [List.append_assoc, List.cons_append]
    refine elements_yields.mpr ⟨_, _, h.reads.whole (closes_symbol hcomma rfl), ?_⟩
    exact (listTail_yields hclosing.ne_comma).mpr
      (.inr ⟨_, _, _, hcomma, rfl, hs.reads hclosing hc (List.cons_ne_nil _ _), rfl⟩)

theorem Pair.reads {ts : List Token} {p : Expr × Expr} : Pair ts p → ∀ ⦃rest : List Token⦄,
    Closes rest → ∃ ks c vs, ts ++ rest = ks ++ c :: (vs ++ rest) ∧ c.kind = .symbol .colon ∧
      (expr stop .lowest (ks ++ c :: (vs ++ rest))).Yields p.1 (c :: (vs ++ rest)) ∧
      (expr stop .lowest (vs ++ rest)).Yields p.2 rest
  | .mk hk hc hv => by
    intro rest hrest
    refine ⟨_, _, _, ?_, hc, hk.reads.whole (closes_symbol hc rfl), hv.reads.whole hrest⟩
    rw [List.append_assoc, List.cons_append]

theorem Pairs.reads {ts rest : List Token} {ps : List (Expr × Expr)} {c : Token}
    (hc : c.kind = .symbol .closeBrace) :
    Pairs ts ps → ps ≠ [] → (pairs stop (ts ++ c :: rest)).Yields ps rest
  | .nil => fun hne => absurd rfl hne
  | .single h => fun _ => by
    obtain ⟨ks, colon, vs, heq, hcolon, hk, hv⟩ := h.reads (closes_symbol hc rfl)
    rw [heq]
    refine pairs_yields.mpr ⟨_, _, _, _, _, hk, hcolon, hv, ?_⟩
    exact (listTail_yields (by decide)).mpr (.inl ⟨c, hc, rfl, rfl⟩)
  | .cons h hcomma hs => fun _ => by
    obtain ⟨ks, colon, vs, heq, hcolon, hk, hv⟩ := h.reads (closes_symbol hcomma rfl)
    rw [List.append_assoc, List.cons_append, heq]
    refine pairs_yields.mpr ⟨_, _, _, _, _, hk, hcolon, hv, ?_⟩
    exact (listTail_yields (by decide)).mpr
      (.inr ⟨_, _, _, hcomma, rfl, hs.reads hc (List.cons_ne_nil _ _), rfl⟩)

theorem Braces.reads {ts rest : List Token} {b : Block} :
    Braces ts b → (block stop (ts ++ rest)).Yields b rest
  | .mk ho h hc => by
    rw [List.cons_append, List.append_assoc, List.singleton_append]
    exact block_yields.mpr ⟨_, _, _, rfl, ho, h.reads hc, rfl⟩

theorem Statement.reads {ts : List Token} {s : Stmt} : Statement ts s → ReadsStatement stop ts s
  | .bind ht hx ha h => fun _ _ hrest hclose =>
    (statement_yields_of_let ht).mpr ⟨_, _, _, _, _, rfl, hx, ha, h.reads.whole hrest, hclose⟩
  | .return ht h => fun _ _ hrest hclose =>
    (statement_yields_of_return ht).mpr ⟨_, _, h.reads.whole hrest, hclose⟩
  | .expr h => fun _ _ hrest hclose => by
    obtain ⟨t, us, heq, ht⟩ := h.head
    obtain ⟨rfl, -⟩ := List.cons.inj heq
    exact (statement_yields_of_expr (ne_of_opens ht rfl) (ne_of_opens ht rfl)).mpr
      ⟨_, _, h.reads.whole hrest, hclose⟩

theorem Statements.reads {ts rest : List Token} {ss : List Stmt} {c : Token}
    (hc : c.kind = .symbol .closeBrace) :
    Statements ts ss → (statements stop (ts ++ c :: rest)).Yields ss rest
  | .nil => (statements_yields_of_close hc).mpr ⟨rfl, rfl⟩
  | .closed h hsemi hs => by
    rw [List.append_assoc, List.cons_append]
    exact statements_reads h (h.reads.closed hsemi) (hs.reads hc)
  | .opened h hu hs => by
    rw [List.append_assoc]
    refine statements_reads h (h.reads.opened ?_) (hs.reads hc)
    exact hs.apart hu (apart_symbol hc rfl (by decide))

end

/-- Statements that make up a whole text are all read. -/
theorem Statements.reads_text {ts : List Token} {ss : List Stmt} (h : Statements ts ss) :
    Reading.ofTokens stop ts = ⟨⟨ss⟩, []⟩ := by
  induction ss generalizing ts with
  | nil =>
    cases h
    rw [Reading.ofTokens]
  | cons s ss ih =>
    cases h with
    | closed h hc hs =>
      obtain ⟨t, us, rfl, -⟩ := id h.head
      refine (Reading.ofTokens_of_yields (h.reads.closed hc)).trans ?_
      rw [ih hs]
    | opened h hu hs =>
      have hrest := hs.apart hu apart_nil
      rw [List.append_nil] at hrest
      obtain ⟨t, us, rfl, -⟩ := h.head
      refine (Reading.ofTokens_of_yields (h.reads.opened hrest)).trans ?_
      rw [ih hs]

end Grammar

end Monkey
