import Monkey.Proofs.ParserCompleteness

/-!
The grammar derives whatever the parser reads. The parser descends on the tokens that are left, and
at equal tokens from a step to its first part, and so does the proof: what holds of all shorter
lists of tokens is shown of a list for one step of the parser after the other.
-/

namespace Monkey.Grammar

open Monkey.Parser

/-- The stratum of what is read at a precedence. -/
def above : Precedence → Level
  | .lowest => .equality
  | .equality => .comparison
  | .comparison => .sum
  | .sum => .product
  | .product | .unary | .call | .index => .unary

/-- The stratum of what a token of a precedence carries on. -/
def carrier : Precedence → Level
  | .lowest | .equality => .equality
  | .comparison => .comparison
  | .sum => .sum
  | .product => .product
  | .unary => .unary
  | .call | .index => .suffixed

def Level.rank : Level → Nat
  | equality => 0
  | comparison => 1
  | sum => 2
  | product => 3
  | unary => 4
  | suffixed => 5
  | primary => 6

theorem Level.eq_of_rank_eq {l k : Level} (h : l.rank = k.rank) : l = k := by
  cases l <;> cases k <;> first | rfl | exact absurd h (by decide)

theorem Level.rank_next {l : Level} (h : l.rank < 6) : l.next.rank = l.rank + 1 := by
  cases l <;> first | rfl | exact absurd h (by decide)

theorem Level.rank_le (l : Level) : l.rank ≤ 6 := by
  cases l <;> decide

/-- An expression of a stratum belongs to every looser one. -/
theorem Expression.loosen {l k : Level} {ts : List Token} {e : Expr} (h : Expression k ts e)
    (hle : l.rank ≤ k.rank) : Expression l ts e := by
  obtain ⟨n, hn⟩ := Nat.exists_eq_add_of_le hle
  induction n generalizing l with
  | zero =>
    obtain rfl := Level.eq_of_rank_eq hn
    exact h
  | succ n ih =>
    have hk := k.rank_le
    have hnext := Level.rank_next (l := l) (by omega)
    exact .next (ih (by omega) (by omega))

theorem carrier_symbol (op : BinaryOp) : carrier (.ofKind (.symbol op.symbol)) = level op := by
  cases op <;> rfl

theorem above_symbol (op : BinaryOp) : above (.ofKind (.symbol op.symbol)) = (level op).next := by
  cases op <;> rfl

theorem rank_above_le {p q : Precedence} (h : p < q) (hq : q ≠ .unary) :
    (above p).rank ≤ (carrier q).rank := by
  revert h hq
  cases p <;> cases q <;> decide

theorem rank_carrier_le {p q : Precedence} (h : ¬ p < q) : (carrier q).rank ≤ (carrier p).rank := by
  revert h
  cases p <;> cases q <;> decide

theorem ofKind_ne_unary (k : Token.Kind) : Precedence.ofKind k ≠ .unary := by
  unfold Precedence.ofKind
  split <;> exact Precedence.noConfusion

/-- A token that binds at all is an opening symbol or an operator. -/
theorem binding_cases {p : Precedence} {k : Token.Kind} (h : p < .ofKind k) :
    k = .symbol .openParen ∨ k = .symbol .openBracket ∨
      ∃ op : BinaryOp, k = .symbol op.symbol := by
  unfold Precedence.ofKind at h
  split at h
  · exact .inr (.inr ⟨.equal, rfl⟩)
  · exact .inr (.inr ⟨.notEqual, rfl⟩)
  · exact .inr (.inr ⟨.less, rfl⟩)
  · exact .inr (.inr ⟨.greater, rfl⟩)
  · exact .inr (.inr ⟨.add, rfl⟩)
  · exact .inr (.inr ⟨.subtract, rfl⟩)
  · exact .inr (.inr ⟨.multiply, rfl⟩)
  · exact .inr (.inr ⟨.divide, rfl⟩)
  · exact .inl rfl
  · exact .inr (.inl rfl)
  · exact absurd h (Nat.not_lt_zero _)

/-- A token that begins an expression is a literal, an opening symbol or a unary operator. -/
theorem opens_cases {k : Token.Kind} (h : opens k = .true) :
    k = .ident ∨ k = .integer ∨ k = .string ∨ k = .keyword .trueWord ∨ k = .keyword .falseWord ∨
      k = .keyword .ifWord ∨ k = .keyword .fnWord ∨ k = .symbol .openParen ∨
      k = .symbol .openBracket ∨ k = .symbol .openBrace ∨
      ∃ op : UnaryOp, k = .symbol op.symbol := by
  unfold opens at h
  split at h
  case h_8 => simpa using ⟨UnaryOp.not, rfl⟩
  case h_9 => simpa using ⟨UnaryOp.negate, rfl⟩
  case h_13 => exact absurd h Bool.noConfusion
  all_goals simp

variable {stop : Token}

/-- An operand begins with a token that opens an expression. -/
theorem opens_of_operand {ts rest : List Token} {e : Expr}
    (h : (operand stop ts).Yields e rest) : ∃ t us, ts = t :: us ∧ opens t.kind = .true := by
  cases ts with
  | nil =>
    rw [operand.eq_def] at h
    exact absurd h Parsed.not_yields_failed
  | cons t us =>
    refine ⟨t, us, rfl, ?_⟩
    rw [operand.eq_def] at h
    dsimp only at h
    split at h
    case h_11 k _ _ _ _ _ _ _ _ _ _ =>
      split at h
      · next op hop =>
        unfold UnaryOp.ofKind? at hop
        split at hop
        · next hk => rw [hk]; rfl
        · next hk => rw [hk]; rfl
        · cases hop
      · exact absurd h Parsed.not_yields_failed
    all_goals next hk => rw [hk]; rfl

/-- The next token, if there is one, binds no tighter than `p`. -/
def Halts (p : Precedence) (ts : List Token) : Prop := ∀ t ∈ ts.head?, ¬ p < .ofKind t.kind

/-- What is read so far is an expression, and an operand of the next token if that binds. -/
def Fits (p : Precedence) (read : List Token) (left : Expr) (ts : List Token) : Prop :=
  Expression (above p) read left ∧
    ∀ t ∈ ts.head?, p < .ofKind t.kind → Expression (carrier (.ofKind t.kind)) read left

theorem fits_of_halts {p q : Precedence} {read ts : List Token} {left : Expr}
    (h : Expression (carrier q) read left) (hp : (above p).rank ≤ (carrier q).rank)
    (hts : Halts q ts) : Fits p read left ts :=
  ⟨h.loosen hp, fun t ht _ => h.loosen (rank_carrier_le (hts t ht))⟩

theorem fits_of_suffixed {p : Precedence} {read ts : List Token} {left : Expr}
    (h : Expression .suffixed read left) : Fits p read left ts := by
  refine ⟨h.loosen (by cases p <;> decide), fun t _ _ => h.loosen ?_⟩
  generalize Precedence.ofKind t.kind = q
  cases q <;> decide

section Fits

variable {p : Precedence} {read ts : List Token} {left : Expr} {t : Token}

/-- What an operand is read as can be extended. -/
theorem fits_of_operand
    (h : Expression .primary read left ∨ (Expression .unary read left ∧ Halts .unary ts)) :
    Fits p read left ts := by
  rcases h with h | ⟨h, hts⟩
  · exact fits_of_suffixed (h.loosen (by decide))
  · have hrank : (above p).rank ≤ (carrier .unary).rank := by cases p <;> decide
    exact fits_of_halts (q := .unary) h hrank hts

theorem Fits.call (h : Fits p read left (t :: ts)) (hp : p < .ofKind t.kind)
    (ht : t.kind = .symbol .openParen) {c : Token} {as : List Token} {arguments : List Expr}
    (ha : Expressions as arguments) (hc : c.kind = .symbol .closeParen) :
    Expression .suffixed (read ++ t :: (as ++ [c])) (.call t left arguments) := by
  have hleft := h.2 t rfl hp
  rw [ht] at hleft
  exact .call hleft ht ha hc

theorem Fits.index (h : Fits p read left (t :: ts)) (hp : p < .ofKind t.kind)
    (ht : t.kind = .symbol .openBracket) {c : Token} {is : List Token} {position : Expr}
    (hi : Expression .equality is position) (hc : c.kind = .symbol .closeBracket) :
    Expression .suffixed (read ++ t :: (is ++ [c])) (.index t left position) := by
  have hleft := h.2 t rfl hp
  rw [ht] at hleft
  exact .index hleft ht hi hc

theorem Fits.binary (h : Fits p read left (t :: ts)) (hp : p < .ofKind t.kind) {op : BinaryOp}
    (ht : t.kind = .symbol op.symbol) {rs : List Token} {right : Expr}
    (hr : Expression (above (.ofKind t.kind)) rs right) :
    Expression (carrier (.ofKind t.kind)) (read ++ t :: rs) (.binary t op left right) := by
  have hleft := h.2 t rfl hp
  rw [ht, carrier_symbol] at hleft
  rw [ht, above_symbol] at hr
  rw [ht, carrier_symbol]
  exact .binary op hleft ht hr

end Fits

variable (stop) in
/-- What the parser reads off the front of these tokens is derived by the grammar. -/
structure Sound (ts : List Token) : Prop where
  expr : ∀ ⦃p e rest⦄, (Parser.expr stop p ts).Yields e rest →
    ∃ us, ts = us ++ rest ∧ Expression (above p) us e ∧ Halts p rest
  extend : ∀ ⦃p read left e rest⦄, Fits p read left ts →
    (Parser.extend stop p left ts).Yields e rest →
    ∃ us, ts = us ++ rest ∧ Expression (above p) (read ++ us) e ∧ Halts p rest
  elements : ∀ ⦃closing es rest⦄, IsClosing closing →
    (Parser.elements stop closing ts).Yields es rest →
    ∃ us c, ts = us ++ c :: rest ∧ c.kind = .symbol closing ∧ Expressions us es ∧ es ≠ []
  exprs : ∀ ⦃closing es rest⦄, IsClosing closing →
    (Parser.exprs stop closing ts).Yields es rest →
    ∃ us c, ts = us ++ c :: rest ∧ c.kind = .symbol closing ∧ Expressions us es
  pairs : ∀ ⦃ps rest⦄, (Parser.pairs stop ts).Yields ps rest →
    ∃ us c, ts = us ++ c :: rest ∧ c.kind = .symbol .closeBrace ∧ Pairs us ps ∧ ps ≠ []
  statement : ∀ ⦃s rest⦄, (Parser.statement stop ts).Yields s rest →
    ∃ us behind, ts = us ++ behind ∧ Statement us s ∧
      ((∃ c, c.kind = .symbol .semicolon ∧ behind = c :: rest) ∨ (behind = rest ∧ Ends rest))
  statements : ∀ ⦃ss rest⦄, (Parser.statements stop ts).Yields ss rest →
    ∃ us c, ts = us ++ c :: rest ∧ c.kind = .symbol .closeBrace ∧ Statements us ss
  block : ∀ ⦃b rest⦄, (Parser.block stop ts).Yields b rest → ∃ us, ts = us ++ rest ∧ Braces us b

variable (stop) in
/-- Everything shorter is read soundly. -/
def SoundBelow (n : Nat) : Prop := ∀ ts : List Token, ts.length < n → Sound stop ts

theorem names_sound {ts rest : List Token} {xs : List Name}
    (h : (names stop ts).Yields xs rest) :
    ∃ us c, ts = us ++ c :: rest ∧ c.kind = .symbol .closeParen ∧ Names us xs ∧ xs ≠ [] := by
  obtain ⟨x, mid, rfl, hx, htail⟩ := names_yields.mp h
  rcases (listTail_yields (by decide)).mp htail with ⟨c, hc, rfl, rfl⟩ | ⟨c, us, ys, hc, rfl, hys, rfl⟩
  · exact ⟨[x], c, rfl, hc, .single hx, List.cons_ne_nil _ _⟩
  · obtain ⟨vs, d, rfl, hd, hnames, hne⟩ := names_sound hys
    obtain ⟨y, ys, rfl⟩ := List.exists_cons_of_ne_nil hne
    exact ⟨x :: c :: vs, d, rfl, hd, .cons hx hc hnames, List.cons_ne_nil _ _⟩
termination_by ts.length

theorem parameters_sound {ts rest : List Token} {xs : List Name}
    (h : (parameters stop ts).Yields xs rest) :
    ∃ us c, ts = us ++ c :: rest ∧ c.kind = .symbol .closeParen ∧ Names us xs := by
  cases ts with
  | nil =>
    obtain ⟨us, c, hus, -⟩ := names_sound h
    exact absurd hus (by simp)
  | cons t ts =>
    by_cases ht : t.kind = .symbol .closeParen
    · obtain ⟨rfl, rfl⟩ := (parameters_yields_of_close ht).mp h
      exact ⟨[], t, rfl, ht, .nil⟩
    · obtain ⟨us, c, hus, hc, hnames, -⟩ := names_sound ((parameters_yields_of_name ht).mp h)
      exact ⟨us, c, hus, hc, hnames⟩

theorem hash_sound {t : Token} {ts rest : List Token} {e : Expr}
    (ih : SoundBelow stop (t :: ts).length) (ht : t.kind = .symbol .openBrace)
    (h : (operand stop (t :: ts)).Yields e rest) :
    ∃ us, t :: ts = us ++ rest ∧ (Expression .primary us e ∨
      (Expression .unary us e ∧ Halts .unary rest)) := by
  have ihts : Sound stop ts := ih ts (Nat.lt_succ_self _)
  cases ts with
  | nil =>
    rw [operand.eq_def] at h
    simp only [ht] at h
    obtain ⟨ps, hps, -⟩ := Parsed.yields_map.mp h
    obtain ⟨us, c, hus, -⟩ := ihts.pairs hps
    exact absurd hus (by simp)
  | cons u ts =>
    by_cases hu : u.kind = .symbol .closeBrace
    · obtain ⟨rfl, rfl⟩ := (operand_yields_of_emptyHash ht hu).mp h
      exact ⟨[t, u], rfl, .inl (.hash ht .nil hu)⟩
    · obtain ⟨ps, hps, rfl⟩ := (operand_yields_of_hash ht hu).mp h
      obtain ⟨us, c, hus, hc, hpairs, -⟩ := ihts.pairs hps
      exact ⟨t :: (us ++ [c]), by simp [hus], .inl (.hash ht hpairs hc)⟩

theorem operand_sound {ts rest : List Token} {e : Expr} (ih : SoundBelow stop ts.length)
    (h : (operand stop ts).Yields e rest) :
    ∃ us, ts = us ++ rest ∧ (Expression .primary us e ∨
      (Expression .unary us e ∧ Halts .unary rest)) := by
  obtain ⟨t, ts, rfl, ht⟩ := opens_of_operand h
  have ihts : Sound stop ts := ih ts (Nat.lt_succ_self _)
  rcases opens_cases ht with ht | ht | ht | ht | ht | ht | ht | ht | ht | ht | ⟨op, ht⟩
  · obtain ⟨rfl, rfl⟩ := (operand_yields_of_name ht).mp h
    exact ⟨[t], rfl, .inl (.name ht)⟩
  · obtain ⟨hv, rfl, rfl⟩ := (operand_yields_of_integer ht).mp h
    exact ⟨[t], rfl, .inl (.integer ht (Nat.le_sub_one_of_lt hv))⟩
  · obtain ⟨rfl, rfl⟩ := (operand_yields_of_string ht).mp h
    exact ⟨[t], rfl, .inl (.string ht)⟩
  · obtain ⟨rfl, rfl⟩ := (operand_yields_of_true ht).mp h
    exact ⟨[t], rfl, .inl (.true ht)⟩
  · obtain ⟨rfl, rfl⟩ := (operand_yields_of_false ht).mp h
    exact ⟨[t], rfl, .inl (.false ht)⟩
  · obtain ⟨o, mid, condition, c, mid', b, behind, rfl, ho, hcond, hc, hb, he⟩ :=
      (operand_yields_of_if ht).mp h
    have hlt : mid.length < (t :: o :: mid).length := by simp only [List.length_cons]; omega
    obtain ⟨cs, rfl, hcs, -⟩ := (ih mid hlt).expr hcond
    have hlt' : mid'.length < (t :: o :: (cs ++ c :: mid')).length := by
      simp only [List.length_cons, List.length_append]
      omega
    obtain ⟨bs, rfl, hbs⟩ := (ih mid' hlt').block hb
    rcases he with ⟨w, us, alternative, rfl, hw, ha, rfl⟩ | ⟨hw, rfl, rfl⟩
    · have hlt'' : us.length < (t :: o :: (cs ++ c :: (bs ++ w :: us))).length := by
        simp only [List.length_cons, List.length_append]
        omega
      obtain ⟨as, rfl, has⟩ := (ih us hlt'').block ha
      refine ⟨t :: o :: (cs ++ c :: (bs ++ w :: as)), by simp, .inl ?_⟩
      exact .condElse ht ho hcs hc hbs hw has
    · exact ⟨t :: o :: (cs ++ c :: bs), by simp, .inl (.cond ht ho hcs hc hbs)⟩
  · obtain ⟨o, mid, xs, mid', b, rfl, ho, hxs, hb, rfl⟩ := (operand_yields_of_function ht).mp h
    obtain ⟨ps, c, rfl, hc, hps⟩ := parameters_sound hxs
    have hlt : mid'.length < (t :: o :: (ps ++ c :: mid')).length := by
      simp only [List.length_cons, List.length_append]
      omega
    obtain ⟨bs, rfl, hbs⟩ := (ih mid' hlt).block hb
    exact ⟨t :: o :: (ps ++ c :: bs), by simp, .inl (.function ht ho hps hc hbs)⟩
  · obtain ⟨c, he, hc⟩ := (operand_yields_of_group ht).mp h
    obtain ⟨us, rfl, hus, -⟩ := ihts.expr he
    exact ⟨t :: (us ++ [c]), by simp, .inl (.group ht hus hc)⟩
  · obtain ⟨es, hes, rfl⟩ := (operand_yields_of_array ht).mp h
    obtain ⟨us, c, rfl, hc, hus⟩ := ihts.exprs (by decide) hes
    exact ⟨t :: (us ++ [c]), by simp, .inl (.array ht hus hc)⟩
  · exact hash_sound ih ht h
  · have hop : UnaryOp.ofKind? t.kind = some op := by rw [ht, unaryOfKind?_symbol]
    obtain ⟨operand, he, rfl⟩ := (operand_yields_of_unary hop).mp h
    obtain ⟨us, rfl, hus, hrest⟩ := ihts.expr he
    exact ⟨t :: us, rfl, .inr ⟨.unary op ht hus, hrest⟩⟩

/-- Every extension of what is read is an expression again, and an operand of what follows. -/
theorem extend_sound {p : Precedence} {read ts rest : List Token} {left e : Expr}
    (ih : SoundBelow stop ts.length) (hfits : Fits p read left ts)
    (h : (extend stop p left ts).Yields e rest) :
    ∃ us, ts = us ++ rest ∧ Expression (above p) (read ++ us) e ∧ Halts p rest := by
  cases ts with
  | nil =>
    obtain ⟨rfl, rfl⟩ := extend_yields_nil.mp h
    exact ⟨[], rfl, by simpa using hfits.1, nofun⟩
  | cons t ts =>
    have ihts : Sound stop ts := ih ts (Nat.lt_succ_self _)
    by_cases hp : p < .ofKind t.kind
    · rcases binding_cases hp with ht | ht | ⟨op, ht⟩
      · obtain ⟨arguments, mid, ha, he⟩ := (extend_yields_of_call hp ht).mp h
        obtain ⟨as, c, rfl, hc, has⟩ := ihts.exprs (by decide) ha
        have hlt : mid.length < (t :: (as ++ c :: mid)).length := by
          simp only [List.length_cons, List.length_append]
          omega
        have hcall := hfits.call hp ht has hc
        obtain ⟨us, rfl, hus, hrest⟩ := (ih mid hlt).extend (fits_of_suffixed hcall) he
        exact ⟨t :: (as ++ c :: us), by simp, by simpa using hus, hrest⟩
      · obtain ⟨position, c, mid, hi, hc, he⟩ := (extend_yields_of_index hp ht).mp h
        obtain ⟨is, rfl, his, -⟩ := ihts.expr hi
        have hlt : mid.length < (t :: (is ++ c :: mid)).length := by
          simp only [List.length_cons, List.length_append]
          omega
        have hindex := hfits.index hp ht his hc
        obtain ⟨us, rfl, hus, hrest⟩ := (ih mid hlt).extend (fits_of_suffixed hindex) he
        exact ⟨t :: (is ++ c :: us), by simp, by simpa using hus, hrest⟩
      · have hop : BinaryOp.ofKind? t.kind = some op := by rw [ht, binaryOfKind?_symbol]
        obtain ⟨right, mid, hr, he⟩ := (extend_yields_of_binary hp hop).mp h
        obtain ⟨rs, rfl, hrs, hmid⟩ := ihts.expr hr
        have hrank := rank_above_le hp (ofKind_ne_unary _)
        have hlt : mid.length < (t :: (rs ++ mid)).length := by
          simp only [List.length_cons, List.length_append]
          omega
        have hbinary := hfits.binary hp ht hrs
        obtain ⟨us, rfl, hus, hrest⟩ := (ih mid hlt).extend (fits_of_halts hbinary hrank hmid) he
        exact ⟨t :: (rs ++ us), by simp, by simpa using hus, hrest⟩
    · obtain ⟨rfl, rfl⟩ := (extend_yields_of_loose hp).mp h
      refine ⟨[], rfl, by simpa using hfits.1, ?_⟩
      rintro _ ⟨⟩
      exact hp

theorem expr_sound {p : Precedence} {ts rest : List Token} {e : Expr}
    (ih : SoundBelow stop ts.length) (h : (expr stop p ts).Yields e rest) :
    ∃ us, ts = us ++ rest ∧ Expression (above p) us e ∧ Halts p rest := by
  obtain ⟨left, mid, ho, he⟩ := expr_yields.mp h
  obtain ⟨us, rfl, hus⟩ := operand_sound ih ho
  have hlt : mid.length < (us ++ mid).length := by
    obtain ⟨t, ts, hts, -⟩ := opens_of_operand ho
    have := ho.length_le
    rw [hts] at this ⊢
    exact Nat.lt_succ_of_le this
  obtain ⟨vs, rfl, hvs, hrest⟩ := (ih mid hlt).extend (fits_of_operand hus) he
  exact ⟨us ++ vs, by simp, hvs, hrest⟩

theorem Halts.ends {ts : List Token} (h : Halts .lowest ts) : Ends ts := by
  have hbinds : ∀ s ∈ extending, Precedence.lowest < .ofKind (.symbol s) := by decide
  intro t ht s hs hk
  exact h t ht (hk ▸ hbinds s hs)

theorem elements_sound {closing : Symbol} {ts rest : List Token} {es : List Expr}
    (ih : SoundBelow stop ts.length) (hclosing : IsClosing closing)
    (h : (elements stop closing ts).Yields es rest) :
    ∃ us c, ts = us ++ c :: rest ∧ c.kind = .symbol closing ∧ Expressions us es ∧ es ≠ [] := by
  obtain ⟨e, mid, he, htail⟩ := elements_yields.mp h
  obtain ⟨us, rfl, hus, -⟩ := expr_sound ih he
  rcases (listTail_yields hclosing.ne_comma).mp htail with
    ⟨c, hc, rfl, rfl⟩ | ⟨c, vs, others, hc, rfl, hothers, rfl⟩
  · exact ⟨us, c, rfl, hc, .single hus, List.cons_ne_nil _ _⟩
  · have hlt : vs.length < (us ++ c :: vs).length := by
      simp only [List.length_cons, List.length_append]
      omega
    obtain ⟨ws, d, rfl, hd, hws, hne⟩ := (ih vs hlt).elements hclosing hothers
    obtain ⟨e', es, rfl⟩ := List.exists_cons_of_ne_nil hne
    exact ⟨us ++ c :: ws, d, by simp, hd, .cons hus hc hws, List.cons_ne_nil _ _⟩

theorem exprs_sound {closing : Symbol} {ts rest : List Token} {es : List Expr}
    (ih : SoundBelow stop ts.length) (hclosing : IsClosing closing)
    (h : (exprs stop closing ts).Yields es rest) :
    ∃ us c, ts = us ++ c :: rest ∧ c.kind = .symbol closing ∧ Expressions us es := by
  cases ts with
  | nil =>
    rw [exprs] at h
    obtain ⟨us, c, hus, -⟩ := elements_sound ih hclosing h
    exact absurd hus (by simp)
  | cons t ts =>
    by_cases ht : t.kind = .symbol closing
    · obtain ⟨rfl, rfl⟩ := (exprs_yields_of_close ht).mp h
      exact ⟨[], t, rfl, ht, .nil⟩
    · obtain ⟨us, c, hus, hc, hes, -⟩ :=
        elements_sound ih hclosing ((exprs_yields_of_item ht).mp h)
      exact ⟨us, c, hus, hc, hes⟩

theorem pairs_sound {ts rest : List Token} {ps : List (Expr × Expr)}
    (ih : SoundBelow stop ts.length) (h : (pairs stop ts).Yields ps rest) :
    ∃ us c, ts = us ++ c :: rest ∧ c.kind = .symbol .closeBrace ∧ Pairs us ps ∧ ps ≠ [] := by
  obtain ⟨key, colon, mid, value, mid', hk, hcolon, hv, htail⟩ := pairs_yields.mp h
  obtain ⟨ks, rfl, hks, -⟩ := expr_sound ih hk
  have hlt : mid.length < (ks ++ colon :: mid).length := by
    simp only [List.length_cons, List.length_append]
    omega
  obtain ⟨vs, rfl, hvs, -⟩ := (ih mid hlt).expr hv
  have hpair : Pair (ks ++ colon :: vs) (key, value) := .mk hks hcolon hvs
  rcases (listTail_yields (by decide)).mp htail with
    ⟨c, hc, rfl, rfl⟩ | ⟨c, us, others, hc, rfl, hothers, rfl⟩
  · exact ⟨ks ++ colon :: vs, c, by simp, hc, .single hpair, List.cons_ne_nil _ _⟩
  · have hlt' : us.length < (ks ++ colon :: (vs ++ c :: us)).length := by
      simp only [List.length_cons, List.length_append]
      omega
    obtain ⟨ws, d, rfl, hd, hws, hne⟩ := (ih us hlt').pairs hothers
    obtain ⟨p, ps, rfl⟩ := List.exists_cons_of_ne_nil hne
    exact ⟨ks ++ colon :: vs ++ c :: ws, d, by simp, hd, .cons hpair hc hws,
      List.cons_ne_nil _ _⟩

/-- Behind a statement stands its semicolon, or a token that does not carry it on. -/
theorem close_sound {s s' : Stmt} {mid rest : List Token} (h : (close s mid).Yields s' rest)
    (hmid : Halts .lowest mid) : s = s' ∧
      ((∃ c, c.kind = .symbol .semicolon ∧ mid = c :: rest) ∨ (mid = rest ∧ Ends rest)) := by
  obtain ⟨hs, hsemi | ⟨rfl, -⟩⟩ := close_yields.mp h
  · exact ⟨hs, .inl hsemi⟩
  · exact ⟨hs, .inr ⟨rfl, hmid.ends⟩⟩

theorem statement_sound {ts rest : List Token} {s : Stmt} (ih : SoundBelow stop ts.length)
    (h : (statement stop ts).Yields s rest) :
    ∃ us behind, ts = us ++ behind ∧ Statement us s ∧
      ((∃ c, c.kind = .symbol .semicolon ∧ behind = c :: rest) ∨ (behind = rest ∧ Ends rest)) := by
  cases ts with
  | nil =>
    rw [statement] at h
    obtain ⟨e, he, -⟩ := Parsed.yields_map.mp h
    obtain ⟨left, mid, ho, -⟩ := expr_yields.mp he
    obtain ⟨t, ts, hts, -⟩ := opens_of_operand ho
    cases hts
  | cons t ts =>
    have ihts : Sound stop ts := ih ts (Nat.lt_succ_self _)
    by_cases hl : t.kind = .keyword .letWord
    · obtain ⟨x, a, mid, value, mid', rfl, hx, ha, hv, hclose⟩ :=
        (statement_yields_of_let hl).mp h
      have hlt : mid.length < (t :: x :: a :: mid).length := by
        simp only [List.length_cons]
        omega
      obtain ⟨us, rfl, hus, hmid⟩ := (ih mid hlt).expr hv
      obtain ⟨rfl, hbehind⟩ := close_sound hclose hmid
      exact ⟨t :: x :: a :: us, mid', rfl, .bind hl hx ha hus, hbehind⟩
    · by_cases hr : t.kind = .keyword .returnWord
      · obtain ⟨value, mid, hv, hclose⟩ := (statement_yields_of_return hr).mp h
        obtain ⟨us, rfl, hus, hmid⟩ := ihts.expr hv
        obtain ⟨rfl, hbehind⟩ := close_sound hclose hmid
        exact ⟨t :: us, mid, rfl, .return hr hus, hbehind⟩
      · obtain ⟨value, mid, hv, hclose⟩ := (statement_yields_of_expr hl hr).mp h
        obtain ⟨us, heq, hus, hmid⟩ := expr_sound ih hv
        obtain ⟨rfl, hbehind⟩ := close_sound hclose hmid
        obtain ⟨u, us, rfl, -⟩ := id hus.head
        obtain ⟨rfl, -⟩ := List.cons.inj heq
        exact ⟨t :: us, mid, heq, .expr hus, hbehind⟩

/-- A statement and those behind it, with or without a semicolon between them. -/
theorem Statements.cons {us behind mid vs tail : List Token} {s : Stmt} {ss : List Stmt}
    (h : Statement us s) (hs : Statements vs ss) (hmid : mid = vs ++ tail)
    (hbehind : (∃ c, c.kind = .symbol .semicolon ∧ behind = c :: mid) ∨
      (behind = mid ∧ Ends mid)) :
    ∃ ws, us ++ behind = ws ++ tail ∧ Statements ws (s :: ss) := by
  subst hmid
  rcases hbehind with ⟨c, hc, rfl⟩ | ⟨rfl, hends⟩
  · exact ⟨us ++ c :: vs, by simp, .closed h hc hs⟩
  · refine ⟨us ++ vs, by simp, .opened h ?_ hs⟩
    cases vs with
    | nil => exact nofun
    | cons v vs => exact hends

theorem statements_sound {ts rest : List Token} {ss : List Stmt} (ih : SoundBelow stop ts.length)
    (h : (statements stop ts).Yields ss rest) :
    ∃ us c, ts = us ++ c :: rest ∧ c.kind = .symbol .closeBrace ∧ Statements us ss := by
  cases ts with
  | nil =>
    rw [statements] at h
    exact absurd h Parsed.not_yields_failed
  | cons t ts =>
    by_cases ht : t.kind = .symbol .closeBrace
    · obtain ⟨rfl, rfl⟩ := (statements_yields_of_close ht).mp h
      exact ⟨[], t, rfl, ht, .nil⟩
    · obtain ⟨s, mid, others, hs, hothers, rfl⟩ := (statements_yields_of_statement ht).mp h
      have hlt : mid.length < (t :: ts).length := Nat.lt_succ_of_le hs.length_le
      obtain ⟨us, behind, heq, hus, hbehind⟩ := statement_sound ih hs
      obtain ⟨vs, c, hmid, hc, hvs⟩ := (ih mid hlt).statements hothers
      obtain ⟨ws, hws, hss⟩ := Statements.cons hus hvs hmid hbehind
      exact ⟨ws, c, by rw [heq, hws], hc, hss⟩

theorem block_sound {ts rest : List Token} {b : Block} (ih : SoundBelow stop ts.length)
    (h : (block stop ts).Yields b rest) : ∃ us, ts = us ++ rest ∧ Braces us b := by
  obtain ⟨o, mid, ss, rfl, ho, hss, rfl⟩ := block_yields.mp h
  obtain ⟨us, c, rfl, hc, hus⟩ := (ih mid (Nat.lt_succ_self _)).statements hss
  exact ⟨o :: (us ++ [c]), by simp, .mk ho hus hc⟩

theorem sound (ts : List Token) : Sound stop ts := by
  induction hn : ts.length using Nat.strongRecOn generalizing ts with
  | ind n ihn =>
    have ih : SoundBelow stop ts.length := fun us hus => ihn us.length (hn ▸ hus) us rfl
    exact {
      expr := fun _ _ _ h => expr_sound ih h
      extend := fun _ _ _ _ _ hfits h => extend_sound ih hfits h
      elements := fun _ _ _ hclosing h => elements_sound ih hclosing h
      exprs := fun _ _ _ hclosing h => exprs_sound ih hclosing h
      pairs := fun _ _ h => pairs_sound ih h
      statement := fun _ _ h => statement_sound ih h
      statements := fun _ _ h => statements_sound ih h
      block := fun _ _ h => block_sound ih h }

/-- A text without diagnostics is made up of the statements that are read. -/
theorem ofTokens_sound {ts : List Token} (h : (Reading.ofTokens stop ts).diagnostics = []) :
    Statements ts (Reading.ofTokens stop ts).program.statements := by
  induction hn : ts.length using Nat.strongRecOn generalizing ts with
  | ind n ih =>
    cases ts with
    | nil =>
      rw [Reading.ofTokens]
      exact .nil
    | cons t ts =>
      obtain ⟨s, rest, hs, hrest, hprogram⟩ := Reading.exists_yields_of_ofTokens h
      have hlt : rest.length < n := hn ▸ Nat.lt_succ_of_le hs.length_le
      have hss := ih rest.length hlt hrest rfl
      obtain ⟨us, behind, heq, hus, hbehind⟩ := (sound (t :: ts)).statement hs
      obtain ⟨ws, hws, hall⟩ := Statements.cons hus hss (List.append_nil rest).symm hbehind
      rw [hprogram, heq, hws, List.append_nil]
      exact hall

theorem isProgram_tokenize_iff {source : String} {p : Program} :
    IsProgram (Token.tokenize source) p ↔
      Statements (Lexer.ofString source).tokens p.statements := by
  constructor
  · rintro ⟨us, t, hts, -, h⟩
    obtain ⟨rfl, -⟩ := List.append_inj' hts rfl
    exact h
  · exact fun h => ⟨_, _, rfl, rfl, h⟩

theorem parse_of_isProgram {source : String} {p : Program}
    (h : IsProgram (Token.tokenize source) p) : Program.parse source = .ok p := by
  have hread : Reading.ofSource source = ⟨p, []⟩ := (isProgram_tokenize_iff.mp h).reads_text
  simp [Program.parse, hread]

theorem isProgram_of_parse {source : String} {p : Program} (h : Program.parse source = .ok p) :
    IsProgram (Token.tokenize source) p := by
  unfold Program.parse at h
  dsimp only at h
  split at h
  · next hempty =>
    obtain rfl := Except.ok.inj h
    exact isProgram_tokenize_iff.mpr (ofTokens_sound (List.isEmpty_iff.mp hempty))
  · cases h

/-- A text is read as a program exactly if its tokens derive that program, and they derive no
other. -/
theorem parse_eq_ok_iff_derived (source : String) (p : Program) :
    (Program.parse source = .ok p ↔ IsProgram (Token.tokenize source) p) ∧
      (IsProgram (Token.tokenize source) p →
        ∀ q, IsProgram (Token.tokenize source) q → q = p) := by
  refine ⟨⟨isProgram_of_parse, parse_of_isProgram⟩, fun hp q hq => ?_⟩
  exact Except.ok.inj ((parse_of_isProgram hq).symm.trans (parse_of_isProgram hp))

/-- The text `1 - 2 - 3 * y` is read, so its tokens derive just one program. -/
theorem parse_eq_ok_iff_derived_difference : ∃ p,
    Program.parse "1 - 2 - 3 * y" = .ok p ∧ IsProgram (Token.tokenize "1 - 2 - 3 * y") p ∧
      ∀ q, IsProgram (Token.tokenize "1 - 2 - 3 * y") q → q = p := by
  have hread : (Program.parse "1 - 2 - 3 * y").toBool = true := by decide +kernel
  cases hparse : Program.parse "1 - 2 - 3 * y" with
  | ok p =>
    obtain ⟨hiff, honly⟩ := parse_eq_ok_iff_derived "1 - 2 - 3 * y" p
    have hderived := hiff.mp hparse
    exact ⟨p, rfl, hderived, honly hderived⟩
  | error ds =>
    rw [hparse] at hread
    cases hread

end Monkey.Grammar
