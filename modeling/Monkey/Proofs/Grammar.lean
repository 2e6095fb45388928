import Monkey.Tree
import Monkey.Text.Decimal

/-!
The grammar of programs over token lists. Expressions come in strata, and every binary operator
groups to the left within its stratum. Each rule names the tree of what it derives.
-/

namespace Monkey

/-- The symbol that spells an operator. -/
def UnaryOp.symbol : UnaryOp → Symbol
  | not => .bang
  | negate => .minus

/-- The symbol that spells an operator. -/
def BinaryOp.symbol : BinaryOp → Symbol
  | add => .plus
  | subtract => .minus
  | multiply => .asterisk
  | divide => .slash
  | less => .less
  | greater => .greater
  | equal => .equal
  | notEqual => .notEqual

namespace Grammar

/-- The strata of expressions, loosest first. -/
inductive Level where
  | equality | comparison | sum | product | unary | suffixed | primary
  deriving DecidableEq, Repr

/-- The stratum that a stratum is built on. -/
def Level.next : Level → Level
  | equality => comparison
  | comparison => sum
  | sum => product
  | product => unary
  | unary => suffixed
  | suffixed => primary
  | primary => primary

/-- The stratum of a binary operator. -/
def level : BinaryOp → Level
  | .equal | .notEqual => .equality
  | .less | .greater => .comparison
  | .add | .subtract => .sum
  | .multiply | .divide => .product

/-- Zero or more names with commas between them. -/
inductive Names : List Token → List Name → Prop
  | nil : Names [] []
  | single {t : Token} (ht : t.kind = .ident) : Names [t] [⟨t⟩]
  | cons {t c : Token} {ts : List Token} {x : Name} {xs : List Name} (ht : t.kind = .ident)
      (hc : c.kind = .symbol .comma) (hs : Names ts (x :: xs)) :
      Names (t :: c :: ts) (⟨t⟩ :: x :: xs)

/-- The symbols that would carry an expression on. -/
def extending : List Symbol :=
  [.equal, .notEqual, .less, .greater, .plus, .minus, .asterisk, .slash, .openParen, .openBracket]

/-- No expression that ends before these tokens could be carried on by them. -/
def Ends (ts : List Token) : Prop := ∀ t ∈ ts.head?, ∀ s ∈ extending, t.kind ≠ .symbol s

mutual

/-- The tokens are an expression of a stratum, with a tree. -/
inductive Expression : Level → List Token → Expr → Prop
  | next {l : Level} {ts : List Token} {e : Expr} (h : Expression l.next ts e) : Expression l ts e
  | binary (op : BinaryOp) {t : Token} {ls rs : List Token} {left right : Expr}
      (hl : Expression (level op) ls left) (ht : t.kind = .symbol op.symbol)
      (hr : Expression (level op).next rs right) :
      Expression (level op) (ls ++ t :: rs) (.binary t op left right)
  | unary (op : UnaryOp) {t : Token} {ts : List Token} {e : Expr}
      (ht : t.kind = .symbol op.symbol) (h : Expression .unary ts e) :
      Expression .unary (t :: ts) (.unary t op e)
  | call {o c : Token} {fs as : List Token} {f : Expr} {arguments : List Expr}
      (hf : Expression .suffixed fs f) (ho : o.kind = .symbol .openParen)
      (ha : Expressions as arguments) (hc : c.kind = .symbol .closeParen) :
      Expression .suffixed (fs ++ o :: (as ++ [c])) (.call o f arguments)
  | index {o c : Token} {ls is : List Token} {left position : Expr}
      (hl : Expression .suffixed ls left) (ho : o.kind = .symbol .openBracket)
      (hi : Expression .equality is position) (hc : c.kind = .symbol .closeBracket) :
      Expression .suffixed (ls ++ o :: (is ++ [c])) (.index o left position)
  | name {t : Token} (ht : t.kind = .ident) : Expression .primary [t] (.name ⟨t⟩)
  | integer {t : Token} (ht : t.kind = .integer)
      (hv : Text.Decimal.value t.literal.toList ≤ Nat.pow 2 63 - 1) :
      Expression .primary [t] (.integer t (Int64.ofNat (Text.Decimal.value t.literal.toList)))
  | string {t : Token} (ht : t.kind = .string) : Expression .primary [t] (.string t)
  | true {t : Token} (ht : t.kind = .keyword .trueWord) :
      Expression .primary [t] (.boolean t .true)
  | false {t : Token} (ht : t.kind = .keyword .falseWord) :
      Expression .primary [t] (.boolean t .false)
  | group {o c : Token} {ts : List Token} {e : Expr} (ho : o.kind = .symbol .openParen)
      (h : Expression .equality ts e) (hc : c.kind = .symbol .closeParen) :
      Expression .primary (o :: (ts ++ [c])) e
  | cond {t o c : Token} {cs bs : List Token} {e : Expr} {b : Block}
      (ht : t.kind = .keyword .ifWord) (ho : o.kind = .symbol .openParen)
      (he : Expression .equality cs e) (hc : c.kind = .symbol .closeParen) (hb : Braces bs b) :
      Expression .primary (t :: o :: (cs ++ c :: bs)) (.cond t e b none)
  | condElse {t o c w : Token} {cs bs as : List Token} {e : Expr} {a b : Block}
      (ht : t.kind = .keyword .ifWord) (ho : o.kind = .symbol .openParen)
      (he : Expression .equality cs e) (hc : c.kind = .symbol .closeParen) (hb : Braces bs b)
      (hw : w.kind = .keyword .elseWord) (ha : Braces as a) :
      Expression .primary (t :: o :: (cs ++ c :: (bs ++ w :: as))) (.cond t e b (some a))
  | function {t o c : Token} {ps bs : List Token} {xs : List Name} {b : Block}
      (ht : t.kind = .keyword .fnWord) (ho : o.kind = .symbol .openParen) (hp : Names ps xs)
      (hc : c.kind = .symbol .closeParen) (hb : Braces bs b) :
      Expression .primary (t :: o :: (ps ++ c :: bs)) (.function t xs b)
  | array {o c : Token} {ts : List Token} {es : List Expr} (ho : o.kind = .symbol .openBracket)
      (h : Expressions ts es) (hc : c.kind = .symbol .closeBracket) :
      Expression .primary (o :: (ts ++ [c])) (.array o es)
  | hash {o c : Token} {ts : List Token} {ps : List (Expr × Expr)}
      (ho : o.kind = .symbol .openBrace) (h : Pairs ts ps) (hc : c.kind = .symbol .closeBrace) :
      Expression .primary (o :: (ts ++ [c])) (.hash o ps)

/-- Zero or more expressions with commas between them. -/
inductive Expressions : List Token → List Expr → Prop
  | nil : Expressions [] []
  | single {ts : List Token} {e : Expr} (h : Expression .equality ts e) : Expressions ts [e]
  | cons {c : Token} {ts us : List Token} {e e' : Expr} {es : List Expr}
      (h : Expression .equality ts e) (hc : c.kind = .symbol .comma)
      (hs : Expressions us (e' :: es)) : Expressions (ts ++ c :: us) (e :: e' :: es)

/-- A key, a colon and a value. -/
inductive Pair : List Token → Expr × Expr → Prop
  | mk {c : Token} {ks vs : List Token} {key value : Expr} (hk : Expression .equality ks key)
      (hc : c.kind = .symbol .colon) (hv : Expression .equality vs value) :
      Pair (ks ++ c :: vs) (key, value)

/-- Zero or more pairs with commas between them. -/
inductive Pairs : List Token → List (Expr × Expr) → Prop
  | nil : Pairs [] []
  | single {ts : List Token} {p : Expr × Expr} (h : Pair ts p) : Pairs ts [p]
  | cons {c : Token} {ts us : List Token} {p p' : Expr × Expr} {ps : List (Expr × Expr)}
      (h : Pair ts p) (hc : c.kind = .symbol .comma) (hs : Pairs us (p' :: ps)) :
      Pairs (ts ++ c :: us) (p :: p' :: ps)

/-- Statements between braces. -/
inductive Braces : List Token → Block → Prop
  | mk {o c : Token} {ts : List Token} {ss : List Stmt} (ho : o.kind = .symbol .openBrace)
      (h : Statements ts ss) (hc : c.kind = .symbol .closeBrace) :
      Braces (o :: (ts ++ [c])) (.mk o ss)

/-- A statement without the semicolon that may close it. -/
inductive Statement : List Token → Stmt → Prop
  | bind {t x a : Token} {ts : List Token} {e : Expr} (ht : t.kind = .keyword .letWord)
      (hx : x.kind = .ident) (ha : a.kind = .symbol .assign) (h : Expression .equality ts e) :
      Statement (t :: x :: a :: ts) (.bind t ⟨x⟩ e)
  | return {t : Token} {ts : List Token} {e : Expr} (ht : t.kind = .keyword .returnWord)
      (h : Expression .equality ts e) : Statement (t :: ts) (.return t e)
  | expr {t : Token} {ts : List Token} {e : Expr} (h : Expression .equality (t :: ts) e) :
      Statement (t :: ts) (.expr t e)

/-- Zero or more statements. One that has no semicolon stands where its expression ends; since no
statement begins with a semicolon, one that follows a statement belongs to it. -/
inductive Statements : List Token → List Stmt → Prop
  | nil : Statements [] []
  | closed {c : Token} {ts us : List Token} {s : Stmt} {ss : List Stmt} (h : Statement ts s)
      (hc : c.kind = .symbol .semicolon) (hs : Statements us ss) :
      Statements (ts ++ c :: us) (s :: ss)
  | opened {ts us : List Token} {s : Stmt} {ss : List Stmt} (h : Statement ts s)
      (hu : Ends us) (hs : Statements us ss) : Statements (ts ++ us) (s :: ss)

end

/-- The tokens with which an expression begins. -/
def opens : Token.Kind → Bool
  | .ident | .integer | .string => .true
  | .keyword .trueWord | .keyword .falseWord | .keyword .ifWord | .keyword .fnWord => .true
  | .symbol .bang | .symbol .minus | .symbol .openParen | .symbol .openBracket
  | .symbol .openBrace => .true
  | _ => .false

/-- The tokens with which a statement begins. -/
def starts (k : Token.Kind) : Bool :=
  k == .keyword .letWord || k == .keyword .returnWord || opens k

theorem ne_of_opens {k k' : Token.Kind} (h : opens k = .true) (h' : opens k' = .false) :
    k ≠ k' := by
  rintro rfl
  exact absurd (h.symm.trans h') Bool.noConfusion

theorem ne_of_starts {k k' : Token.Kind} (h : starts k = .true) (h' : starts k' = .false) :
    k ≠ k' := by
  rintro rfl
  exact absurd (h.symm.trans h') Bool.noConfusion

theorem Expression.head {l : Level} {ts : List Token} {e : Expr} :
    Expression l ts e → ∃ t us, ts = t :: us ∧ opens t.kind = .true
  | .next h => h.head
  | .binary _ hl _ _ => by
    obtain ⟨t, us, rfl, ht⟩ := hl.head
    exact ⟨t, _, rfl, ht⟩
  | .unary op ht _ => ⟨_, _, rfl, by rw [ht]; cases op <;> rfl⟩
  | .call hf _ _ _ => by
    obtain ⟨t, us, rfl, ht⟩ := hf.head
    exact ⟨t, _, rfl, ht⟩
  | .index hl _ _ _ => by
    obtain ⟨t, us, rfl, ht⟩ := hl.head
    exact ⟨t, _, rfl, ht⟩
  | .name ht | .integer ht _ | .string ht | .true ht | .false ht | .group ht _ _
  | .cond ht _ _ _ _ | .condElse ht _ _ _ _ _ _ | .function ht _ _ _ _ | .array ht _ _
  | .hash ht _ _ => ⟨_, _, rfl, by rw [ht]; rfl⟩

theorem Expressions.head {ts : List Token} {e : Expr} {es : List Expr}
    (h : Expressions ts (e :: es)) : ∃ t us, ts = t :: us ∧ opens t.kind = .true := by
  cases h with
  | single h => exact h.head
  | cons h _ _ =>
    obtain ⟨t, us, rfl, ht⟩ := h.head
    exact ⟨t, _, rfl, ht⟩

theorem Pair.head {ts : List Token} {p : Expr × Expr} (h : Pair ts p) :
    ∃ t us, ts = t :: us ∧ opens t.kind = .true := by
  cases h with
  | mk hk _ _ =>
    obtain ⟨t, us, rfl, ht⟩ := hk.head
    exact ⟨t, _, rfl, ht⟩

theorem Pairs.head {ts : List Token} {p : Expr × Expr} {ps : List (Expr × Expr)}
    (h : Pairs ts (p :: ps)) : ∃ t us, ts = t :: us ∧ opens t.kind = .true := by
  cases h with
  | single h => exact h.head
  | cons h _ _ =>
    obtain ⟨t, us, rfl, ht⟩ := h.head
    exact ⟨t, _, rfl, ht⟩

theorem Statement.head {ts : List Token} {s : Stmt} (h : Statement ts s) :
    ∃ t us, ts = t :: us ∧ starts t.kind = .true := by
  cases h with
  | bind ht _ _ _ => exact ⟨_, _, rfl, by rw [ht]; rfl⟩
  | «return» ht _ => exact ⟨_, _, rfl, by rw [ht]; rfl⟩
  | expr h =>
    obtain ⟨t, us, heq, ht⟩ := h.head
    exact ⟨t, us, heq, by simp [starts, ht]⟩

theorem Statements.head {t : Token} {ts : List Token} {ss : List Stmt}
    (h : Statements (t :: ts) ss) : starts t.kind = .true := by
  generalize hus : t :: ts = us at h
  cases h with
  | nil => cases hus
  | closed h _ _ | opened h _ _ =>
    obtain ⟨u, us, rfl, hu⟩ := h.head
    obtain ⟨rfl, -⟩ := List.cons.inj hus
    exact hu

/-- The tokens of a whole text, the end of input included, are a program. -/
def IsProgram (ts : List Token) (p : Program) : Prop :=
  ∃ us t, ts = us ++ [t] ∧ t.kind = .endOfInput ∧ Statements us p.statements

end Grammar

end Monkey
