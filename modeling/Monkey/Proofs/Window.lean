import Monkey.Tree.Parser
import Monkey.Proofs.Respelling

/-!
Reading a text through a window of two tokens. A walk moves the window over the tokens of a lexer
and never back, and looks at nothing but the two tokens in sight. Its loops run as long as what they
see tells them to, and an expression holds others to any depth; both are cut off by an allowance,
and a walk that is cut off has no result. A walk that comes to a token for which it has no case
halts as `unreachable`.
-/

namespace Monkey

/-- The tokens come out one by one, and the end of input behind the last. -/
theorem Lexer.nextToken_eq (l : Lexer) : l.nextToken.1 = l.tokens.headD (.endOfInput l.stop) ∧
    l.nextToken.2.tokens = l.tokens.tail ∧ l.nextToken.2.stop = l.stop := by
  unfold nextToken
  cases h : l.next? with
  | none =>
    have hend : (⟨[], l.stop⟩ : Lexer).tokens = [] := tokens_of_none (next?_of_blanks nofun)
    rw [tokens_of_none h]
    exact ⟨rfl, hend, by simp [stop]⟩
  | some next =>
    obtain ⟨t, l'⟩ := next
    rw [tokens_of_some h]
    exact ⟨rfl, rfl, stop_next? h⟩

/-- The token that a reader stands at, the one behind it, and the lexer of all later ones. -/
structure Window where
  current : Token
  peek : Token
  lexer : Lexer

namespace Window

def ofString (source : String) : Window :=
  let (current, lexer) := (Lexer.ofString source).nextToken
  let (peek, lexer) := lexer.nextToken
  ⟨current, peek, lexer⟩

def advance (w : Window) : Window :=
  let (next, lexer) := w.lexer.nextToken
  ⟨w.peek, next, lexer⟩

/-- The tokens of a text from the one in peek on are `rest`, with `stop` behind them. -/
structure Ahead (stop : Token) (w : Window) (rest : List Token) : Prop where
  peek : w.peek = rest.headD stop
  tokens : w.lexer.tokens = rest.tail
  stop : Token.endOfInput w.lexer.stop = stop
  kinds : ∀ t ∈ rest, t.kind ≠ .endOfInput

/-- The tokens of a text from the current one on are `ts`. -/
structure Stands (stop : Token) (w : Window) (ts : List Token) : Prop where
  current : w.current = ts.headD stop
  ahead : w.Ahead stop ts.tail
  kinds : ∀ t ∈ ts, t.kind ≠ .endOfInput

variable {stop : Token} {w : Window} {ts rest : List Token}

theorem Ahead.advance (h : w.Ahead stop rest) : w.advance.Stands stop rest := by
  obtain ⟨hpeek, htokens, hstop⟩ := w.lexer.nextToken_eq
  constructor
  · exact h.peek
  · constructor
    · exact hpeek.trans (by rw [h.tokens, h.stop])
    · exact htokens.trans (by rw [h.tokens])
    · exact (congrArg Token.endOfInput hstop).trans h.stop
    · intro t ht
      exact h.kinds t (List.mem_of_mem_tail ht)
  · exact h.kinds

theorem Ahead.stop_kind (h : w.Ahead stop rest) : stop.kind = .endOfInput := by
  rw [← h.stop]
  rfl

theorem Ahead.stop_ne {kind : Token.Kind} (h : w.Ahead stop rest) (hkind : kind ≠ .endOfInput) :
    stop.kind ≠ kind := by
  rw [h.stop_kind]
  exact hkind.symm

theorem Stands.behind {t : Token} (h : w.Stands stop (t :: rest)) : w.Ahead stop rest := h.ahead

theorem stands_ofString (source : String) :
    (ofString source).Stands (.endOfInput (Lexer.ofString source).stop)
      (Lexer.ofString source).tokens := by
  have hbefore : Ahead (.endOfInput (Lexer.ofString source).stop)
      ⟨.endOfInput 0, (Lexer.ofString source).nextToken.1, (Lexer.ofString source).nextToken.2⟩
      (Lexer.ofString source).tokens := by
    obtain ⟨hpeek, htokens, hstop⟩ := (Lexer.ofString source).nextToken_eq
    constructor
    · exact hpeek
    · exact htokens
    · exact congrArg Token.endOfInput hstop
    · intro t ht
      exact Lexer.kind_ne_of_mem_tokens ht
  exact hbefore.advance

end Window

/-- What stops a walk before its result. -/
inductive Halt where
  | wrong (d : Diagnostic)
  /-- A case that the walk holds to be impossible has come up. -/
  | unreachable

/-- A computation that moves a window and may halt; the window stays where it halts. It is `none` if
it is cut off. -/
abbrev Walk := ExceptT Halt (StateT Window Option)

namespace Walk

/-- What becomes of a walk that starts at a window, and where the window is then. -/
def run {α : Type} (x : Walk α) (w : Window) : Option (Except Halt α × Window) := ExceptT.run x w

def current : Walk Token := do return (← get).current

def peek : Walk Token := do return (← get).peek

def advance : Walk Unit := modify Window.advance

/-- Moves to the next token if it is of the required kind. -/
def expectPeek (kind : Token.Kind) : Walk Unit := do
  let t ← peek
  if t.kind = kind then advance else throw (.wrong ⟨.unexpected kind t.kind, t.span⟩)

/-- Moves to the next token if it is a semicolon. -/
def skipSemicolon : Walk Unit := do
  if (← peek).kind = .symbol .semicolon then advance

def integer : Walk Expr := do
  let t ← current
  let n := Text.Decimal.value t.literal.toList
  if n < Nat.pow 2 63 then return .integer t (Int64.ofNat n)
  else throw (.wrong ⟨.integerTooLarge t.literal, t.span⟩)

/-- A walk that has used up what it was allowed. -/
def unfinished {α : Type} : Walk α := liftM (none : Option α)

section Items

variable {α : Type} (item : Walk α)

/-- The items behind the first, as long as a comma follows. -/
def moreItems : Nat → Walk (List α)
  | 0 => unfinished
  | n + 1 => do
    if (← peek).kind = .symbol .comma then
      advance
      let a ← item
      let as ← moreItems n
      return a :: as
    else return []

/-- Items with commas between them up to the closing symbol, from the opening one on. -/
def items (closing : Symbol) (rounds : Nat) : Walk (List α) := do
  if (← peek).kind = .symbol closing then
    advance
    return []
  else
    let a ← item
    let as ← moreItems item rounds
    expectPeek (.symbol closing)
    return a :: as

end Items

section Nested

-- The expressions inside the one that is read.
variable (nested : Precedence → Walk Expr)

def letStatement : Walk Stmt := do
  let t ← current
  expectPeek .ident
  let x ← current
  expectPeek (.symbol .assign)
  advance
  let value ← nested .lowest
  skipSemicolon
  return .bind t ⟨x⟩ value

def returnStatement : Walk Stmt := do
  let t ← current
  advance
  let value ← nested .lowest
  skipSemicolon
  return .return t value

def exprStatement : Walk Stmt := do
  let t ← current
  let value ← nested .lowest
  skipSemicolon
  return .expr t value

def statement : Walk Stmt := do
  match (← current).kind with
  | .keyword .letWord => letStatement nested
  | .keyword .returnWord => returnStatement nested
  | _ => exprStatement nested

/-- The statements up to the closing brace. -/
def statements : Nat → Walk (List Stmt)
  | 0 => unfinished
  | n + 1 => do
    let t ← current
    if t.kind = .symbol .closeBrace then return []
    else if t.kind = .endOfInput then
      throw (.wrong ⟨.unexpected (.symbol .closeBrace) .endOfInput, t.span⟩)
    else
      let s ← statement nested
      advance
      let ss ← statements n
      return s :: ss

/-- A block, from its opening brace on. -/
def block (rounds : Nat) : Walk Block := do
  let t ← current
  advance
  let ss ← statements nested rounds
  return .mk t ss

def unary : Walk Expr := do
  let t ← current
  match UnaryOp.ofKind? t.kind with
  | some op =>
    advance
    let e ← nested .unary
    return .unary t op e
  | none => throw .unreachable

def group : Walk Expr := do
  advance
  let e ← nested .lowest
  expectPeek (.symbol .closeParen)
  return e

def cond (rounds : Nat) : Walk Expr := do
  let t ← current
  expectPeek (.symbol .openParen)
  advance
  let condition ← nested .lowest
  expectPeek (.symbol .closeParen)
  expectPeek (.symbol .openBrace)
  let consequence ← block nested rounds
  if (← peek).kind = .keyword .elseWord then
    advance
    expectPeek (.symbol .openBrace)
    let alternative ← block nested rounds
    return .cond t condition consequence (some alternative)
  else return .cond t condition consequence none

def parameter : Walk Name := do
  expectPeek .ident
  let x ← current
  return ⟨x⟩

def function (rounds : Nat) : Walk Expr := do
  let t ← current
  expectPeek (.symbol .openParen)
  let xs ← items parameter .closeParen rounds
  expectPeek (.symbol .openBrace)
  let body ← block nested rounds
  return .function t xs body

def element : Walk Expr := do
  advance
  nested .lowest

def array (rounds : Nat) : Walk Expr := do
  let t ← current
  let es ← items (element nested) .closeBracket rounds
  return .array t es

def pair : Walk (Expr × Expr) := do
  advance
  let key ← nested .lowest
  expectPeek (.symbol .colon)
  advance
  let value ← nested .lowest
  return (key, value)

def hash (rounds : Nat) : Walk Expr := do
  let t ← current
  let ps ← items (pair nested) .closeBrace rounds
  return .hash t ps

def operand (rounds : Nat) : Walk Expr := do
  let t ← current
  match t.kind with
  | .ident => return .name ⟨t⟩
  | .integer => integer
  | .string => return .string t
  | .keyword .trueWord => return .boolean t true
  | .keyword .falseWord => return .boolean t false
  | .symbol .bang | .symbol .minus => unary nested
  | .symbol .openParen => group nested
  | .keyword .ifWord => cond nested rounds
  | .keyword .fnWord => function nested rounds
  | .symbol .openBracket => array nested rounds
  | .symbol .openBrace => hash nested rounds
  | kind => throw (.wrong ⟨.noOperand kind, t.span⟩)

def call (callee : Expr) (rounds : Nat) : Walk Expr := do
  let t ← current
  let es ← items (element nested) .closeParen rounds
  return .call t callee es

def index (collection : Expr) : Walk Expr := do
  let t ← current
  advance
  let position ← nested .lowest
  expectPeek (.symbol .closeBracket)
  return .index t collection position

/-- The operand extended by the operator, call or index at hand. -/
def extended (left : Expr) (rounds : Nat) : Walk Expr := do
  let t ← current
  match t.kind with
  | .symbol .openParen => call nested left rounds
  | .symbol .openBracket => index nested left
  | kind =>
    match BinaryOp.ofKind? kind with
    | some op =>
      advance
      let right ← nested (.ofKind kind)
      return .binary t op left right
    | none => throw .unreachable

/-- Extends an operand as long as what follows binds tighter than `p`. -/
def extend (rounds : Nat) (p : Precedence) : Nat → Expr → Walk Expr
  | 0, _ => unfinished
  | n + 1, left => do
    let t ← peek
    if t.kind ≠ .symbol .semicolon ∧ p < .ofKind t.kind then
      advance
      let left ← extended nested left rounds
      extend rounds p n left
    else return left

end Nested

/-- An expression whose operators all bind tighter than `p`. -/
def expr : Nat → Precedence → Walk Expr
  | 0, _ => unfinished
  | n + 1, p => do
    let left ← operand (expr n) n
    extend (expr n) n p (n + 1) left

/-- The result of a walk, or the diagnostic with which it halts. -/
def attempt {α : Type} (x : Walk α) : Walk (Except Diagnostic α) :=
  tryCatch (do return .ok (← x)) fun
    | .wrong d => return .error d
    | .unreachable => throw .unreachable

/-- Statements up to the end of input. One that fails leaves its diagnostic, and the next one is
tried at the next token. -/
def reading (n : Nat) : Nat → Walk Reading
  | 0 => unfinished
  | rounds + 1 => do
    if (← current).kind = .endOfInput then return ⟨⟨[]⟩, []⟩
    else
      let outcome ← attempt (statement (expr n))
      advance
      let later ← reading n rounds
      match outcome with
      | .ok s => return ⟨⟨s :: later.program.statements⟩, later.diagnostics⟩
      | .error d => return ⟨later.program, d :: later.diagnostics⟩

/-- The walk over a whole text, with an allowance for its loops and for how deep it nests. -/
def program (n : Nat) : Walk Reading := reading n n

section Run

variable {α β : Type} {w : Window}

@[simp] theorem run_pure (a : α) (w : Window) : (pure a : Walk α).run w = some (.ok a, w) := rfl

@[simp] theorem run_current_bind (g : Token → Walk β) (w : Window) :
    (current >>= g).run w = (g w.current).run w := rfl

@[simp] theorem run_advance_bind (g : Unit → Walk β) (w : Window) :
    (advance >>= g).run w = (g ()).run w.advance := rfl

theorem run_bind_of_ok {x : Walk α} {a : α} {w' : Window} (h : x.run w = some (.ok a, w'))
    (g : α → Walk β) : (x >>= g).run w = (g a).run w' := by
  change (x.run w).bind _ = _
  rw [h]
  rfl

theorem run_bind_of_error {x : Walk α} {h : Halt} {w' : Window}
    (hx : x.run w = some (.error h, w')) (g : α → Walk β) :
    (x >>= g).run w = some (.error h, w') := by
  change (x.run w).bind _ = _
  rw [hx]
  rfl

theorem run_tryCatch_of_ok {x : Walk α} {a : α} {w' : Window} (h : x.run w = some (.ok a, w'))
    (handle : Halt → Walk α) : (tryCatch x handle).run w = some (.ok a, w') := by
  change (x.run w).bind _ = _
  rw [h]
  rfl

theorem run_tryCatch_of_error {x : Walk α} {h : Halt} {w' : Window}
    (hx : x.run w = some (.error h, w')) (handle : Halt → Walk α) :
    (tryCatch x handle).run w = (handle h).run w' := by
  change (x.run w).bind _ = _
  rw [hx]
  rfl

end Run

end Walk

end Monkey
