import Monkey.Tree
import Monkey.Token.Lexer
import Monkey.Text.Decimal
import Monkey.Diagnostic

/-!
Trees of token lists. An operand is read first and then extended as long as the next token binds
tighter than what stands before the operand; an operator's right side is read at the operator's own
precedence, so equal precedences group to the left. A statement that does not fit is dropped with
one diagnostic, and reading goes on at the first token that it did not use: behind a blamed token
that begins no operand, at a blamed token that stands where another was required.

Every step says how many tokens may be left, which is what the recursion descends on.
-/

namespace Monkey

/-- How tightly an operator holds its operands. -/
inductive Precedence where
  | lowest | equality | comparison | sum | product | unary | call | index
  deriving DecidableEq, Repr

namespace Precedence

def level : Precedence → Nat
  | lowest => 0
  | equality => 1
  | comparison => 2
  | sum => 3
  | product => 4
  | unary => 5
  | call => 6
  | index => 7

instance : LT Precedence := ⟨fun p q => p.level < q.level⟩

instance (p q : Precedence) : Decidable (p < q) := inferInstanceAs (Decidable (p.level < q.level))

/-- The precedence of a token behind an operand, `lowest` if it cannot extend one. -/
def ofKind : Token.Kind → Precedence
  | .symbol .equal | .symbol .notEqual => equality
  | .symbol .less | .symbol .greater => comparison
  | .symbol .plus | .symbol .minus => sum
  | .symbol .asterisk | .symbol .slash => product
  | .symbol .openParen => call
  | .symbol .openBracket => index
  | _ => lowest

end Precedence

/-- What reading makes of `n` tokens: a piece of the program or a diagnostic, and the tokens at
which reading goes on. -/
structure Parsed (α : Type) (n : Nat) where
  outcome : Except Diagnostic α
  rest : List Token
  length_rest_le : rest.length ≤ n

namespace Parsed

variable {α β : Type} {n : Nat}

def done (value : α) (rest : List Token) : Parsed α rest.length := ⟨.ok value, rest, Nat.le_refl _⟩

def failed (d : Diagnostic) (rest : List Token) : Parsed α rest.length :=
  ⟨.error d, rest, Nat.le_refl _⟩

/-- The same result under a weaker bound. -/
def loosen (p : Parsed α (n - 1)) : Parsed α n :=
  ⟨p.outcome, p.rest, Nat.le_trans p.length_rest_le (Nat.sub_le n 1)⟩

/-- The same result with one more token before all that was read. -/
def afterToken (p : Parsed α n) : Parsed α (n + 1) :=
  ⟨p.outcome, p.rest, Nat.le_succ_of_le p.length_rest_le⟩

def map (f : α → β) (p : Parsed α n) : Parsed β n := ⟨p.outcome.map f, p.rest, p.length_rest_le⟩

/-- Reads on behind a piece; a diagnostic stands. -/
def bind (p : Parsed α n) (f : α → (rest : List Token) → rest.length ≤ n → Parsed β rest.length) :
    Parsed β n :=
  match p with
  | ⟨.error d, rest, h⟩ => ⟨.error d, rest, h⟩
  | ⟨.ok a, rest, h⟩ =>
    let q := f a rest h
    ⟨q.outcome, q.rest, Nat.le_trans q.length_rest_le h⟩

@[simp] theorem outcome_map (f : α → β) (p : Parsed α n) : (p.map f).outcome = p.outcome.map f := rfl

end Parsed

namespace Parser

-- The end of input stands behind the last token.
variable (stop : Token)

/-- Reads a token of the required kind; any other token is blamed and left unread. -/
def expect (kind : Token.Kind) (ts : List Token) : Parsed Token ts.length :=
  match ts with
  | [] => .failed ⟨.unexpected kind stop.kind, stop.span⟩ []
  | t :: rest =>
    if t.kind = kind then (Parsed.done t rest).afterToken
    else .failed ⟨.unexpected kind t.kind, t.span⟩ (t :: rest)

/-- Reads the semicolon that may close a statement. -/
def close (s : Stmt) (ts : List Token) : Parsed Stmt ts.length :=
  match ts with
  | [] => .done s []
  | t :: rest =>
    if t.kind = .symbol .semicolon then (Parsed.done s rest).afterToken else .done s (t :: rest)

/-- An integer literal, unless its value leaves the signed 64 bit range. -/
def integer (t : Token) (rest : List Token) : Parsed Expr rest.length :=
  let n := Text.Decimal.value t.literal.toList
  if n < Nat.pow 2 63 then .done (.integer t (Int64.ofNat n)) rest
  else .failed ⟨.integerTooLarge t.literal, t.span⟩ rest

/-- What follows an item of a list: a comma and more items, or the closing symbol. -/
def listTail {α : Type} (closing : Symbol) (item : α) (ts : List Token)
    (more : (rest : List Token) → rest.length < ts.length → Parsed (List α) rest.length) :
    Parsed (List α) ts.length :=
  match ts with
  | [] => (expect stop (.symbol closing) []).map fun _ => [item]
  | t :: rest =>
    if t.kind = .symbol .comma then
      ((more rest (Nat.lt_succ_self _)).map (item :: ·)).afterToken
    else (expect stop (.symbol closing) (t :: rest)).map fun _ => [item]

/-- One or more names with commas between them, and the closing parenthesis. -/
def names (ts : List Token) : Parsed (List Name) ts.length :=
  (expect stop .ident ts).bind fun x rest _ =>
    listTail stop .closeParen ⟨x⟩ rest fun rest _ => names rest
termination_by ts.length

/-- The parameters of a function literal, behind the opening parenthesis. -/
def parameters (ts : List Token) : Parsed (List Name) ts.length :=
  match ts with
  | [] => names stop []
  | t :: rest =>
    if t.kind = .symbol .closeParen then (Parsed.done [] rest).afterToken
    else names stop (t :: rest)

mutual

/-- An expression whose operators all bind tighter than `p`. -/
def expr (p : Precedence) (ts : List Token) : Parsed Expr (ts.length - 1) :=
  (operand ts).bind fun left rest _ => extend p left rest
termination_by 5 * ts.length + 1

/-- What an expression begins with: all that stands before its first binary operator, call or
index. -/
def operand (ts : List Token) : Parsed Expr (ts.length - 1) :=
  match ts with
  | [] => .failed ⟨.noOperand stop.kind, stop.span⟩ []
  | t :: rest =>
    match t.kind with
    | .ident => .done (.name ⟨t⟩) rest
    | .integer => integer t rest
    | .string => .done (.string t) rest
    | .keyword .trueWord => .done (.boolean t true) rest
    | .keyword .falseWord => .done (.boolean t false) rest
    | .keyword .ifWord =>
      (expect stop (.symbol .openParen) rest).bind fun _ rest _ =>
      (expr .lowest rest).loosen.bind fun condition rest _ =>
      (expect stop (.symbol .closeParen) rest).bind fun _ rest _ =>
      (block rest).bind fun consequence rest _ =>
        match rest with
        | [] => .done (.cond t condition consequence none) []
        | u :: rest =>
          if u.kind = .keyword .elseWord then
            ((block rest).map fun alternative =>
              Expr.cond t condition consequence (some alternative)).afterToken
          else .done (.cond t condition consequence none) (u :: rest)
    | .keyword .fnWord =>
      (expect stop (.symbol .openParen) rest).bind fun _ rest _ =>
      (parameters stop rest).bind fun xs rest _ =>
        (block rest).map fun body => .function t xs body
    | .symbol .openParen =>
      (expr .lowest rest).loosen.bind fun e rest _ =>
        (expect stop (.symbol .closeParen) rest).map fun _ => e
    | .symbol .openBracket => (exprs .closeBracket rest).map (.array t)
    | .symbol .openBrace =>
      match rest with
      | [] => (pairs []).map (.hash t)
      | u :: rest =>
        if u.kind = .symbol .closeBrace then (Parsed.done (.hash t []) rest).afterToken
        else (pairs (u :: rest)).map (.hash t)
    | kind =>
      match UnaryOp.ofKind? kind with
      | some op => (expr .unary rest).loosen.map (.unary t op)
      | none => .failed ⟨.noOperand kind, t.span⟩ rest
termination_by 5 * ts.length
decreasing_by all_goals grind

/-- Extends an operand by every operator, call and index that binds tighter than `p`. -/
def extend (p : Precedence) (left : Expr) (ts : List Token) : Parsed Expr ts.length :=
  match ts with
  | [] => .done left []
  | t :: rest =>
    if p < Precedence.ofKind t.kind then
      match t.kind with
      | .symbol .openParen =>
        ((exprs .closeParen rest).bind fun arguments rest _ =>
          extend p (.call t left arguments) rest).afterToken
      | .symbol .openBracket =>
        ((expr .lowest rest).loosen.bind fun position rest _ =>
          (expect stop (.symbol .closeBracket) rest).bind fun _ rest _ =>
            extend p (.index t left position) rest).afterToken
      | kind =>
        match BinaryOp.ofKind? kind with
        | some op =>
          ((expr (.ofKind kind) rest).loosen.bind fun right rest _ =>
            extend p (.binary t op left right) rest).afterToken
        | none => .done left (t :: rest)
    else .done left (t :: rest)
termination_by 5 * ts.length

/-- Expressions with commas between them up to the closing symbol, behind the opening one. -/
def exprs (closing : Symbol) (ts : List Token) : Parsed (List Expr) ts.length :=
  match ts with
  | [] => elements closing []
  | t :: rest =>
    if t.kind = .symbol closing then (Parsed.done [] rest).afterToken
    else elements closing (t :: rest)
termination_by 5 * ts.length + 3

/-- One or more expressions with commas between them, and the closing symbol. -/
def elements (closing : Symbol) (ts : List Token) : Parsed (List Expr) ts.length :=
  (expr .lowest ts).loosen.bind fun e rest _ =>
    listTail stop closing e rest fun rest _ => elements closing rest
termination_by 5 * ts.length + 2

/-- One or more pairs `key: value` with commas between them, and the closing brace. -/
def pairs (ts : List Token) : Parsed (List (Expr × Expr)) ts.length :=
  (expr .lowest ts).loosen.bind fun key rest _ =>
  (expect stop (.symbol .colon) rest).bind fun _ rest _ =>
  (expr .lowest rest).loosen.bind fun value rest _ =>
    listTail stop .closeBrace (key, value) rest fun rest _ => pairs rest
termination_by 5 * ts.length + 2

/-- A block from its opening to its closing brace. -/
def block (ts : List Token) : Parsed Block ts.length :=
  (expect stop (.symbol .openBrace) ts).bind fun brace rest _ =>
    (statements rest).map (.mk brace)
termination_by 5 * ts.length + 4

/-- The statements of a block and its closing brace. -/
def statements (ts : List Token) : Parsed (List Stmt) ts.length :=
  match ts with
  | [] => .failed ⟨.unexpected (.symbol .closeBrace) stop.kind, stop.span⟩ []
  | t :: rest =>
    if t.kind = .symbol .closeBrace then (Parsed.done [] rest).afterToken
    else
      ((statement (t :: rest)).bind fun s rest _ => (statements rest).map (s :: ·)).loosen
termination_by 5 * ts.length + 3
decreasing_by all_goals grind

/-- A statement, with its semicolon if one follows. -/
def statement (ts : List Token) : Parsed Stmt (ts.length - 1) :=
  match ts with
  | [] => (expr .lowest []).map (.expr stop)
  | t :: rest =>
    match t.kind with
    | .keyword .letWord =>
      (expect stop .ident rest).bind fun x rest _ =>
      (expect stop (.symbol .assign) rest).bind fun _ rest _ =>
      (expr .lowest rest).loosen.bind fun value rest _ => close (.bind t ⟨x⟩ value) rest
    | .keyword .returnWord =>
      (expr .lowest rest).loosen.bind fun value rest _ => close (.return t value) rest
    | _ => (expr .lowest (t :: rest)).bind fun value rest _ => close (.expr t value) rest
termination_by 5 * ts.length + 2

end

end Parser

/-- What a whole text amounts to: the statements that could be read, and a diagnostic for each that
could not. -/
structure Reading where
  program : Program
  diagnostics : List Diagnostic

namespace Reading

/-- Reads statements until the tokens are used up. -/
def ofTokens (stop : Token) (ts : List Token) : Reading :=
  match ts with
  | [] => ⟨⟨[]⟩, []⟩
  | t :: rest =>
    match Parser.statement stop (t :: rest) with
    | ⟨.ok s, behind, _⟩ =>
      let later := ofTokens stop behind
      ⟨⟨s :: later.program.statements⟩, later.diagnostics⟩
    | ⟨.error d, behind, _⟩ =>
      let later := ofTokens stop behind
      ⟨later.program, d :: later.diagnostics⟩
termination_by ts.length
decreasing_by all_goals grind

def ofSource (source : String) : Reading :=
  let lexer := Lexer.ofString source
  ofTokens (.endOfInput lexer.stop) lexer.tokens

end Reading

/-- The program that a text denotes, or all that is wrong with it. -/
def Program.parse (source : String) : Except (List Diagnostic) Program :=
  let reading := Reading.ofSource source
  if reading.diagnostics.isEmpty then .ok reading.program else .error reading.diagnostics

end Monkey
