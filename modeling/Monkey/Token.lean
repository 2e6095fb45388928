import Monkey.Source

/-!
The tokens of the language: its words, its symbols, and the kinds under which diagnostics name
them. A symbol is named by its own spelling, a word by its capitals.
-/

namespace Monkey

/-- The reserved words. -/
inductive Keyword where
  | fnWord | letWord | trueWord | falseWord | ifWord | elseWord | returnWord
  deriving DecidableEq, Repr

namespace Keyword

def all : List Keyword := [fnWord, letWord, trueWord, falseWord, ifWord, elseWord, returnWord]

/-- The spelling in source text. -/
def text : Keyword → String
  | fnWord => "fn"
  | letWord => "let"
  | trueWord => "true"
  | falseWord => "false"
  | ifWord => "if"
  | elseWord => "else"
  | returnWord => "return"

/-- The name in diagnostics. -/
def name : Keyword → String
  | fnWord => "FUNCTION"
  | letWord => "LET"
  | trueWord => "TRUE"
  | falseWord => "FALSE"
  | ifWord => "IF"
  | elseWord => "ELSE"
  | returnWord => "RETURN"

/-- The reserved word with a spelling; letter case counts. -/
def ofText? (word : String) : Option Keyword := all.find? (·.text == word)

@[simp] theorem ofText?_text (k : Keyword) : ofText? k.text = some k := by cases k <;> decide

theorem ofText?_eq_some_iff {word : String} {k : Keyword} :
    ofText? word = some k ↔ k.text = word := by
  constructor
  · intro h
    simpa using List.find?_some h
  · rintro rfl
    exact ofText?_text k

end Keyword

/-- Operators and punctuation. -/
inductive Symbol where
  | assign | plus | minus | bang | asterisk | slash | less | greater | equal | notEqual
  | comma | semicolon | colon
  | openParen | closeParen | openBrace | closeBrace | openBracket | closeBracket
  deriving DecidableEq, Repr

namespace Symbol

/-- The spelling in source text, which is also the name in diagnostics. -/
def text : Symbol → String
  | assign => "="
  | plus => "+"
  | minus => "-"
  | bang => "!"
  | asterisk => "*"
  | slash => "/"
  | less => "<"
  | greater => ">"
  | equal => "=="
  | notEqual => "!="
  | comma => ","
  | semicolon => ";"
  | colon => ":"
  | openParen => "("
  | closeParen => ")"
  | openBrace => "\x7b"
  | closeBrace => "\x7d"
  | openBracket => "["
  | closeBracket => "]"

/-- The symbol that a character spells by itself. -/
def ofChar? : Char → Option Symbol
  | '=' => some assign
  | '+' => some plus
  | '-' => some minus
  | '!' => some bang
  | '*' => some asterisk
  | '/' => some slash
  | '<' => some less
  | '>' => some greater
  | ',' => some comma
  | ';' => some semicolon
  | ':' => some colon
  | '(' => some openParen
  | ')' => some closeParen
  | '{' => some openBrace
  | '}' => some closeBrace
  | '[' => some openBracket
  | ']' => some closeBracket
  | _ => none

theorem text_of_ofChar? {c : Char} {s : Symbol} (h : ofChar? c = some s) :
    s.text = String.singleton c := by
  unfold ofChar? at h
  split at h <;> simp at h <;> subst h <;> rfl

end Symbol

/-- The lexical category of a token. -/
inductive Token.Kind where
  | illegal
  | endOfInput
  | ident
  | integer
  | string
  | symbol (s : Symbol)
  | keyword (k : Keyword)
  deriving DecidableEq, Repr

/-- The name of a kind in diagnostics. -/
def Token.Kind.name : Token.Kind → String
  | .illegal => "ILLEGAL"
  | .endOfInput => "EOF"
  | .ident => "IDENT"
  | .integer => "INT"
  | .string => "STRING"
  | .symbol s => s.text
  | .keyword k => k.name

/-- The literal is the text of the span, less the quotes of a string. -/
structure Token where
  kind : Token.Kind
  literal : String
  span : Span
  deriving DecidableEq, Repr

/-- The token past the last character of a text. -/
def Token.endOfInput (position : Nat) : Token := ⟨.endOfInput, "", Span.empty position⟩

end Monkey
