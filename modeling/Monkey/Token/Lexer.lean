import Monkey.Token

/-!
Tokens of a text. After blanks, the lexer reads the longest word, number or string that starts at
the next character, and one symbol or one unknown character otherwise; every lexeme takes at least
one character. A string has no escapes and runs to the next quote, or to the end of the text.
-/

namespace Monkey

namespace Token

/-- Space, tab, carriage return and line feed separate tokens. -/
def isBlank (c : Char) : Bool := c == ' ' || c == '\t' || c == '\r' || c == '\n'

/-- Names are made of ASCII letters and underscores. -/
def isNameChar (c : Char) : Bool := c.isAlpha || c == '_'

/-- The kind of a run of name characters: a reserved word, or else a name. -/
def wordKind (word : String) : Kind :=
  match Keyword.ofText? word with
  | some k => .keyword k
  | none => .ident

end Token

/-- A token before it has a place: its kind, its literal, and how many characters it takes. -/
structure Lexeme where
  kind : Token.Kind
  literal : String
  width : Nat
  deriving DecidableEq, Repr

namespace Lexeme

/-- A string literal, given the characters behind its opening quote. -/
def string (rest : List Char) : Lexeme :=
  let body := rest.takeWhile (· != '"')
  ⟨.string, String.ofList body,
    if body.length < rest.length then body.length + 2 else body.length + 1⟩

/-- The longest run of characters in a class, beginning with `c`. -/
def run (kind : String → Token.Kind) (inClass : Char → Bool) (c : Char) (rest : List Char) :
    Lexeme :=
  let word := c :: rest.takeWhile inClass
  ⟨kind (String.ofList word), String.ofList word, word.length⟩

/-- A symbol of two characters if the next two spell one, and otherwise a single character. -/
def symbol (c : Char) (rest : List Char) : Lexeme :=
  match c, rest with
  | '=', '=' :: _ => ⟨.symbol .equal, Symbol.equal.text, 2⟩
  | '!', '=' :: _ => ⟨.symbol .notEqual, Symbol.notEqual.text, 2⟩
  | c, _ =>
    match Symbol.ofChar? c with
    | some s => ⟨.symbol s, s.text, 1⟩
    | none => ⟨.illegal, String.singleton c, 1⟩

/-- The lexeme that starts with the character `c`, which is not a blank. -/
def ofChars (c : Char) (rest : List Char) : Lexeme :=
  if c == '"' then string rest
  else if c.isDigit then run (fun _ => .integer) Char.isDigit c rest
  else if Token.isNameChar c then run Token.wordKind Token.isNameChar c rest
  else symbol c rest

theorem width_pos (c : Char) (rest : List Char) : 0 < (ofChars c rest).width := by
  unfold ofChars
  split
  · simp only [string]; split <;> omega
  · split
    · simp [run]
    · split
      · simp [run]
      · unfold symbol
        split
        · simp
        · simp
        · split <;> simp

/-- The token of a lexeme that starts at an offset. -/
def place (l : Lexeme) (start : Nat) : Token := ⟨l.kind, l.literal, start, start + l.width⟩

end Lexeme

/-- The characters still to be read, and the offset of the first of them. -/
structure Lexer where
  rest : List Char
  offset : Nat
  deriving DecidableEq, Repr

namespace Lexer

def ofString (source : String) : Lexer := ⟨source.toList, 0⟩

/-- The offset past the last character. -/
def stop (l : Lexer) : Nat := l.offset + l.rest.length

def drop (l : Lexer) (n : Nat) : Lexer := ⟨l.rest.drop n, l.offset + n⟩

/-- The lexer at the next character that is no blank. -/
def skipBlanks (l : Lexer) : Lexer := l.drop (l.rest.takeWhile Token.isBlank).length

theorem skipBlanks_rest (l : Lexer) : l.skipBlanks.rest = l.rest.dropWhile Token.isBlank := by
  calc l.rest.drop (l.rest.takeWhile Token.isBlank).length
      = (l.rest.takeWhile Token.isBlank ++ l.rest.dropWhile Token.isBlank).drop
          (l.rest.takeWhile Token.isBlank).length := by rw [List.takeWhile_append_dropWhile]
    _ = l.rest.dropWhile Token.isBlank := List.drop_left

/-- The next token and the lexer behind it, or `none` where only blanks are left. -/
def next? (l : Lexer) : Option (Token × Lexer) :=
  match l.skipBlanks.rest with
  | [] => none
  | c :: rest =>
    let lexeme := Lexeme.ofChars c rest
    some (lexeme.place l.skipBlanks.offset, l.skipBlanks.drop lexeme.width)

theorem length_rest_next? {l l' : Lexer} {t : Token} (h : l.next? = some (t, l')) :
    l'.rest.length < l.rest.length := by
  have hskip : l.skipBlanks.rest.length ≤ l.rest.length := by
    rw [skipBlanks_rest]
    exact (List.dropWhile_sublist _).length_le
  unfold next? at h
  split at h
  · simp at h
  · next c rest hrest =>
    obtain ⟨-, rfl⟩ := Prod.mk.inj (Option.some.inj h)
    have := Lexeme.width_pos c rest
    simp only [drop, hrest, List.length_drop, List.length_cons] at hskip ⊢
    omega

/-- The next token; where only blanks are left it is the end of input, however often asked. -/
def nextToken (l : Lexer) : Token × Lexer :=
  l.next?.getD (.endOfInput l.stop, ⟨[], l.stop⟩)

/-- All tokens before the end of input. -/
def tokens (l : Lexer) : List Token :=
  match _h : l.next? with
  | none => []
  | some (t, l') => t :: l'.tokens
termination_by l.rest.length
decreasing_by exact length_rest_next? _h

theorem tokens_of_none {l : Lexer} (h : l.next? = none) : l.tokens = [] := by
  rw [tokens]
  split <;> simp_all

theorem tokens_of_some {l l' : Lexer} {t : Token} (h : l.next? = some (t, l')) :
    l.tokens = t :: l'.tokens := by
  rw [tokens]
  split <;> simp_all

end Lexer

namespace Token

/-- The tokens of a text, closed by its end of input. -/
def tokenize (source : String) : List Token :=
  (Lexer.ofString source).tokens ++ [.endOfInput (Lexer.ofString source).stop]

end Token

end Monkey
