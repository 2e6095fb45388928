import Monkey.Proofs.Tokenization

/-!
Reading a text character by character. A scanner hands out the characters of a text one by one, is
never asked for more than the next of them ahead of time, and keeps two counters, the place of the
character read last and the number of those read. A token's span is what the counters said when its
first character had been read and when its last one had. The lexer knows of each token how wide it
is and moves one offset; both give the same tokens, whatever they are asked and however often.
-/

namespace Monkey

theorem Lexer.drop_drop (l : Lexer) (m n : Nat) : (l.drop m).drop n = l.drop (m + n) := by
  simp only [drop, List.drop_drop, Nat.add_assoc]

theorem Lexer.stop_drop {l : Lexer} {n : Nat} (h : n ≤ l.rest.length) :
    (l.drop n).stop = l.stop := by
  simp only [stop, drop, List.length_drop]
  omega

/-- Where a character begins symbols of two characters, an equals sign behind it decides. -/
theorem Lexeme.ofChars_pair {c : Char} {both single : Symbol}
    (hboth : ∀ ds, symbol c ('=' :: ds) = ⟨.symbol both, both.text, 2⟩)
    (hsingle : Symbol.ofChar? c = some single) (cs : List Char) :
    ofChars c cs = if cs.head? = some '=' then ⟨.symbol both, both.text, 2⟩
      else ⟨.symbol single, single.text, 1⟩ := by
  obtain ⟨-, hd, hn, hq⟩ := Symbol.class_of_ofChar? hsingle
  rw [ofChars_of_other hd hn hq]
  split
  · next h =>
    obtain ⟨ds, rfl⟩ := List.head?_eq_some_iff.mp h
    exact hboth ds
  · next h => rw [symbol_of_single fun _ => h, hsingle]

/-- The characters still to be read, each with its place; the place of the one read last, zero
before there is one; and how many have been read. -/
structure Scanner where
  rest : List (Char × Nat)
  last : Nat
  count : Nat

namespace Scanner

def ofString (source : String) : Scanner := ⟨source.toList.zipIdx, 0, 0⟩

/-- The next character, which is not read. -/
def peek (s : Scanner) : Option Char := s.rest.head?.map Prod.fst

/-- Reads the next character. -/
def next (s : Scanner) : Option Char × Scanner :=
  match s.rest with
  | [] => (none, s)
  | (c, i) :: rest => (some c, ⟨rest, i, i + 1⟩)

/-- Reads the next character if it is the expected one. -/
def nextIf (expected : Char) (s : Scanner) : Bool × Scanner :=
  match s.rest with
  | [] => (false, s)
  | (c, i) :: rest => if c = expected then (true, ⟨rest, i, i + 1⟩) else (false, s)

theorem length_rest_next {s : Scanner} {c : Char} (h : s.peek = some c) :
    s.next.2.rest.length < s.rest.length := by
  obtain ⟨rest, last, count⟩ := s
  cases rest with
  | nil => cases h
  | cons p rest => exact Nat.lt_succ_self _

/-- Reads characters as long as the next one is in a class. -/
def nextWhile (inClass : Char → Bool) (s : Scanner) : List Char × Scanner :=
  match _h : s.peek with
  | none => ([], s)
  | some c =>
    if inClass c then
      let (cs, s) := s.next.2.nextWhile inClass
      (c :: cs, s)
    else ([], s)
termination_by s.rest.length
decreasing_by exact length_rest_next _h

/-- A symbol of two characters if the second one follows, and otherwise the one of the first. -/
def pair (expected : Char) (both single : Symbol) (start : Nat) (s : Scanner) : Token × Scanner :=
  let (found, s) := s.nextIf expected
  let symbol := if found then both else single
  (⟨.symbol symbol, symbol.text, start, s.count⟩, s)

/-- A string, behind its opening quote. -/
def string (start : Nat) (s : Scanner) : Token × Scanner :=
  let (body, s) := s.nextWhile (· != '"')
  let (_, s) := s.nextIf '"'
  (⟨.string, String.ofList body, start, s.count⟩, s)

/-- A run of characters in a class, behind its first one. -/
def run (kind : String → Token.Kind) (inClass : Char → Bool) (c : Char) (start : Nat)
    (s : Scanner) : Token × Scanner :=
  let (rest, s) := s.nextWhile inClass
  let word := String.ofList (c :: rest)
  (⟨kind word, word, start, s.count⟩, s)

/-- The token of which the first character was read at a place. -/
def token (c : Char) (start : Nat) (s : Scanner) : Token × Scanner :=
  match c with
  | '=' => s.pair '=' .equal .assign start
  | '!' => s.pair '=' .notEqual .bang start
  | '"' => s.string start
  | c =>
    match Symbol.ofChar? c with
    | some symbol => (⟨.symbol symbol, symbol.text, .single start⟩, s)
    | none =>
      if c.isDigit then s.run (fun _ => .integer) Char.isDigit c start
      else if Token.isNameChar c then s.run Token.wordKind Token.isNameChar c start
      else (⟨.illegal, String.singleton c, .single start⟩, s)

/-- Reads up to the end of the next token. -/
def nextToken (s : Scanner) : Token × Scanner :=
  let (_, s) := s.nextWhile Token.isBlank
  match s.next with
  | (none, s) => (.endOfInput s.count, s)
  | (some c, s) => s.token c s.last

/-- Reads tokens up to the end of input, if this many are enough. -/
def collect : Nat → Scanner → Option (List Token)
  | 0, _ => none
  | n + 1, s =>
    let (t, s) := s.nextToken
    if t.kind = .endOfInput then some [t] else (collect n s).map (t :: ·)

/-- The scanner stands where the lexer does. -/
structure Stands (l : Lexer) (s : Scanner) : Prop where
  rest : s.rest = l.rest.zipIdx l.offset
  count : s.count = l.offset

theorem stands_ofString (source : String) : (ofString source).Stands (Lexer.ofString source) :=
  ⟨rfl, rfl⟩

theorem Stands.of_zipIdx (cs : List Char) (o last : Nat) :
    Stands ⟨cs, o⟩ ⟨cs.zipIdx o, last, o⟩ := ⟨rfl, rfl⟩

section

variable {s : Scanner} {o n : Nat} {c : Char} {cs : List Char}

theorem next_of_nil (h : s.Stands ⟨[], o⟩) : s.next = (none, s) := by
  rw [next, h.rest]
  rfl

theorem next_of_cons (h : s.Stands ⟨c :: cs, o⟩) :
    s.next = (some c, ⟨cs.zipIdx (o + 1), o, o + 1⟩) := by
  rw [next, h.rest]
  rfl

theorem peek_eq (h : s.Stands ⟨cs, o⟩) : s.peek = cs.head? := by
  rw [peek, h.rest, List.head?_zipIdx, Option.map_map]
  cases cs.head? <;> rfl

theorem nextIf_eq (h : s.Stands ⟨cs, o⟩) (expected : Char) :
    (s.nextIf expected).1 = decide (cs.head? = some expected) ∧ (s.nextIf expected).2.Stands
      ((⟨cs, o⟩ : Lexer).drop (if cs.head? = some expected then 1 else 0)) := by
  rw [nextIf, h.rest]
  cases cs with
  | nil => exact ⟨rfl, h⟩
  | cons c cs =>
    by_cases hc : c = expected
    · simp [hc, Lexer.drop, Stands.of_zipIdx]
    · simpa [hc, Lexer.drop] using h

theorem nextWhile_eq (h : s.Stands ⟨cs, o⟩) (inClass : Char → Bool) :
    (s.nextWhile inClass).1 = cs.takeWhile inClass ∧ (s.nextWhile inClass).2.Stands
      ((⟨cs, o⟩ : Lexer).drop (cs.takeWhile inClass).length) := by
  induction cs generalizing s o with
  | nil =>
    have hpeek : s.peek = none := peek_eq h
    rw [nextWhile]
    split
    · exact ⟨rfl, h⟩
    · next hc => cases hpeek.symm.trans hc
  | cons c cs ih =>
    have hpeek : s.peek = some c := peek_eq h
    rw [nextWhile]
    split
    · next hc => cases hpeek.symm.trans hc
    · next d hd =>
      cases hpeek.symm.trans hd
      cases hclass : inClass c with
      | false => simpa [hclass, Lexer.drop] using h
      | true =>
        rw [next_of_cons h, List.takeWhile_cons_of_pos hclass]
        obtain ⟨hread, hbehind⟩ := ih (Stands.of_zipIdx cs (o + 1) o)
        refine ⟨congrArg (c :: ·) hread, ?_⟩
        rw [Lexer.drop, Nat.add_right_comm] at hbehind
        exact hbehind

/-- The token and the scanner behind it are those of a lexeme that starts with this character at
this offset. -/
def Reads (c : Char) (cs : List Char) (o : Nat) (l : Lexeme) (r : Token × Scanner) : Prop :=
  r.1 = l.place o ∧ r.2.Stands ((⟨c :: cs, o⟩ : Lexer).drop l.width)

/-- Behind so many characters more, the counters give a token its span. -/
theorem Stands.reads (h : s.Stands ((⟨cs, o + 1⟩ : Lexer).drop n)) (k : Token.Kind)
    (literal : String) (c : Char) :
    Reads c cs o ⟨k, literal, n + 1⟩ (⟨k, literal, o, s.count⟩, s) := by
  have hoffset : o + 1 + n = o + (n + 1) := Nat.add_right_comm o 1 n
  rw [Lexer.drop, hoffset] at h
  refine ⟨?_, h⟩
  rw [h.count]
  rfl

theorem reads_single (h : s.Stands ⟨cs, o + 1⟩) (k : Token.Kind) (literal : String) (c : Char) :
    Reads c cs o ⟨k, literal, 1⟩ (⟨k, literal, .single o⟩, s) := ⟨rfl, h⟩

theorem reads_pair (h : s.Stands ⟨cs, o + 1⟩) (expected c : Char) (both single : Symbol) :
    Reads c cs o (if cs.head? = some expected then ⟨.symbol both, both.text, 2⟩
      else ⟨.symbol single, single.text, 1⟩) (s.pair expected both single o) := by
  obtain ⟨hfound, hbehind⟩ := nextIf_eq h expected
  rw [pair]
  simp only [hfound, decide_eq_true_eq]
  by_cases hhead : cs.head? = some expected
  · rw [if_pos hhead] at hbehind
    rw [if_pos hhead, if_pos hhead]
    exact hbehind.reads (.symbol both) both.text c
  · rw [if_neg hhead] at hbehind
    rw [if_neg hhead, if_neg hhead]
    exact hbehind.reads (.symbol single) single.text c

theorem reads_run (h : s.Stands ⟨cs, o + 1⟩) (kind : String → Token.Kind)
    (inClass : Char → Bool) (c : Char) :
    Reads c cs o (.run kind inClass c cs) (s.run kind inClass c o) := by
  obtain ⟨hread, hbehind⟩ := nextWhile_eq h inClass
  rw [run]
  simp only [hread]
  exact hbehind.reads _ _ c

/-- A quote follows the body of a string unless the text ends there. -/
theorem head?_behind_body (cs : List Char) :
    (cs.drop (cs.takeWhile (· != '"')).length).head? = some '"' ↔
      (cs.takeWhile (· != '"')).length < cs.length := by
  induction cs with
  | nil => simp
  | cons c cs ih =>
    by_cases hc : c = '"'
    · simp [hc]
    · simpa [hc] using ih

theorem reads_string (h : s.Stands ⟨cs, o + 1⟩) : Reads '"' cs o (.string cs) (s.string o) := by
  obtain ⟨hread, hbody⟩ := nextWhile_eq h (· != '"')
  obtain ⟨-, hclosed⟩ := nextIf_eq hbody '"'
  have hbehind := Lexer.drop_drop ⟨cs, o + 1⟩ (cs.takeWhile (· != '"')).length
  rw [Lexer.drop] at hbehind
  rw [string, Lexeme.string]
  simp only [hread, head?_behind_body, hbehind] at hclosed ⊢
  split at hclosed
  · next hlt =>
    rw [if_pos hlt]
    exact hclosed.reads _ _ '"'
  · next hlt =>
    rw [if_neg hlt]
    exact hclosed.reads _ _ '"'

/-- The token that begins with a character is its lexeme. -/
theorem reads_token (h : s.Stands ⟨cs, o + 1⟩) (c : Char) :
    Reads c cs o (.ofChars c cs) (s.token c o) := by
  unfold token
  split
  · rw [Lexeme.ofChars_pair (fun _ => rfl) rfl]
    exact reads_pair h '=' '=' .equal .assign
  · rw [Lexeme.ofChars_pair (fun _ => rfl) rfl]
    exact reads_pair h '=' '!' .notEqual .bang
  · exact reads_string h
  · next hequals hbang hquote =>
    have hsymbol : Lexeme.symbol c cs = _ :=
      Lexeme.symbol_of_single fun hc => absurd hc (not_or.mpr ⟨hequals, hbang⟩)
    cases hs : Symbol.ofChar? c with
    | some symbol =>
      obtain ⟨-, hd, hn, -⟩ := Symbol.class_of_ofChar? hs
      rw [Lexeme.ofChars_of_other hd hn hquote, hsymbol, hs]
      exact reads_single h (.symbol symbol) symbol.text c
    | none =>
      cases hd : c.isDigit with
      | true =>
        rw [Lexeme.ofChars_of_digit hd]
        exact reads_run h _ Char.isDigit c
      | false =>
        cases hn : Token.isNameChar c with
        | true =>
          rw [Lexeme.ofChars_of_nameChar hn]
          exact reads_run h Token.wordKind Token.isNameChar c
        | false =>
          rw [Lexeme.ofChars_of_other hd hn hquote, hsymbol, hs]
          exact reads_single h .illegal (String.singleton c) c

end

/-- From the same place the scanner reads the same token as the lexer, up to the same place. -/
theorem nextToken_eq {s : Scanner} {l : Lexer} (h : s.Stands l) :
    s.nextToken.1 = l.nextToken.1 ∧ s.nextToken.2.Stands l.nextToken.2 := by
  obtain ⟨-, hbehind⟩ := nextWhile_eq h Token.isBlank
  have hskip : (s.nextWhile Token.isBlank).2.Stands l.skipBlanks := hbehind
  have hstop : l.skipBlanks.stop = l.stop :=
    Lexer.stop_drop (List.takeWhile_sublist _).length_le
  rw [nextToken, Lexer.nextToken, Lexer.next?]
  generalize l.skipBlanks = skipped at hskip hstop
  obtain ⟨rest, o⟩ := skipped
  cases rest with
  | nil =>
    have hend : o = l.stop := hstop
    simp only [next_of_nil hskip, hskip.count, hend]
    exact ⟨rfl, hend ▸ hskip⟩
  | cons c cs =>
    simp only [next_of_cons hskip]
    exact reads_token (Stands.of_zipIdx cs (o + 1) o) c

theorem collect_eq {s : Scanner} {l : Lexer} (h : s.Stands l) {n : Nat} (hn : l.rest.length < n) :
    s.collect n = some (l.tokens ++ [.endOfInput l.stop]) := by
  induction n generalizing s l with
  | zero => cases hn
  | succ n ih =>
    obtain ⟨htoken, hbehind⟩ := nextToken_eq h
    rw [collect]
    simp only [htoken]
    rcases l.rest_cases with hb | ⟨blanks, k, literal, text, behind, hl, hb, ht⟩
    · have hnone : l.next? = none := Lexer.next?_of_blanks hb
      rw [Lexer.nextToken, hnone, Lexer.tokens_of_none hnone]
      rfl
    · have hsome := Lexer.next?_of_spells hl hb ht
      have hshorter : behind.length < n :=
        Nat.lt_of_lt_of_le (Lexer.length_rest_next? hsome) (Nat.le_of_lt_succ hn)
      rw [Lexer.nextToken, hsome, Option.getD_some] at hbehind
      rw [Lexer.nextToken, hsome, Option.getD_some, if_neg ht.kind_ne_endOfInput,
        ih hbehind hshorter, Lexer.tokens_of_some hsome, Lexer.stop_next? hsome]
      rfl

/-- The tokens of a text are those that a scanner comes to. -/
theorem collect_ofString (source : String) {n : Nat} (hn : source.length < n) :
    (ofString source).collect n = some (Token.tokenize source) :=
  collect_eq (stands_ofString source) hn

end Scanner

end Monkey
