import Monkey.Proofs.Relocation
import Monkey.Proofs.Seam

/-!
Lexing what has been written. The tokens of a text without their places depend on the characters
alone, so a text that is put together from parts is lexed part by part: a mark stands for itself in
front of anything, a word in front of anything that does not belong to a word.
-/

namespace Monkey

/-- A symbol that stands nowhere in particular. -/
def Token.ofSymbol (s : Symbol) : Token := ⟨.symbol s, s.text, .empty 0⟩

/-- The tokens of a text without their places. -/
def lexed (cs : List Char) : List Token :=
  (⟨cs, 0⟩ : Lexer).tokens.map (Token.move Span.erase)

section Lexed

variable {k : Token.Kind} {literal : String} {text behind : List Char}

theorem map_tokens_eq_lexed (cs : List Char) (o : Nat) :
    (⟨cs, o⟩ : Lexer).tokens.map (Token.move Span.erase) = lexed cs := by
  have hshift := ((Lexer.scans_tokens ⟨cs, 0⟩).shift o).tokens_eq
  rw [Nat.zero_add] at hshift
  rw [hshift, List.map_map]
  rfl

@[simp] theorem lexed_nil : lexed [] = [] := by
  rw [lexed, Lexer.tokens_of_none (Lexer.next?_of_blanks (by simp))]
  rfl

theorem lexed_of_spells (h : Spells k literal text behind) :
    lexed (text ++ behind) = ⟨k, literal, .empty 0⟩ :: lexed behind := by
  have hrest : (⟨text ++ behind, 0⟩ : Lexer).rest = [] ++ (text ++ behind) := rfl
  have hnext := Lexer.next?_of_spells hrest (by simp) h
  rw [lexed, Lexer.tokens_of_some hnext, List.map_cons, map_tokens_eq_lexed]
  rfl

theorem lexed_blank (cs : List Char) : lexed (' ' :: cs) = lexed cs := by
  have hscans : Scans 0 ([' '] ++ cs) _ :=
    (Lexer.scans_tokens ⟨cs, 0 + 1⟩).skip (by simp [Token.isBlank])
  have htokens := hscans.tokens_eq
  rw [lexed, ← List.singleton_append, htokens, map_tokens_eq_lexed]

/-- A character that spells a symbol does so in front of anything that does not make the symbol
longer. -/
theorem lexed_char {c : Char} {s : Symbol} (hs : Symbol.ofChar? c = some s)
    (hc : c = '=' ∨ c = '!' → behind.head? ≠ some '=') :
    lexed (c :: behind) = Token.ofSymbol s :: lexed behind := by
  have hlexed := lexed_of_spells (.symbol hs hc)
  rw [← String.singleton_eq_ofList, ← Symbol.text_of_ofChar? hs] at hlexed
  exact hlexed

/-- Punctuation: the character spells the symbol whatever stands behind it. -/
inductive IsMark : Char → Symbol → Prop
  | comma : IsMark ',' .comma
  | semicolon : IsMark ';' .semicolon
  | colon : IsMark ':' .colon
  | openParen : IsMark '(' .openParen
  | closeParen : IsMark ')' .closeParen
  | openBrace : IsMark '\x7b' .openBrace
  | closeBrace : IsMark '\x7d' .closeBrace
  | openBracket : IsMark '[' .openBracket
  | closeBracket : IsMark ']' .closeBracket

theorem IsMark.ofChar?_eq {c : Char} {s : Symbol} (h : IsMark c s) :
    Symbol.ofChar? c = some s := by
  cases h <;> rfl

theorem lexed_mark {c : Char} {s : Symbol} (h : IsMark c s) (cs : List Char) :
    lexed (c :: cs) = Token.ofSymbol s :: lexed cs := by
  refine lexed_char h.ofChar?_eq ?_
  rintro (rfl | rfl) <;> cases h

/-- An operator in front of a blank is lexed as a token of its own. -/
theorem lexed_operator (op : BinaryOp) (cs : List Char) :
    lexed (op.text.toList ++ ' ' :: cs) = Token.ofSymbol op.symbol :: lexed cs := by
  have hblank : (' ' :: cs).head? ≠ some '=' := by simp
  rw [← lexed_blank cs]
  cases op with
  | equal => exact lexed_of_spells .equal
  | notEqual => exact lexed_of_spells .notEqual
  | add => exact lexed_char (c := '+') rfl fun _ => hblank
  | subtract => exact lexed_char (c := '-') rfl fun _ => hblank
  | multiply => exact lexed_char (c := '*') rfl fun _ => hblank
  | divide => exact lexed_char (c := '/') rfl fun _ => hblank
  | less => exact lexed_char (c := '<') rfl fun _ => hblank
  | greater => exact lexed_char (c := '>') rfl fun _ => hblank

theorem lexed_unary (op : UnaryOp) {cs : List Char} (hcs : cs.head? ≠ some '=') :
    lexed (op.text.toList ++ cs) = Token.ofSymbol op.symbol :: lexed cs := by
  cases op with
  | not => exact lexed_char (c := '!') rfl fun _ => hcs
  | negate => exact lexed_char (c := '-') rfl fun _ => hcs

/-- No name, keyword or number goes on here. -/
def Parted (cs : List Char) : Prop :=
  ∀ c ∈ cs.head?, Token.isNameChar c = false ∧ c.isDigit = false

theorem parted_cons {c : Char} {cs : List Char}
    (hc : Token.isNameChar c = false ∧ c.isDigit = false) : Parted (c :: cs) := by
  rintro d ⟨⟩
  exact hc

/-- The text is lexed into the tokens, whatever stands behind it that does not belong to a word. -/
def Lexes (text : String) (us : List Token) : Prop :=
  ∀ ⦃rest⦄, Parted rest → lexed (text.toList ++ rest) = us ++ lexed rest

namespace Lexes

variable {a b : String} {items : List String} {us vs : List Token}

theorem lexed_eq (h : Lexes a us) : lexed a.toList = us := by
  have hend : Parted [] := by simp [Parted]
  have hlexed := h hend
  rwa [List.append_nil, lexed_nil, List.append_nil] at hlexed

theorem mark (h : Lexes a us) {c : Char} {s : Symbol} (hc : IsMark c s) (rest : List Char) :
    lexed (a.toList ++ c :: rest) = us ++ .ofSymbol s :: lexed rest := by
  obtain ⟨-, hdigit, hname, -⟩ := Symbol.class_of_ofChar? hc.ofChar?_eq
  rw [h (parted_cons ⟨hname, hdigit⟩), lexed_mark hc]

theorem blank (h : Lexes a us) (rest : List Char) :
    lexed (a.toList ++ ' ' :: rest) = us ++ lexed rest := by
  rw [h (parted_cons (by decide)), lexed_blank]

theorem listing_cons (h : Lexes a us) (hs : Lexes (listing (b :: items)) vs) :
    Lexes (listing (a :: b :: items)) (us ++ .ofSymbol .comma :: vs) := by
  intro rest hrest
  have htext : (listing (a :: b :: items)).toList ++ rest =
      a.toList ++ ',' :: ' ' :: ((listing (b :: items)).toList ++ rest) := by
    simp [listing, String.intercalate_cons_cons]
  rw [htext, h.mark .comma, lexed_blank, hs hrest]
  simp

theorem listing_single (h : Lexes a us) : Lexes (listing [a]) us := by
  rw [listing, String.intercalate_singleton]
  exact h

theorem pair (h : Lexes a us) (h' : Lexes b vs) :
    Lexes (a ++ ": " ++ b) (us ++ .ofSymbol .colon :: vs) := by
  intro rest hrest
  have htext : (a ++ ": " ++ b).toList ++ rest = a.toList ++ ':' :: ' ' :: (b.toList ++ rest) := by
    simp
  rw [htext, h.mark .colon, lexed_blank, h' hrest]
  simp

/-- A text between two marks. -/
theorem enclosed {o c : Char} {s s' : Symbol} (h : Lexes a us) (ho : IsMark o s) (hc : IsMark c s')
    (htext : b.toList = o :: (a.toList ++ [c])) :
    Lexes b (.ofSymbol s :: (us ++ [.ofSymbol s'])) := by
  intro rest _
  have hlist : b.toList ++ rest = o :: (a.toList ++ c :: rest) := by simp [htext]
  rw [hlist, lexed_mark ho, h.mark hc]
  simp

end Lexes

/-- The token is spelled as in some text. -/
def Token.IsSpelled (t : Token) : Prop := ∃ text behind, Spells t.kind t.literal text behind

theorem Scans.isSpelled {o : Nat} {cs : List Char} {ts : List Token} (h : Scans o cs ts) :
    ∀ t ∈ ts, t.IsSpelled := by
  induction h with
  | nil hb => simp
  | cons hb ht _ ih => exact List.forall_mem_cons.mpr ⟨⟨_, _, ht⟩, ih⟩

theorem Lexer.kind_ne_of_mem_tokens {l : Lexer} {t : Token} (h : t ∈ l.tokens) :
    t.kind ≠ .endOfInput := by
  obtain ⟨text, behind, hspells⟩ := (scans_tokens l).isSpelled t h
  exact hspells.kind_ne_endOfInput

/-- The kinds of names, numbers and keywords. -/
def Token.Kind.isWord : Token.Kind → Bool
  | .ident | .integer | .keyword _ => true
  | .illegal | .endOfInput | .string | .symbol _ => false

theorem Token.IsSpelled.eq_ofSymbol {t : Token} {s : Symbol} (h : t.IsSpelled)
    (ht : t.kind = .symbol s) : t.move Span.erase = Token.ofSymbol s := by
  obtain ⟨text, behind, hspells⟩ := h
  obtain ⟨kind, literal, span⟩ := t
  simp only at ht hspells
  subst ht
  cases hspells with
  | equal => rfl
  | notEqual => rfl
  | symbol hs hb =>
    rw [← String.singleton_eq_ofList, ← Symbol.text_of_ofChar? hs]
    rfl

theorem Token.IsSpelled.literal_eq {t : Token} {w : Keyword} (h : t.IsSpelled)
    (ht : t.kind = .keyword w) : t.literal = w.text := by
  obtain ⟨text, behind, hspells⟩ := h
  obtain ⟨kind, literal, span⟩ := t
  simp only at ht hspells ⊢
  subst ht
  cases hspells
  rfl

/-- A name, a number or a keyword is spelled by its literal. -/
theorem Token.IsSpelled.lexes {t : Token} (h : t.IsSpelled) (ht : t.kind.isWord = true) :
    Lexes t.literal [t.move Span.erase] := by
  intro rest hrest
  obtain ⟨text, behind, hspells⟩ := h
  obtain ⟨kind, literal, span⟩ := t
  simp only at ht hspells ⊢
  refine lexed_of_spells ?_
  cases hspells with
  | integer hne hds hb =>
    rw [String.toList_ofList]
    exact .integer hne hds fun c hc => (hrest c hc).2
  | name hne hcs hb hk =>
    rw [String.toList_ofList]
    exact .name hne hcs (fun c hc => (hrest c hc).1) hk
  | keyword w hb => exact .keyword w fun c hc => (hrest c hc).1
  | _ => cases ht

theorem head?_append_ne {c : Char} {cs : List Char} (hne : cs ≠ []) (h : c ∉ cs)
    (behind : List Char) : (cs ++ behind).head? ≠ some c := by
  obtain ⟨d, cs, rfl⟩ := List.exists_cons_of_ne_nil hne
  rw [List.cons_append, List.head?_cons]
  rintro ⟨⟩
  exact h List.mem_cons_self

/-- A word does not begin with an equals sign. -/
theorem Token.IsSpelled.head?_literal {t : Token} (h : t.IsSpelled) (ht : t.kind.isWord = true)
    (behind : List Char) : (t.literal.toList ++ behind).head? ≠ some '=' := by
  obtain ⟨text, before, hspells⟩ := h
  obtain ⟨kind, literal, span⟩ := t
  simp only at ht hspells ⊢
  cases hspells with
  | integer hne hds hb =>
    rw [String.toList_ofList]
    exact head?_append_ne hne (fun hmem => absurd (hds _ hmem) (by decide)) _
  | name hne hcs hb hk =>
    rw [String.toList_ofList]
    exact head?_append_ne hne (fun hmem => absurd (hcs _ hmem) (by decide)) _
  | keyword w hb => exact head?_append_ne (by cases w <;> decide) (by cases w <;> decide) _
  | _ => cases ht

end Lexed

end Monkey
