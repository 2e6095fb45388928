import Monkey.Token.Lexer

/-!
What the tokens of a text are, said without a lexer: where they stand, which characters they cover
and which they leave out, and how far each of them reaches. A text has just one list of tokens of
this kind, and it is the one that the lexer finds.
-/

namespace Monkey

namespace Token

/-- A character that is a token by itself, though no symbol. -/
def IsStray (c : Char) : Prop :=
  isBlank c = false ∧ c.isDigit = false ∧ isNameChar c = false ∧ c ≠ '"' ∧ Symbol.ofChar? c = none

theorem isBlank_iff {c : Char} : isBlank c = true ↔ c = ' ' ∨ c = '\t' ∨ c = '\r' ∨ c = '\n' := by
  simp [isBlank, or_assoc]

/-- A character outside a class that has all blanks outside is no blank. -/
theorem isBlank_eq_false {p : Char → Bool} {c : Char} (hc : p c = true)
    (hp : [' ', '\t', '\r', '\n'].all (fun b => !p b) = true) : isBlank c = false := by
  cases hb : isBlank c with
  | false => rfl
  | true =>
    have hmem : c ∈ [' ', '\t', '\r', '\n'] := by simpa using isBlank_iff.mp hb
    have := List.all_eq_true.mp hp c hmem
    simp [hc] at this

end Token

namespace Symbol

/-- The characters of symbols are in no other class. -/
theorem class_of_ofChar? {c : Char} {s : Symbol} (h : ofChar? c = some s) :
    Token.isBlank c = false ∧ c.isDigit = false ∧ Token.isNameChar c = false ∧ c ≠ '"' := by
  unfold ofChar? at h
  split at h
  case h_18 => cases h
  all_goals decide

end Symbol

theorem Token.isDigit_eq_false_of_isNameChar {c : Char} (h : isNameChar c = true) :
    c.isDigit = false := by
  cases hd : c.isDigit with
  | false => rfl
  | true =>
    have hdigit : (decide (48 ≤ c.val) && decide (c.val ≤ 57)) = true := hd
    have hname : (decide (65 ≤ c.val ∧ c.val ≤ 90) ||
      (decide (97 ≤ c.val) && decide (c.val ≤ 122)) || c == '_') = true := h
    simp only [Bool.and_eq_true, Bool.or_eq_true, decide_eq_true_eq, beq_iff_eq,
      UInt32.le_iff_toNat_le, UInt32.reduceToNat] at hdigit hname
    rcases hname with (hupper | hlower) | rfl
    · omega
    · omega
    · exact absurd hd (by decide)

/-- The characters of a text in a span. -/
def Span.slice (s : Span) (cs : List Char) : List Char := (cs.drop s.start).take (s.stop - s.start)

/-- One token of a kind with a literal: the characters that it covers, and those behind it. -/
inductive Spells : Token.Kind → String → List Char → List Char → Prop
  | integer {ds behind : List Char} (hne : ds ≠ []) (hds : ∀ c ∈ ds, c.isDigit = true)
      (hb : ∀ c ∈ behind.head?, c.isDigit = false) :
      Spells .integer (String.ofList ds) ds behind
  | name {cs behind : List Char} (hne : cs ≠ []) (hcs : ∀ c ∈ cs, Token.isNameChar c = true)
      (hb : ∀ c ∈ behind.head?, Token.isNameChar c = false)
      (hk : ∀ k : Keyword, k.text ≠ String.ofList cs) :
      Spells .ident (String.ofList cs) cs behind
  | keyword (k : Keyword) {behind : List Char}
      (hb : ∀ c ∈ behind.head?, Token.isNameChar c = false) :
      Spells (.keyword k) k.text k.text.toList behind
  | closed {body behind : List Char} (hq : '"' ∉ body) :
      Spells .string (String.ofList body) ('"' :: (body ++ ['"'])) behind
  | unclosed {body : List Char} (hq : '"' ∉ body) :
      Spells .string (String.ofList body) ('"' :: body) []
  | equal {behind : List Char} : Spells (.symbol .equal) "==" ['=', '='] behind
  | notEqual {behind : List Char} : Spells (.symbol .notEqual) "!=" ['!', '='] behind
  | symbol {c : Char} {s : Symbol} {behind : List Char} (hs : Symbol.ofChar? c = some s)
      (hb : c = '=' ∨ c = '!' → behind.head? ≠ some '=') :
      Spells (.symbol s) (String.ofList [c]) [c] behind
  | illegal {c : Char} {behind : List Char} (hc : Token.IsStray c) :
      Spells .illegal (String.ofList [c]) [c] behind

namespace Lexeme

variable {p : Char → Bool} {c : Char} {cs rest : List Char}

/-- A run of characters of a class ends where the next one is outside the class. -/
theorem takeWhile_append_run (hcs : ∀ c ∈ cs, p c = true) (hrest : ∀ c ∈ rest.head?, p c = false) :
    (cs ++ rest).takeWhile p = cs := by
  rw [List.takeWhile_append_of_pos hcs]
  cases rest with
  | nil => simp
  | cons d rest => simp [hrest d rfl]

theorem mem_takeWhile {d : Char} (h : d ∈ cs.takeWhile p) : p d = true :=
  List.all_eq_true.mp List.all_takeWhile d h

/-- Behind the longest run of a class stands nothing, or a character outside the class. -/
theorem head?_dropWhile (p : Char → Bool) (cs : List Char) :
    ∀ c ∈ (cs.dropWhile p).head?, p c = false := by
  intro c hc
  have h := List.head?_dropWhile_not p cs
  rw [hc] at h
  exact h

theorem ofChars_of_digit (hc : c.isDigit = true) :
    ofChars c rest = run (fun _ => .integer) Char.isDigit c rest := by
  have hq : (c == '"') = false := by
    rw [beq_eq_false_iff_ne]
    rintro rfl
    cases hc
  simp [ofChars, hq, hc]

theorem ofChars_of_nameChar (hc : Token.isNameChar c = true) :
    ofChars c rest = run Token.wordKind Token.isNameChar c rest := by
  have hq : (c == '"') = false := by
    rw [beq_eq_false_iff_ne]
    rintro rfl
    cases hc
  simp [ofChars, hq, hc, Token.isDigit_eq_false_of_isNameChar hc]

/-- A string runs up to the next quote, or to the end where there is none. -/
theorem takeWhile_body (hq : '"' ∉ cs) (hrest : ∀ c ∈ rest.head?, c = '"') :
    (cs ++ rest).takeWhile (· != '"') = cs := by
  have hcs : ∀ c ∈ cs, (c != '"') = true := by
    intro c hc
    rw [bne_iff_ne]
    rintro rfl
    exact hq hc
  refine takeWhile_append_run hcs fun c hc => ?_
  rw [hrest c hc]
  rfl

theorem ofChars_of_other (hd : c.isDigit = false) (hn : Token.isNameChar c = false) (hq : c ≠ '"') :
    ofChars c rest = symbol c rest := by
  simp [ofChars, hd, hn, hq]

/-- A character that begins no symbol of two characters stands by itself. -/
theorem symbol_of_single (h : c = '=' ∨ c = '!' → rest.head? ≠ some '=') :
    symbol c rest = match Symbol.ofChar? c with
      | some s => ⟨.symbol s, s.text, 1⟩
      | none => ⟨.illegal, String.singleton c, 1⟩ := by
  unfold symbol
  split
  · exact absurd rfl (h (.inl rfl))
  · exact absurd rfl (h (.inr rfl))
  · rfl

end Lexeme

theorem Token.wordKind_text (k : Keyword) : wordKind k.text = .keyword k := by
  simp [wordKind]

theorem Token.wordKind_of_ne {word : String} (h : ∀ k : Keyword, k.text ≠ word) :
    wordKind word = .ident := by
  unfold wordKind
  split
  · next k hk => exact absurd (Keyword.ofText?_eq_some_iff.mp hk) (h k)
  · rfl

theorem Keyword.isNameChar_of_mem (k : Keyword) :
    ∀ c ∈ k.text.toList, Token.isNameChar c = true := by
  have hall : k.text.toList.all Token.isNameChar = true := by cases k <;> decide
  exact List.all_eq_true.mp hall

namespace Spells

open Lexeme

variable {k : Token.Kind} {literal : String} {text behind : List Char}

theorem kind_ne_endOfInput (h : Spells k literal text behind) : k ≠ .endOfInput := by
  cases h <;> exact Token.Kind.noConfusion

theorem of_word {c : Char} {cs : List Char} (hcs : ∀ d ∈ c :: cs, Token.isNameChar d = true)
    (hb : ∀ d ∈ behind.head?, Token.isNameChar d = false) :
    ofChars c (cs ++ behind) =
      ⟨Token.wordKind (String.ofList (c :: cs)), String.ofList (c :: cs), (c :: cs).length⟩ := by
  obtain ⟨hc, hcs⟩ := List.forall_mem_cons.mp hcs
  rw [ofChars_of_nameChar hc, run, takeWhile_append_run hcs hb]

/-- The lexer reads just the characters that are spelled, and makes of them what they spell. -/
theorem ofChars_eq (h : Spells k literal text behind) : ∃ c rest, text ++ behind = c :: rest ∧
    Token.isBlank c = false ∧ ofChars c rest = ⟨k, literal, text.length⟩ := by
  cases h with
  | integer hne hds hb =>
    obtain ⟨d, ds, rfl⟩ := List.exists_cons_of_ne_nil hne
    obtain ⟨hd, hds⟩ := List.forall_mem_cons.mp hds
    refine ⟨d, ds ++ behind, rfl, Token.isBlank_eq_false hd (by decide), ?_⟩
    rw [ofChars_of_digit hd, run, takeWhile_append_run hds hb]
  | name hne hcs hb hk =>
    obtain ⟨c, cs, rfl⟩ := List.exists_cons_of_ne_nil hne
    have hc := hcs c List.mem_cons_self
    refine ⟨c, cs ++ behind, rfl, Token.isBlank_eq_false hc (by decide), ?_⟩
    rw [of_word hcs hb, Token.wordKind_of_ne hk]
  | keyword k hb =>
    have hcs := k.isNameChar_of_mem
    have hne : k.text.toList ≠ [] := by cases k <;> decide
    obtain ⟨c, cs, hk⟩ := List.exists_cons_of_ne_nil hne
    rw [hk] at hcs ⊢
    have hc := hcs c List.mem_cons_self
    refine ⟨c, cs ++ behind, rfl, Token.isBlank_eq_false hc (by decide), ?_⟩
    rw [of_word hcs hb, ← hk, String.ofList_toList, Token.wordKind_text]
  | @closed body _ hq =>
    refine ⟨'"', body ++ ('"' :: behind), by simp, by decide, ?_⟩
    show Lexeme.string _ = _
    simp only [Lexeme.string]
    rw [takeWhile_body hq (by simp)]
    simp
  | @unclosed body hq =>
    refine ⟨'"', body ++ [], by simp, by decide, ?_⟩
    show Lexeme.string _ = _
    simp only [Lexeme.string]
    rw [takeWhile_body hq (by simp)]
    simp
  | equal => exact ⟨'=', '=' :: behind, rfl, by decide, rfl⟩
  | notEqual => exact ⟨'!', '=' :: behind, rfl, by decide, rfl⟩
  | @symbol c s _ hs hb =>
    obtain ⟨hblank, hd, hn, hq⟩ := Symbol.class_of_ofChar? hs
    refine ⟨c, behind, rfl, hblank, ?_⟩
    rw [ofChars_of_other hd hn hq, symbol_of_single hb]
    simp only [hs, Symbol.text_of_ofChar? hs, String.singleton_eq_ofList, List.length_singleton]
  | @illegal c _ hc =>
    obtain ⟨hblank, hd, hn, hq, hs⟩ := hc
    refine ⟨c, behind, rfl, hblank, ?_⟩
    have hsingle : c = '=' ∨ c = '!' → behind.head? ≠ some '=' := by
      rintro (rfl | rfl) <;> cases hs
    rw [ofChars_of_other hd hn hq, symbol_of_single hsingle]
    simp only [hs, String.singleton_eq_ofList, List.length_singleton]

theorem text_ne_nil (h : Spells k literal text behind) : text ≠ [] := by
  cases h with
  | integer hne | name hne => exact hne
  | keyword k => cases k <;> decide
  | _ => exact List.cons_ne_nil _ _

end Spells

section

open Lexeme

theorem exists_spells_string (rest : List Char) :
    ∃ literal text behind, '"' :: rest = text ++ behind ∧ Spells .string literal text behind := by
  have hbody : '"' ∉ rest.takeWhile (· != '"') := by
    intro h
    simpa using mem_takeWhile h
  have hsplit : rest = rest.takeWhile (· != '"') ++ rest.dropWhile (· != '"') :=
    List.takeWhile_append_dropWhile.symm
  cases hrest : rest.dropWhile (· != '"') with
  | nil =>
    rw [hrest, List.append_nil] at hsplit
    exact ⟨_, '"' :: rest, [], by rw [List.append_nil], .unclosed (hsplit ▸ hbody)⟩
  | cons d behind =>
    have hd : d = '"' := by simpa [hrest] using head?_dropWhile (· != '"') rest
    rw [hrest, hd] at hsplit
    exact ⟨_, _, behind, by simpa using hsplit, .closed hbody⟩

theorem exists_spells_word {c : Char} (rest : List Char) (hc : Token.isNameChar c = true) :
    ∃ k literal text behind, c :: rest = text ++ behind ∧ Spells k literal text behind := by
  have hword : ∀ d ∈ c :: rest.takeWhile Token.isNameChar, Token.isNameChar d = true :=
    List.forall_mem_cons.mpr ⟨hc, fun d => mem_takeWhile⟩
  have hsplit : c :: rest =
      c :: rest.takeWhile Token.isNameChar ++ rest.dropWhile Token.isNameChar := by
    rw [List.cons_append, List.takeWhile_append_dropWhile]
  by_cases hk : ∃ k : Keyword, k.text = String.ofList (c :: rest.takeWhile Token.isNameChar)
  · obtain ⟨k, hk⟩ := hk
    refine ⟨_, _, k.text.toList, _, ?_, .keyword k (head?_dropWhile _ rest)⟩
    rw [hk, String.toList_ofList]
    exact hsplit
  · refine ⟨_, _, _, _, hsplit, .name (List.cons_ne_nil _ _) hword (head?_dropWhile _ _) ?_⟩
    exact fun k heq => hk ⟨k, heq⟩

/-- At every character that is no blank something is spelled. -/
theorem exists_spells {c : Char} (rest : List Char) (hc : Token.isBlank c = false) :
    ∃ k literal text behind, c :: rest = text ++ behind ∧ Spells k literal text behind := by
  by_cases hq : c = '"'
  · obtain ⟨literal, text, behind, heq, h⟩ := exists_spells_string rest
    exact ⟨_, literal, text, behind, hq ▸ heq, h⟩
  by_cases hd : c.isDigit = true
  · refine ⟨_, _, c :: rest.takeWhile Char.isDigit, rest.dropWhile Char.isDigit, ?_,
      .integer (List.cons_ne_nil _ _) ?_ (head?_dropWhile _ _)⟩
    · rw [List.cons_append, List.takeWhile_append_dropWhile]
    · exact List.forall_mem_cons.mpr ⟨hd, fun d => mem_takeWhile⟩
  by_cases hn : Token.isNameChar c = true
  · exact exists_spells_word rest hn
  · rw [Bool.not_eq_true] at hd hn
    by_cases hpair : (c = '=' ∨ c = '!') ∧ rest.head? = some '='
    · obtain ⟨hc, hrest⟩ := hpair
      obtain ⟨behind, rfl⟩ := List.head?_eq_some_iff.mp hrest
      rcases hc with rfl | rfl
      · exact ⟨_, _, _, behind, rfl, .equal⟩
      · exact ⟨_, _, _, behind, rfl, .notEqual⟩
    · cases hs : Symbol.ofChar? c with
      | some s => exact ⟨_, _, [c], rest, rfl, .symbol hs fun hc hrest => hpair ⟨hc, hrest⟩⟩
      | none => exact ⟨_, _, [c], rest, rfl, .illegal ⟨hc, hd, hn, hq, hs⟩⟩

end

/-- Tokens that follow one another from an offset on, each behind blanks and in front of all that is
left of the text; behind the last there are only blanks. -/
inductive Scans : Nat → List Char → List Token → Prop
  | nil {o : Nat} {blanks : List Char} (hb : ∀ c ∈ blanks, Token.isBlank c = true) :
      Scans o blanks []
  | cons {o : Nat} {blanks text behind : List Char} {k : Token.Kind} {literal : String}
      {ts : List Token} (hb : ∀ c ∈ blanks, Token.isBlank c = true)
      (ht : Spells k literal text behind)
      (h : Scans (o + blanks.length + text.length) behind ts) :
      Scans o (blanks ++ (text ++ behind))
        (⟨k, literal, o + blanks.length, o + blanks.length + text.length⟩ :: ts)

namespace Lexer

open Lexeme

variable {o : Nat} {blanks text behind : List Char} {k : Token.Kind} {literal : String}

theorem skipBlanks_append (hb : ∀ c ∈ blanks, Token.isBlank c = true)
    (ht : ∀ c ∈ text.head?, Token.isBlank c = false) :
    (⟨blanks ++ text, o⟩ : Lexer).skipBlanks = ⟨text, o + blanks.length⟩ := by
  simp only [skipBlanks, drop, takeWhile_append_run hb ht, List.drop_left]

theorem next?_of_spells {l : Lexer} (hl : l.rest = blanks ++ (text ++ behind))
    (hb : ∀ c ∈ blanks, Token.isBlank c = true) (ht : Spells k literal text behind) :
    l.next? =
      some (⟨k, literal, l.offset + blanks.length, l.offset + blanks.length + text.length⟩,
        ⟨behind, l.offset + blanks.length + text.length⟩) := by
  obtain ⟨rest, o⟩ := l
  simp only at hl
  subst hl
  obtain ⟨c, rest, heq, hc, hlexeme⟩ := ht.ofChars_eq
  have hskip : (⟨blanks ++ (text ++ behind), o⟩ : Lexer).skipBlanks =
      ⟨text ++ behind, o + blanks.length⟩ :=
    skipBlanks_append hb (by rw [heq]; simpa using hc)
  have hdrop : (c :: rest).drop text.length = behind := by
    rw [← heq]
    exact List.drop_left
  rw [next?, hskip, heq]
  simp only [hlexeme, Lexeme.place, drop, hdrop]

theorem next?_of_blanks {l : Lexer} (hb : ∀ c ∈ l.rest, Token.isBlank c = true) :
    l.next? = none := by
  have hskip : (⟨l.rest ++ [], l.offset⟩ : Lexer).skipBlanks =
      ⟨[], l.offset + l.rest.length⟩ := skipBlanks_append hb (by simp)
  rw [List.append_nil] at hskip
  rw [next?, hskip]

/-- A lexer stands before blanks alone, or before blanks and a token. -/
theorem rest_cases (l : Lexer) : (∀ c ∈ l.rest, Token.isBlank c = true) ∨
    ∃ blanks k literal text behind, l.rest = blanks ++ (text ++ behind) ∧
      (∀ c ∈ blanks, Token.isBlank c = true) ∧ Spells k literal text behind := by
  have hb : ∀ c ∈ l.rest.takeWhile Token.isBlank, Token.isBlank c = true := fun c => mem_takeWhile
  have hsplit : l.rest = l.rest.takeWhile Token.isBlank ++ l.rest.dropWhile Token.isBlank :=
    List.takeWhile_append_dropWhile.symm
  cases hrest : l.rest.dropWhile Token.isBlank with
  | nil =>
    rw [hrest, List.append_nil] at hsplit
    exact .inl (hsplit ▸ hb)
  | cons c rest =>
    have hc : Token.isBlank c = false := head?_dropWhile Token.isBlank l.rest c (by rw [hrest]; rfl)
    obtain ⟨k, literal, text, behind, heq, ht⟩ := exists_spells rest hc
    rw [hrest, heq] at hsplit
    exact .inr ⟨_, k, literal, text, behind, hsplit, hb, ht⟩

theorem scans_tokens (l : Lexer) : Scans l.offset l.rest l.tokens := by
  induction hn : l.rest.length using Nat.strongRecOn generalizing l with
  | ind n ih =>
    rcases rest_cases l with hb | ⟨blanks, k, literal, text, behind, hl, hb, ht⟩
    · rw [tokens_of_none (next?_of_blanks hb)]
      exact .nil hb
    · have hlt : behind.length < n := by
        have := List.length_pos_iff.mpr ht.text_ne_nil
        simp only [hl, List.length_append] at hn
        omega
      rw [tokens_of_some (next?_of_spells hl hb ht), hl]
      exact .cons hb ht (ih _ hlt ⟨behind, _⟩ rfl)

end Lexer

theorem Scans.tokens_eq {o : Nat} {cs : List Char} {ts : List Token} (h : Scans o cs ts) :
    (⟨cs, o⟩ : Lexer).tokens = ts := by
  induction h with
  | nil hb => exact Lexer.tokens_of_none (Lexer.next?_of_blanks hb)
  | cons hb ht _ ih => rw [Lexer.tokens_of_some (Lexer.next?_of_spells rfl hb ht), ih]

/-- A text is scanned in one way, the lexer's. -/
theorem scans_iff {o : Nat} {cs : List Char} {ts : List Token} :
    Scans o cs ts ↔ (⟨cs, o⟩ : Lexer).tokens = ts :=
  ⟨Scans.tokens_eq, fun h => h ▸ Lexer.scans_tokens ⟨cs, o⟩⟩

/-- Tokens that lie one behind the other in a text from an offset on, leave out nothing but blanks,
and reach as far as they can. -/
structure Tiles (source : List Char) (offset : Nat) (ts : List Token) : Prop where
  inside : ∀ t ∈ ts, offset ≤ t.span.start ∧ t.span.start < t.span.stop ∧
    t.span.stop ≤ source.length
  ordered : ts.Pairwise fun t u => t.span.stop ≤ u.span.start
  uncovered : ∀ i c, offset ≤ i → source[i]? = some c →
    (∀ t ∈ ts, ¬ (t.span.start ≤ i ∧ i < t.span.stop)) → Token.isBlank c = true
  spelled : ∀ t ∈ ts, Spells t.kind t.literal (t.span.slice source) (source.drop t.span.stop)

theorem Scans.tiles {o : Nat} {before cs : List Char} {ts : List Token} (h : Scans o cs ts)
    (ho : before.length = o) : Tiles (before ++ cs) o ts := by
  induction h generalizing before with
  | @nil o blanks hb =>
    refine ⟨nofun, .nil, ?_, nofun⟩
    intro i c hi hc _
    rw [List.getElem?_append_right (by omega)] at hc
    exact hb c (List.mem_of_getElem? hc)
  | @cons o blanks text behind k literal ts hb ht _ ih =>
    have htext : 0 < text.length := List.length_pos_iff.mpr ht.text_ne_nil
    have hlength : (before ++ blanks ++ text).length = o + blanks.length + text.length := by
      simp only [List.length_append]
      omega
    have hsource : before ++ (blanks ++ (text ++ behind)) = before ++ blanks ++ text ++ behind := by
      simp only [List.append_assoc]
    have hstart : (before ++ blanks).length = o + blanks.length := by
      simp only [List.length_append]
      omega
    obtain ⟨hinside, hordered, huncovered, hspelled⟩ := ih hlength
    rw [hsource]
    refine ⟨?_, ?_, ?_, ?_⟩
    · refine List.forall_mem_cons.mpr ⟨?_, ?_⟩
      · simp only [List.length_append]
        omega
      · intro u hu
        have := hinside u hu
        omega
    · exact .cons (fun u hu => (hinside u hu).1) hordered
    · intro i c hi hc hno
      obtain ⟨hno, hnone⟩ := List.forall_mem_cons.mp hno
      simp only [not_and, Nat.not_lt] at hno
      by_cases hlt : i < o + blanks.length
      · rw [List.append_assoc, List.getElem?_append_left (by omega),
          List.getElem?_append_right (by omega)] at hc
        exact hb c (List.mem_of_getElem? hc)
      · exact huncovered i c (hno (by omega)) hc hnone
    · refine List.forall_mem_cons.mpr ⟨?_, hspelled⟩
      have hslice : (⟨o + blanks.length, o + blanks.length + text.length⟩ : Span).slice
          (before ++ blanks ++ text ++ behind) = text := by
        rw [Span.slice, List.append_assoc, List.drop_left' hstart, List.take_left' (by simp)]
      have hbehind : (before ++ blanks ++ text ++ behind).drop (o + blanks.length + text.length) =
          behind := List.drop_left' hlength
      simp only [hslice, hbehind]
      exact ht

/-- Behind an offset stand the characters up to a span, those of the span, and the others. -/
theorem Span.drop_eq_append {source : List Char} {offset : Nat} {s : Span} (ho : offset ≤ s.start)
    (hs : s.start ≤ s.stop) : source.drop offset =
      (source.drop offset).take (s.start - offset) ++ (s.slice source ++ source.drop s.stop) := by
  have hbehind : (source.drop s.start).drop (s.stop - s.start) = source.drop s.stop := by
    rw [List.drop_drop, Nat.add_sub_cancel' hs]
  have hslice : source.drop s.start = s.slice source ++ source.drop s.stop := by
    rw [← hbehind, Span.slice, List.take_append_drop]
  have hskip : (source.drop offset).drop (s.start - offset) = source.drop s.start := by
    rw [List.drop_drop, Nat.add_sub_cancel' ho]
  rw [← hslice, ← hskip, List.take_append_drop]

theorem Tiles.scans {source : List Char} {offset : Nat} {ts : List Token}
    (h : Tiles source offset ts) : Scans offset (source.drop offset) ts := by
  induction ts generalizing offset with
  | nil =>
    refine .nil fun c hc => ?_
    obtain ⟨i, hi⟩ := List.mem_iff_getElem?.mp hc
    rw [List.getElem?_drop] at hi
    exact h.uncovered (offset + i) c (Nat.le_add_right _ _) hi nofun
  | cons t ts ih =>
    obtain ⟨k, literal, s⟩ := t
    obtain ⟨hoffset, hne, hstop⟩ := h.inside _ List.mem_cons_self
    obtain ⟨hbehind, hordered⟩ := List.pairwise_cons.mp h.ordered
    simp only at hoffset hne hstop hbehind
    have hblanks : ∀ c ∈ (source.drop offset).take (s.start - offset), Token.isBlank c = true := by
      intro c hc
      obtain ⟨i, hi⟩ := List.mem_iff_getElem?.mp hc
      have hlt : i < s.start - offset := by
        obtain ⟨hlt, -⟩ := List.getElem?_eq_some_iff.mp hi
        rw [List.length_take] at hlt
        omega
      rw [List.getElem?_take_of_lt hlt, List.getElem?_drop] at hi
      refine h.uncovered (offset + i) c (Nat.le_add_right _ _) hi ?_
      refine List.forall_mem_cons.mpr ⟨?_, ?_⟩
      · simp only
        omega
      · intro u hu
        have := hbehind u hu
        omega
    have hlater : Tiles source s.stop ts := by
      refine ⟨?_, hordered, ?_, fun u hu => h.spelled u (List.mem_cons_of_mem _ hu)⟩
      · intro u hu
        exact ⟨hbehind u hu, (h.inside u (List.mem_cons_of_mem _ hu)).2⟩
      · intro i c hi hc hno
        refine h.uncovered i c (by omega) hc (List.forall_mem_cons.mpr ⟨?_, hno⟩)
        simp only
        omega
    have hblank : offset + ((source.drop offset).take (s.start - offset)).length = s.start := by
      rw [List.length_take, List.length_drop]
      omega
    have hslice : s.start + (s.slice source).length = s.stop := by
      rw [Span.slice, List.length_take, List.length_drop]
      omega
    have hscans : Scans (offset + ((source.drop offset).take (s.start - offset)).length +
        (s.slice source).length) (source.drop s.stop) ts := by
      rw [hblank, hslice]
      exact ih hlater
    have ht := Scans.cons hblanks (h.spelled _ List.mem_cons_self) hscans
    simp only [hblank, hslice] at ht
    rw [Span.drop_eq_append hoffset (Nat.le_of_lt hne)]
    exact ht

/-- The tokens of a text: those that tile it, and behind them the end of input. -/
def IsTokenization (source : String) (ts : List Token) : Prop :=
  ∃ us, ts = us ++ [⟨.endOfInput, "", source.length, source.length⟩] ∧ Tiles source.toList 0 us

theorem tiles_iff {source : List Char} {ts : List Token} :
    Tiles source 0 ts ↔ (⟨source, 0⟩ : Lexer).tokens = ts := by
  rw [← scans_iff]
  exact ⟨Tiles.scans, fun h => h.tiles List.length_nil⟩

namespace Lexer

theorem stop_ofString (source : String) : (ofString source).stop = source.length := by
  simp only [stop, ofString, Nat.zero_add, String.length_toList]

/-- The end of the text stays where it is while tokens are read. -/
theorem stop_next? {l l' : Lexer} {t : Token} (h : l.next? = some (t, l')) : l'.stop = l.stop := by
  rcases rest_cases l with hb | ⟨blanks, k, literal, text, behind, hl, hb, ht⟩
  · rw [next?_of_blanks hb] at h
    cases h
  · rw [next?_of_spells hl hb ht] at h
    obtain ⟨-, rfl⟩ := Prod.mk.inj (Option.some.inj h)
    simp only [stop, hl, List.length_append]
    omega

/-- What can be asked of a lexer: the next token, be it the end of input, or the next token before
the end of input. -/
inductive Request where
  | token | item
  deriving DecidableEq, Repr

/-- The answer to a request where only blanks are left. -/
def Request.atEnd (stop : Nat) : Request → Option Token
  | token => some (.endOfInput stop)
  | item => none

/-- Answers a request and moves on behind the token. -/
def answer (l : Lexer) (r : Request) : Option Token × Lexer :=
  let (t, l) := l.nextToken
  match r with
  | .token => (some t, l)
  | .item => (if t.kind = .endOfInput then none else some t, l)

def answers (l : Lexer) : List Request → List (Option Token)
  | [] => []
  | r :: rs => (l.answer r).1 :: (l.answer r).2.answers rs

theorem answer_of_none {l : Lexer} (h : l.next? = none) (r : Request) :
    l.answer r = (r.atEnd l.stop, ⟨[], l.stop⟩) := by
  cases r <;> simp [answer, nextToken, h, Request.atEnd, Token.endOfInput]

theorem answer_of_some {l l' : Lexer} {t : Token} (h : l.next? = some (t, l'))
    (ht : t.kind ≠ .endOfInput) (r : Request) : l.answer r = (some t, l') := by
  cases r <;> simp [answer, nextToken, h, ht]

/-- The answers run through the tokens and stay at the end of input behind the last. -/
theorem getElem?_answers (l : Lexer) (rs : List Request) (i : Nat) :
    (l.answers rs)[i]? = rs[i]?.map fun r => l.tokens[i]?.or (r.atEnd l.stop) := by
  induction rs generalizing l i with
  | nil => rfl
  | cons r rs ih =>
    rcases rest_cases l with hb | ⟨blanks, k, literal, text, behind, hl, hb, ht⟩
    · have hnone : l.next? = none := next?_of_blanks hb
      have hend : (⟨[], l.stop⟩ : Lexer).tokens = [] := tokens_of_none (next?_of_blanks nofun)
      rw [answers, answer_of_none hnone, tokens_of_none hnone]
      cases i with
      | zero => simp
      | succ i =>
        simp only [List.getElem?_cons_succ, ih, hend]
        rfl
    · have hsome := next?_of_spells hl hb ht
      rw [answers, answer_of_some hsome ht.kind_ne_endOfInput, tokens_of_some hsome]
      cases i with
      | zero => simp
      | succ i => simp only [List.getElem?_cons_succ, ih, stop_next? hsome]

end Lexer

/-- A text has one list of tokens, which is the lexer's; asked for tokens one by one, in whatever
way, the lexer gives these in their order, and the end of input from then on. -/
theorem tokenization_exact (source : String) :
    (∀ ts, IsTokenization source ts ↔ ts = Token.tokenize source) ∧
    (∀ (rs : List Lexer.Request) (i : Nat), ((Lexer.ofString source).answers rs)[i]? =
      rs[i]?.map fun r => (Token.tokenize source).dropLast[i]?.or (r.atEnd source.length)) := by
  have hend : Token.endOfInput (Lexer.ofString source).stop =
      ⟨.endOfInput, "", source.length, source.length⟩ := by
    rw [Lexer.stop_ofString]
    rfl
  constructor
  · intro ts
    rw [Token.tokenize, hend]
    constructor
    · rintro ⟨us, rfl, hus⟩
      rw [← tiles_iff.mp hus]
      rfl
    · rintro rfl
      exact ⟨_, rfl, tiles_iff.mpr rfl⟩
  · intro rs i
    rw [Lexer.getElem?_answers, Lexer.stop_ofString, Token.tokenize, List.dropLast_concat]

example : (Token.tokenize "!==1x \"b").map (fun t => (t.literal, t.span.start, t.span.stop)) =
    [("!=", 0, 2), ("=", 2, 3), ("1", 3, 4), ("x", 4, 5), ("b", 6, 8), ("", 8, 8)] := by
  decide +kernel

end Monkey
