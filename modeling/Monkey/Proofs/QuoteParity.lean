import Monkey.Proofs.Relocation
import Monkey.Proofs.Tokenization

/-!
Where a text may be cut. A quote opens a string or closes it, for there are no escapes, so the number
of quotes tells whether a text ends inside a string. If it is even, no token reaches over blanks
behind the text, and what stands behind the blanks is lexed as if it stood alone. If it is odd, the
last token is a string that is open still.
-/

namespace Monkey

/-- A span that is so many characters further on. -/
def Span.shift (n : Nat) (s : Span) : Span := ⟨s.start + n, s.stop + n⟩

theorem Token.endOfInput_shift (n position : Nat) :
    (Token.endOfInput position).move (Span.shift n) = .endOfInput (position + n) := rfl

/-- The literal, which a string has between quotes. -/
def Token.Kind.written : Token.Kind → String → String
  | .string, literal => "\"" ++ literal ++ "\""
  | _, literal => literal

namespace Token.Kind

theorem written_of_ne {k : Token.Kind} (hk : k ≠ .string) (literal : String) :
    k.written literal = literal := by
  cases k with
  | string => exact absurd rfl hk
  | _ => rfl

theorem toList_written_string (literal : String) :
    (written .string literal).toList = '"' :: (literal.toList ++ ['"']) := by
  simp [written]

end Token.Kind

/-- Here the text ends, or a blank stands. -/
def AtBlank (cs : List Char) : Prop := ∀ c ∈ cs.head?, Token.isBlank c = true

theorem atBlank_nil : AtBlank [] := nofun

theorem atBlank_cons {c : Char} (hc : Token.isBlank c = true) (cs : List Char) :
    AtBlank (c :: cs) := by
  rintro d ⟨⟩
  exact hc

/-- No character of a class that has all blanks outside stands here. -/
theorem AtBlank.head?_eq_false {cs : List Char} (h : AtBlank cs) {p : Char → Bool}
    (hp : [' ', '\t', '\r', '\n'].all (fun b => !p b) = true) : ∀ c ∈ cs.head?, p c = false := by
  intro c hc
  cases hpc : p c with
  | false => rfl
  | true =>
    have hblank := Token.isBlank_eq_false hpc hp
    rw [h c hc] at hblank
    cases hblank

section Spells

variable {k : Token.Kind} {literal : String} {text behind : List Char}

/-- In its own writing every token is spelled where a blank follows. -/
theorem Spells.written (h : Spells k literal text behind) {rest : List Char} (hrest : AtBlank rest) :
    Spells k literal (k.written literal).toList rest := by
  have hdigit : ∀ c ∈ rest.head?, c.isDigit = false := hrest.head?_eq_false (by decide)
  have hname : ∀ c ∈ rest.head?, Token.isNameChar c = false := hrest.head?_eq_false (by decide)
  have hequals : rest.head? ≠ some '=' := fun heq => by cases hrest '=' heq
  cases h with
  | integer hne hds hb =>
    rw [Token.Kind.written_of_ne (by decide), String.toList_ofList]
    exact .integer hne hds hdigit
  | name hne hcs hb hk =>
    rw [Token.Kind.written_of_ne (by decide), String.toList_ofList]
    exact .name hne hcs hname hk
  | keyword w hb => exact .keyword w hname
  | closed hq | unclosed hq =>
    rw [Token.Kind.toList_written_string, String.toList_ofList]
    exact .closed hq
  | equal => exact .equal
  | notEqual => exact .notEqual
  | symbol hs hb =>
    rw [Token.Kind.written_of_ne (by simp), String.toList_ofList]
    exact .symbol hs fun _ => hequals
  | illegal hc =>
    rw [Token.Kind.written_of_ne (by decide), String.toList_ofList]
    exact .illegal hc

/-- What is spelled in front of more text does not depend on how that text ends. -/
theorem Spells.append (h : Spells k literal text behind) (hne : behind ≠ []) (more : List Char) :
    Spells k literal text (behind ++ more) := by
  have hhead : (behind ++ more).head? = behind.head? := by
    rw [List.head?_append, List.head?_eq_some_head hne]
    rfl
  cases h with
  | integer hds hdigits hb => exact .integer hds hdigits (hhead ▸ hb)
  | name hcs hname hb hk => exact .name hcs hname (hhead ▸ hb) hk
  | keyword k hb => exact .keyword k (hhead ▸ hb)
  | closed hq => exact .closed hq
  | unclosed hq => exact absurd rfl hne
  | equal => exact .equal
  | notEqual => exact .notEqual
  | symbol hs hb => exact .symbol hs (hhead ▸ hb)
  | illegal hc => exact .illegal hc

/-- Only a string that is not closed is spelled in another way than it is written by itself. -/
theorem Spells.eq_written_or_open (h : Spells k literal text behind) :
    text = (k.written literal).toList ∨
      k = .string ∧ text = '"' :: literal.toList ∧ '"' ∉ literal.toList ∧ behind = [] := by
  cases h with
  | integer | name =>
    rw [Token.Kind.written_of_ne (by decide), String.toList_ofList]
    exact .inl rfl
  | closed hq =>
    rw [Token.Kind.toList_written_string, String.toList_ofList]
    exact .inl rfl
  | unclosed hq =>
    rw [String.toList_ofList]
    exact .inr ⟨rfl, rfl, hq, rfl⟩
  | symbol | illegal =>
    rw [Token.Kind.written_of_ne (by simp), String.toList_ofList]
    exact .inl rfl
  | keyword | equal | notEqual => exact .inl rfl

/-- In its own writing a token has two quotes or none. -/
theorem Spells.count_written (h : Spells k literal text behind) :
    (k.written literal).toList.count '"' = if k = .string then 2 else 0 := by
  have hnone : ∀ {cs : List Char}, '"' ∉ cs → (String.ofList cs).toList.count '"' = 0 := by
    intro cs hcs
    rw [String.toList_ofList]
    exact List.count_eq_zero_of_not_mem hcs
  cases h with
  | integer hne hds hb =>
    exact hnone fun hq => absurd (hds _ hq) (by decide)
  | name hne hcs hb hk => exact hnone fun hq => absurd (hcs _ hq) (by decide)
  | keyword w hb => cases w <;> decide
  | closed hq | unclosed hq =>
    rw [Token.Kind.toList_written_string, String.toList_ofList]
    simp [List.count_eq_zero_of_not_mem hq]
  | equal | notEqual => decide
  | symbol hs hb =>
    obtain ⟨-, -, -, hq⟩ := Symbol.class_of_ofChar? hs
    exact hnone (by simpa using Ne.symm hq)
  | illegal hc =>
    obtain ⟨-, -, -, hq, -⟩ := hc
    exact hnone (by simpa using Ne.symm hq)

end Spells

namespace Scans

variable {o : Nat} {cs blanks ds : List Char} {ts us : List Token}

theorem shift (h : Scans o cs ts) (n : Nat) :
    Scans (o + n) cs (ts.map (Token.move (Span.shift n))) := by
  induction h with
  | nil hb => exact .nil hb
  | @cons o blanks text behind k literal ts hb ht _ ih =>
    have hoffset : o + blanks.length + text.length + n = o + n + blanks.length + text.length := by
      omega
    have hstart : o + blanks.length + n = o + n + blanks.length := by omega
    rw [hoffset] at ih
    have hcons := Scans.cons hb ht ih
    rw [← hoffset, ← hstart] at hcons
    exact hcons

theorem skip (h : Scans (o + blanks.length) cs ts)
    (hb : ∀ c ∈ blanks, Token.isBlank c = true) : Scans o (blanks ++ cs) ts := by
  cases h with
  | nil hblanks =>
    exact .nil fun c hc => (List.mem_append.mp hc).elim (hb c) (hblanks c)
  | @cons _ blanks' text behind k literal ts hblanks ht h =>
    have hall : ∀ c ∈ blanks ++ blanks', Token.isBlank c = true :=
      fun c hc => (List.mem_append.mp hc).elim (hb c) (hblanks c)
    have hlength : o + blanks.length + blanks'.length = o + (blanks ++ blanks').length := by
      rw [List.length_append, Nat.add_assoc]
    rw [hlength] at h ⊢
    rw [← List.append_assoc]
    exact .cons hall ht h

theorem count_blanks (hb : ∀ c ∈ blanks, Token.isBlank c = true) : blanks.count '"' = 0 :=
  List.count_eq_zero_of_not_mem fun hq => absurd (hb _ hq) (by decide)

/-- Behind an even number of quotes, and blanks, another text is scanned as if it stood alone. -/
theorem append_blanks (h : Scans o cs ts) (heven : cs.count '"' % 2 = 0) (hne : blanks ≠ [])
    (hb : ∀ c ∈ blanks, Token.isBlank c = true) (hds : Scans (o + cs.length + blanks.length) ds us) :
    Scans o (cs ++ (blanks ++ ds)) (ts ++ us) := by
  induction h with
  | nil hb' => exact (hds.skip hb).skip hb'
  | @cons o blanks' text behind k literal ts hb' ht h ih =>
    have hoffset : o + (blanks' ++ (text ++ behind)).length =
        o + blanks'.length + text.length + behind.length := by
      simp only [List.length_append]
      omega
    have hassoc : blanks' ++ (text ++ behind) ++ (blanks ++ ds) =
        blanks' ++ (text ++ (behind ++ (blanks ++ ds))) := by
      simp only [List.append_assoc]
    rw [hoffset] at hds
    rw [hassoc]
    rw [List.count_append, List.count_append, count_blanks hb', Nat.zero_add] at heven
    rcases ht.eq_written_or_open with rfl | ⟨rfl, rfl, hq, rfl⟩
    · have heven' : behind.count '"' % 2 = 0 := by
        rw [ht.count_written] at heven
        split at heven <;> omega
      refine .cons hb' ?_ (ih heven' hds)
      by_cases hbehind : behind = []
      · -- What ended the token was the end of the text, and is now the first of the blanks.
        obtain ⟨c, cs, rfl⟩ := List.exists_cons_of_ne_nil hne
        subst hbehind
        exact ht.written (atBlank_cons (hb c List.mem_cons_self) _)
      · exact ht.append hbehind _
    · rw [List.count_cons_self, List.count_eq_zero_of_not_mem hq] at heven
      cases heven

/-- With an odd number of quotes the last token is a string to the end of the text. -/
theorem exists_open (h : Scans o cs ts) (hodd : cs.count '"' % 2 = 1) :
    ∃ literal before,
      ts.getLast? = some ⟨.string, literal, o + before.length, o + cs.length⟩ ∧
      cs = before ++ '"' :: literal.toList ∧ '"' ∉ literal.toList := by
  induction h with
  | nil hb' =>
    rw [count_blanks hb'] at hodd
    cases hodd
  | @cons o blanks' text behind k literal ts hb' ht h ih =>
    rw [List.count_append, List.count_append, count_blanks hb', Nat.zero_add] at hodd
    rcases ht.eq_written_or_open with rfl | ⟨rfl, rfl, hq, rfl⟩
    · have hodd' : behind.count '"' % 2 = 1 := by
        rw [ht.count_written] at hodd
        split at hodd <;> omega
      obtain ⟨literal', before, hlast, rfl, hq⟩ := ih hodd'
      refine ⟨literal', blanks' ++ ((k.written literal).toList ++ before), ?_, ?_, hq⟩
      · rw [List.getLast?_cons, hlast, Option.getD_some]
        simp only [List.length_append, Nat.add_assoc]
      · simp only [List.append_assoc]
    · have hts : ts = [] := h.tokens_eq.symm.trans (Lexer.tokens_of_none rfl)
      subst hts
      refine ⟨literal, blanks', ?_, ?_, hq⟩
      · rw [List.getLast?_singleton]
        simp only [List.length_append, List.length_nil, Nat.add_zero, Nat.add_assoc]
      · rw [List.append_nil]

end Scans

/-- The last token of the text is a string that runs to the end, with no quote to close it. -/
def EndsOpen (source : String) : Prop :=
  ∃ t, (Token.tokenize source).dropLast.getLast? = some t ∧ t.kind = .string ∧
    t.span.stop = source.length ∧ t.span.slice source.toList = '"' :: t.literal.toList ∧
    '"' ∉ t.literal.toList

theorem endsOpen_of_odd {source : String} (hodd : source.toList.count '"' % 2 = 1) :
    EndsOpen source := by
  have hscans : Scans 0 source.toList (Lexer.ofString source).tokens :=
    Lexer.scans_tokens (Lexer.ofString source)
  obtain ⟨literal, before, hlast, htext, hq⟩ := hscans.exists_open hodd
  rw [Nat.zero_add, Nat.zero_add] at hlast
  refine ⟨⟨.string, literal, before.length, source.toList.length⟩, ?_, rfl, String.length_toList,
    ?_, hq⟩
  · rw [Token.tokenize, List.dropLast_concat, hlast]
  · have hbehind : source.toList.length - before.length = ('"' :: literal.toList).length := by
      rw [htext, List.length_append, Nat.add_sub_cancel_left]
    rw [Span.slice, hbehind, htext, List.drop_left, List.take_length]

/-- A text is scanned in the same way wherever it stands. -/
theorem Lexer.scans_shift (source : String) (n : Nat) :
    Scans n source.toList ((ofString source).tokens.map (Token.move (Span.shift n))) := by
  have hshift := (scans_tokens (ofString source)).shift n
  rw [ofString, Nat.zero_add] at hshift
  exact hshift

/-- The end of two texts is that of the second in its new place. -/
theorem Token.endOfInput_append (a b : String) :
    Token.endOfInput (Lexer.ofString (a ++ b)).stop =
      (Token.endOfInput (Lexer.ofString b).stop).move (Span.shift a.length) := by
  rw [Token.endOfInput_shift, Lexer.stop_ofString, Lexer.stop_ofString, String.length_append,
    Nat.add_comm]

section

variable {a w : String} (hne : w ≠ "") (hw : ∀ c ∈ w.toList, Token.isBlank c = true)

include hne hw

theorem tokens_append_blanks (heven : a.toList.count '"' % 2 = 0) (b : String) :
    (Lexer.ofString (a ++ w ++ b)).tokens = (Lexer.ofString a).tokens ++
      (Lexer.ofString b).tokens.map (Token.move (Span.shift (a ++ w).length)) := by
  have hlist : w.toList ≠ [] := fun h => hne (String.toList_eq_nil_iff.mp h)
  have ha : Scans 0 a.toList (Lexer.ofString a).tokens := Lexer.scans_tokens (Lexer.ofString a)
  have hb : Scans (0 + a.toList.length + w.toList.length) b.toList
      ((Lexer.ofString b).tokens.map (Token.move (Span.shift (a ++ w).length))) := by
    rw [Nat.zero_add, String.length_toList, String.length_toList, ← String.length_append]
    exact Lexer.scans_shift b (a ++ w).length
  have htext : (a ++ w ++ b).toList = a.toList ++ (w.toList ++ b.toList) := by simp
  rw [Lexer.ofString, htext]
  exact (ha.append_blanks heven hlist hw hb).tokens_eq

/-- The text is cut at the blanks if its quotes are even; if they are odd, a string is open there. -/
theorem Token.tokenize_append_blanks (b : String) :
    (a.toList.count '"' % 2 = 0 → tokenize (a ++ w ++ b) =
      (tokenize a).dropLast ++ (tokenize b).map (Token.move (Span.shift (a ++ w).length))) ∧
    (a.toList.count '"' % 2 = 1 → EndsOpen a) := by
  refine ⟨fun heven => ?_, endsOpen_of_odd⟩
  rw [tokenize, tokenize, tokenize, tokens_append_blanks hne hw heven b,
    Token.endOfInput_append (a ++ w) b, List.dropLast_concat, List.map_append, List.map_singleton, List.append_assoc]

end

/-- An equals sign stays one before a blank, and behind a quote the blank is in a string. -/
theorem Token.tokenize_append_blanks_equals :
    tokenize ("\"\"=" ++ "\n" ++ "= \"x") =
      (tokenize "\"\"=").dropLast ++ (tokenize "= \"x").map (Token.move (Span.shift 4)) ∧
    EndsOpen "= \"x" := by
  have hfeed : ∀ c ∈ "\n".toList, isBlank c = true := by simp [isBlank]
  exact ⟨(@tokenize_append_blanks "\"\"=" "\n" (by decide) hfeed "= \"x").1 (by decide),
    (@tokenize_append_blanks "= \"x" "\n" (by decide) hfeed "").2 (by decide)⟩

end Monkey
