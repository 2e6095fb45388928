import Monkey.Proofs.ParserSoundness
import Monkey.Proofs.QuoteParity
import Monkey.Proofs.RelocatedParse

/-!
Two texts on lines of their own, read as one. Where the first ends with a semicolon, no token
reaches over the seam and no statement either, so the whole is read as the first text followed by
the second in its new place; this holds for a second text of any kind, with all that is wrong with
it.
-/

namespace Monkey

/-- The kind of the last of some tokens. -/
def lastKind (ts : List Token) : Option Token.Kind := ts.getLast?.map Token.kind

theorem lastKind_cons_of_ne {t : Token} {ts : List Token} (h : ts ≠ []) :
    lastKind (t :: ts) = lastKind ts := by
  rw [lastKind, lastKind, List.getLast?_cons, List.getLast?_eq_some_getLast h]
  rfl

theorem lastKind_append_of_ne {ts us : List Token} (h : us ≠ []) :
    lastKind (ts ++ us) = lastKind us := by
  rw [lastKind, lastKind, List.getLast?_append, List.getLast?_eq_some_getLast h]
  rfl

/-- The tokens behind others end as all of them do. -/
theorem lastKind_of_append {ts us : List Token} {k : Token.Kind}
    (h : ts ++ us = [] ∨ lastKind (ts ++ us) = some k) : us = [] ∨ lastKind us = some k := by
  by_cases hus : us = []
  · exact .inl hus
  · rcases h with hnil | hlast
    · exact absurd (List.append_eq_nil_iff.mp hnil).2 hus
    · exact .inr (lastKind_append_of_ne hus ▸ hlast)

/-- Whatever stands before it, a last token is the last. -/
theorem lastKind_concat (ts : List Token) (t : Token) : lastKind (ts ++ [t]) = some t.kind := by
  rw [lastKind, List.getLast?_concat]
  rfl

theorem lastKind_cons_concat (t : Token) (ts : List Token) (u : Token) :
    lastKind (t :: (ts ++ [u])) = some u.kind := lastKind_concat (t :: ts) u

/-- With a semicolon behind all other tokens no string is open. -/
theorem even_of_lastKind {a : String}
    (ha : lastKind (Lexer.ofString a).tokens = some (.symbol .semicolon)) :
    a.toList.count '"' % 2 = 0 := by
  rcases Nat.mod_two_eq_zero_or_one (a.toList.count '"') with heven | hodd
  · exact heven
  · have hscans : Scans 0 a.toList (Lexer.ofString a).tokens := Lexer.scans_tokens (Lexer.ofString a)
    obtain ⟨literal, before, hlast, -, -⟩ := hscans.exists_open hodd
    rw [lastKind, hlast] at ha
    cases ha

/-- The length of a text and a line feed. -/
theorem length_feed (a : String) : (a ++ "\n").length = a.length + 1 :=
  String.length_append a "\n"

theorem tokens_join {a : String} (b : String)
    (ha : lastKind (Lexer.ofString a).tokens = some (.symbol .semicolon)) :
    (Lexer.ofString (a ++ "\n" ++ b)).tokens =
      (Lexer.ofString a).tokens ++
        (Lexer.ofString b).tokens.map (Token.move (Span.shift (a.length + 1))) := by
  have hblank : ∀ c ∈ "\n".toList, Token.isBlank c = true := by simp [Token.isBlank]
  rw [← length_feed]
  exact tokens_append_blanks (by decide) hblank (even_of_lastKind ha) b

/-- The end of both texts is that of the second in its new place. -/
theorem endOfInput_join (a b : String) :
    Token.endOfInput (Lexer.ofString (a ++ "\n" ++ b)).stop =
      (Token.endOfInput (Lexer.ofString b).stop).move (Span.shift (a.length + 1)) := by
  rw [← length_feed]
  exact Token.endOfInput_append (a ++ "\n") b

namespace Grammar

theorem Braces.lastKind_eq {ts : List Token} {b : Block} (h : Braces ts b) :
    lastKind ts = some (.symbol .closeBrace) := by
  cases h with
  | mk ho h hc => rw [lastKind_cons_concat, hc]

theorem Braces.ne_nil {ts : List Token} {b : Block} (h : Braces ts b) : ts ≠ [] := by
  cases h with
  | mk ho h hc => exact List.cons_ne_nil _ _

theorem Expression.ne_nil {l : Level} {ts : List Token} {e : Expr} (h : Expression l ts e) :
    ts ≠ [] := by
  obtain ⟨t, us, rfl, -⟩ := h.head
  exact List.cons_ne_nil t us

/-- No expression ends with a semicolon. -/
theorem Expression.lastKind_ne {l : Level} {ts : List Token} {e : Expr} :
    Expression l ts e → lastKind ts ≠ some (.symbol .semicolon)
  | .next h => h.lastKind_ne
  | .binary _ _ _ hr => by
    rw [lastKind_append_of_ne (List.cons_ne_nil _ _), lastKind_cons_of_ne hr.ne_nil]
    exact hr.lastKind_ne
  | .unary _ _ h => by
    rw [lastKind_cons_of_ne h.ne_nil]
    exact h.lastKind_ne
  | .call _ _ _ hc | .index _ _ _ hc => by
    rw [lastKind_append_of_ne (List.cons_ne_nil _ _), lastKind_cons_concat, hc]
    decide
  | .group _ _ hc | .array _ _ hc | .hash _ _ hc => by
    rw [lastKind_cons_concat, hc]
    decide
  | .name ht | .integer ht _ | .string ht | .true ht | .false ht => by
    simp [lastKind, ht]
  | @Expression.cond t o c cs bs e b _ _ _ _ hb => by
    have hlast : lastKind ((t :: o :: cs ++ [c]) ++ bs) = some (.symbol .closeBrace) :=
      (lastKind_append_of_ne hb.ne_nil).trans hb.lastKind_eq
    simp only [List.cons_append, List.append_assoc, List.nil_append] at hlast
    rw [hlast]
    decide
  | @Expression.condElse t o c w cs bs as e a b _ _ _ _ _ _ ha => by
    have hlast : lastKind ((t :: o :: cs ++ c :: (bs ++ [w])) ++ as) =
        some (.symbol .closeBrace) := (lastKind_append_of_ne ha.ne_nil).trans ha.lastKind_eq
    simp only [List.cons_append, List.append_assoc, List.nil_append] at hlast
    rw [hlast]
    decide
  | @Expression.function t o c ps bs xs b _ _ _ _ hb => by
    have hlast : lastKind ((t :: o :: ps ++ [c]) ++ bs) = some (.symbol .closeBrace) :=
      (lastKind_append_of_ne hb.ne_nil).trans hb.lastKind_eq
    simp only [List.cons_append, List.append_assoc, List.nil_append] at hlast
    rw [hlast]
    decide

theorem Statement.lastKind_ne {ts : List Token} {s : Stmt} (h : Statement ts s) :
    lastKind ts ≠ some (.symbol .semicolon) := by
  cases h with
  | bind ht hx ha h =>
    rw [lastKind_cons_of_ne (List.cons_ne_nil _ _), lastKind_cons_of_ne (List.cons_ne_nil _ _),
      lastKind_cons_of_ne h.ne_nil]
    exact h.lastKind_ne
  | «return» ht h =>
    rw [lastKind_cons_of_ne h.ne_nil]
    exact h.lastKind_ne
  | expr h => exact h.lastKind_ne

/-- From these tokens the statements are read one after another, up to those that are left. -/
inductive Passes (stop : Token) (left : List Token) : List Token → List Stmt → Prop
  | nil : Passes stop left left []
  | cons {t : Token} {ts rest : List Token} {s : Stmt} {ss : List Stmt}
      (h : (Parser.statement stop (t :: ts)).Yields s rest) (hrest : Passes stop left rest ss) :
      Passes stop left (t :: ts) (s :: ss)

/-- Statements that end with a semicolon are read the same before whatever else follows. -/
theorem Statements.passes (stop : Token) {ts : List Token} {ss : List Stmt}
    (h : Statements ts ss) (hlast : ts = [] ∨ lastKind ts = some (.symbol .semicolon))
    (more : List Token) : Passes stop more (ts ++ more) ss := by
  induction ss generalizing ts with
  | nil =>
    cases h
    exact .nil
  | cons s ss ih =>
    cases h with
    | @closed c ts us _ _ h hc hs =>
      have hus : us = [] ∨ lastKind us = some (.symbol .semicolon) := by
        rw [List.append_cons] at hlast
        exact lastKind_of_append hlast
      have hread : (Parser.statement stop (ts ++ c :: (us ++ more))).Yields s (us ++ more) :=
        h.reads.closed hc
      obtain ⟨t, vs, rfl, -⟩ := h.head
      rw [List.append_assoc, List.cons_append]
      exact .cons hread (ih hs hus)
    | @opened ts us _ _ h hu hs =>
      obtain ⟨t, vs, hts, -⟩ := h.head
      cases us with
      | nil =>
        rw [List.append_nil] at hlast
        rcases hlast with hnil | hlast
        · rw [hts] at hnil
          cases hnil
        · exact absurd hlast h.lastKind_ne
      | cons u us =>
        -- Only the first token behind a statement decides whether it stops there.
        have hapart : Apart (u :: us ++ more) :=
          show Apart (u :: us ++ []) from hs.apart hu apart_nil
        have hread : (Parser.statement stop (ts ++ (u :: us ++ more))).Yields s (u :: us ++ more) :=
          h.reads.opened hapart
        rw [List.append_assoc]
        subst hts
        exact .cons hread (ih hs (lastKind_of_append hlast))

theorem Passes.ofTokens_eq {stop : Token} {left ts : List Token} {ss : List Stmt}
    (h : Passes stop left ts ss) : Reading.ofTokens stop ts =
      ⟨⟨ss ++ (Reading.ofTokens stop left).program.statements⟩,
        (Reading.ofTokens stop left).diagnostics⟩ := by
  induction h with
  | nil => rfl
  | cons h _ ih =>
    rw [Reading.ofTokens_of_yields h, ih]
    rfl

end Grammar

/-- A text that ends with a semicolon and is read without complaint, and a text of any kind on the
next line: what is read of both is what is read of each. -/
theorem Reading.ofSource_join {a : String} {p : Program} (hp : Program.parse a = .ok p)
    (ha : lastKind (Lexer.ofString a).tokens = some (.symbol .semicolon)) (b : String) :
    ofSource (a ++ "\n" ++ b) =
      ⟨⟨p.statements ++ ((ofSource b).move (Span.shift (a.length + 1))).program.statements⟩,
        ((ofSource b).move (Span.shift (a.length + 1))).diagnostics⟩ := by
  have hstatements := Grammar.isProgram_tokenize_iff.mp (Grammar.isProgram_of_parse hp)
  have hstop := endOfInput_join a b
  have hread := (hstatements.passes
    (.endOfInput (Lexer.ofString (a ++ "\n" ++ b)).stop) (.inr ha)
    ((Lexer.ofString b).tokens.map (Token.move (Span.shift (a.length + 1))))).ofTokens_eq
  rw [← tokens_join b ha, hstop, Reading.ofTokens_move] at hread
  rw [ofSource, hstop]
  exact hread

theorem Program.parse_join {a b : String} {p q : Program} (hp : parse a = .ok p)
    (ha : lastKind (Lexer.ofString a).tokens = some (.symbol .semicolon)) (hq : parse b = .ok q) :
    parse (a ++ "\n" ++ b) =
      .ok ⟨p.statements ++ (q.move (Span.shift (a.length + 1))).statements⟩ := by
  have hb : Reading.ofSource b = ⟨q, []⟩ :=
    (Grammar.isProgram_tokenize_iff.mp (Grammar.isProgram_of_parse hq)).reads_text
  rw [parse]
  simp only [Reading.ofSource_join hp ha b, hb]
  rfl

end Monkey
