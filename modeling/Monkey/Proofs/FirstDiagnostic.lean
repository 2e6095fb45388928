import Monkey.Proofs.DiagnosticOrder
import Monkey.Proofs.Foresight
import Monkey.Proofs.Reprint
import Monkey.Proofs.WrittenTokens

/-!
The first diagnostic of a text stands at the exact point of failure. No text goes on from the blamed
token to a program, and each is blamed there for the same reason; but some text goes on from what
stands before it to a program.
-/

namespace Monkey

/-- Statements in another place are statements. -/
theorem Grammar.Statements.exists_move {ts : List Token} {ss : List Stmt}
    (h : Grammar.Statements ts ss) (σ : Span → Span) :
    ∃ ss', Grammar.Statements (ts.map (Token.move σ)) ss' := by
  have hmove := Reading.ofTokens_move σ .sample ts
  rw [h.reads_text] at hmove
  exact ⟨_, Grammar.ofTokens_sound (congrArg Reading.diagnostics hmove)⟩

/-- The first `n` tokens of both texts are the same one by one, apart from their places. -/
def SameTokensBelow (n : Nat) (a b : String) : Prop :=
  ((Token.tokenize a).take n).map Token.spelling = ((Token.tokenize b).take n).map Token.spelling

/-- What begins a program is the beginning of the tokens of a text that is read as one. -/
theorem exists_parse_of_viable {source : String} {us behind : List Token}
    (hts : (Lexer.ofString source).tokens = us ++ behind)
    (hus : Viable (Grammar.Sequence (· = [])) us) :
    ∃ other p, Program.parse other = .ok p ∧ SameTokensBelow us.length source other := by
  obtain ⟨ws, hws, zs, _, ss, hzs, rfl, hss⟩ := hus
  obtain rfl : us ++ ws = zs := by rw [hzs, List.append_nil]
  have hspelled : ∀ t ∈ us ++ ws, t.IsSpelled := by
    have hall := (Lexer.scans_tokens (Lexer.ofString source)).isSpelled
    rw [hts] at hall
    intro t ht
    rcases List.mem_append.mp ht with ht | ht
    · exact hall t (List.mem_append_left _ ht)
    · exact hws t ht
  obtain ⟨ss', hss'⟩ := hss.exists_move Span.erase
  have hlexed : lexed (Token.spaced (us ++ ws)).toList = (us ++ ws).map (Token.move Span.erase) :=
    Token.lexed_spaced hspelled
  rw [← hlexed] at hss'
  obtain ⟨p, hp, -⟩ := Program.exists_parse_of_lexed hss'
  have hother : (Lexer.ofString (Token.spaced (us ++ ws))).tokens.map Token.spelling =
      us.map Token.spelling ++ ws.map Token.spelling := by
    rw [← Token.map_spelling_move Span.erase, ← List.map_append,
      ← Token.map_spelling_move Span.erase (us ++ ws), ← hlexed]
    rfl
  refine ⟨Token.spaced (us ++ ws), p, hp, ?_⟩
  rw [SameTokensBelow, Token.tokenize, Token.tokenize, hts, List.map_take, List.map_take,
    List.map_append, List.map_append, List.map_append, hother]
  simp

/-- The place of the token of the first list that has the index of a place in the second, or the
place `last` if there is none. -/
def Span.follow (tokens others : List Token) (last s : Span) : Span :=
  (tokens[s.index others]?).elim last Token.span

/-- Tokens that are the same apart from their places are the same once they have followed. -/
theorem map_move_follow {us vs left right : List Token} {last : Span}
    (hnodup : ((vs ++ right).map Token.span).Nodup)
    (hsame : vs.map Token.spelling = us.map Token.spelling) :
    vs.map (Token.move (Span.follow (us ++ left) (vs ++ right) last)) = us := by
  have hlength : vs.length = us.length := by simpa using congrArg List.length hsame
  refine List.ext_getElem (by simpa using hlength) fun i hi hi' => ?_
  have hiv : i < vs.length := by simpa using hi
  have hv : (vs ++ right)[i]? = some vs[i] := by
    rw [List.getElem?_append_left hiv, List.getElem?_eq_getElem hiv]
  have hu : (us ++ left)[i]? = some us[i] := by
    rw [List.getElem?_append_left hi', List.getElem?_eq_getElem hi']
  have hspelling : vs[i].spelling = us[i].spelling := by
    have hi := congrArg (fun ss => ss[i]?) hsame
    simpa [hiv, hi'] using hi
  have hspan : Span.follow (us ++ left) (vs ++ right) last vs[i].span = us[i].span := by
    rw [Span.follow, Span.index_eq hnodup hv, hu]
    rfl
  rw [List.getElem_map, Token.move, hspan]
  obtain ⟨hkind, hliteral⟩ := Prod.mk.inj hspelling
  rw [hkind, hliteral]

theorem tokenize_eq {source : String} {us left : List Token} {t : Token}
    (h : (Lexer.ofString source).tokens = us ++ t :: left) :
    Token.tokenize source =
      us ++ [t] ++ (left ++ [.endOfInput (Lexer.ofString source).stop]) := by
  rw [Token.tokenize, h, List.append_assoc, List.append_assoc]
  rfl

/-- A text that begins with the same tokens, up to one that is not the end of input, has them in
front of its own end of input. -/
theorem SameTokensBelow.exists_tokens {source other : String} {us left : List Token} {t : Token}
    (h : SameTokensBelow (us.length + 1) source other)
    (hts : (Lexer.ofString source).tokens = us ++ t :: left) :
    ∃ vs u right, (Lexer.ofString other).tokens = vs ++ u :: right ∧
      (vs ++ [u]).map Token.spelling = (us ++ [t]).map Token.spelling := by
  have hmem : t ∈ (Lexer.ofString source).tokens := hts ▸ by simp
  have ht : t.kind ≠ .endOfInput := Lexer.kind_ne_of_mem_tokens hmem
  have htake : (Token.tokenize source).take (us.length + 1) = us ++ [t] := by
    rw [tokenize_eq hts, List.take_left' (by simp)]
  rw [SameTokensBelow, htake, List.map_append] at h
  obtain ⟨vs, us', hread, hvs, hus'⟩ := List.map_eq_append_iff.mp h.symm
  obtain ⟨u, rfl, hu⟩ := List.map_eq_singleton_iff.mp hus'
  have hother : (Lexer.ofString other).tokens ++ [.endOfInput (Lexer.ofString other).stop] =
      vs ++ u :: (Token.tokenize other).drop (us.length + 1) := by
    rw [List.append_cons vs, ← hread, List.take_append_drop]
    rfl
  rcases List.eq_nil_or_concat ((Token.tokenize other).drop (us.length + 1)) with hnil | hsome
  · -- The token would be the end of input.
    rw [hnil, ← List.nil_append [Token.endOfInput _]] at hother
    obtain ⟨-, heq⟩ := List.append_inj' hother rfl
    obtain ⟨rfl, -⟩ := List.cons.inj heq
    exact absurd (congrArg Prod.fst hu).symm ht
  · obtain ⟨right, last, hright⟩ := hsome
    rw [hright, List.concat_eq_append, ← List.cons_append, ← List.append_assoc] at hother
    refine ⟨vs, u, right, (List.append_inj' hother rfl).1, ?_⟩
    rw [List.map_append, List.map_append, hvs]
    simp [hu]

theorem Program.parse_eq_error_iff {source : String} {ds : List Diagnostic} :
    parse source = .error ds ↔ (Reading.ofSource source).diagnostics = ds ∧ ds ≠ [] := by
  rw [parse]
  cases hds : (Reading.ofSource source).diagnostics with
  | nil => simp [eq_comm]
  | cons d rest =>
    constructor
    · intro h
      exact ⟨Except.error.inj h, by rw [← Except.error.inj h]; exact List.cons_ne_nil _ _⟩
    · rintro ⟨rfl, -⟩
      rfl

/-- Where the first diagnostic stands at a token, every text that begins with the same tokens up to
this one has the same first diagnostic there. -/
theorem exists_first_of_sameTokensBelow {source other : String} {us left : List Token} {t : Token}
    {d : Diagnostic} {ds : List Diagnostic}
    (hts : (Lexer.ofString source).tokens = us ++ t :: left)
    (hds : (Reading.ofSource source).diagnostics = d :: ds) (hspan : d.span = t.span)
    (h : SameTokensBelow (us.length + 1) source other) :
    ∃ e es u, (Reading.ofSource other).diagnostics = e :: es ∧ e.value = d.value ∧
      (Token.tokenize other)[us.length]? = some u ∧ e.span = u.span := by
  obtain ⟨vs, u, right, hother, hsame⟩ := h.exists_tokens hts
  have hsource := tokenize_eq hts
  have hsource' := tokenize_eq hother
  have hnodup := nodup_spans source
  have hnodup' := nodup_spans other
  have hthere : (Token.tokenize source)[us.length]? = some t := by rw [hsource]; simp
  have hbehind : ∀ v ∈ left ++ [.endOfInput (Lexer.ofString source).stop], v.span ≠ t.span := by
    rw [hsource, List.append_assoc, List.map_append, List.nodup_append] at hnodup
    intro v hv heq
    exact (List.nodup_cons.mp hnodup.2.1).1 (heq ▸ List.mem_map_of_mem hv)
  -- The tokens of the other text take the places of those of the first, one by one.
  obtain ⟨σ, hσ⟩ : ∃ σ, σ = Span.follow (Token.tokenize source) (Token.tokenize other)
      (.empty (Lexer.ofString source).stop) := ⟨_, rfl⟩
  have hmove : (vs ++ [u]).map (Token.move σ) = us ++ [t] := by
    rw [hσ, hsource, hsource']
    exact map_move_follow (hsource' ▸ hnodup') hsame
  have hmoved : us ++ t :: right.map (Token.move σ) =
      (Lexer.ofString other).tokens.map (Token.move σ) := by
    rw [hother, List.append_cons us, ← hmove, ← List.map_append, List.append_assoc]
    rfl
  rw [Reading.ofSource, hts] at hds
  obtain ⟨es, hes⟩ := Reading.first_of_ofTokens
    ((Token.endOfInput (Lexer.ofString other).stop).move σ) (right.map (Token.move σ))
    hbehind hds hspan
  rw [hmoved, Reading.ofTokens_move] at hes
  obtain ⟨e, es', hread, he, -⟩ := List.map_eq_cons_iff.mp hes
  have hmem : e ∈ (Reading.ofSource other).diagnostics := by
    rw [Reading.ofSource, hread]
    exact List.mem_cons_self
  obtain ⟨w, hw, hdescribes⟩ := Reading.describes_of_mem hmem
  have hplace : σ e.span = t.span := by rw [← hspan, ← he]; rfl
  have hindex : e.span.index (Token.tokenize other) = us.length := by
    rw [hσ, Span.follow] at hplace
    cases hv : (Token.tokenize source)[e.span.index (Token.tokenize other)]? with
    | none =>
      rw [hv] at hplace
      exact absurd hplace (hbehind (.endOfInput (Lexer.ofString source).stop) (by simp))
    | some v =>
      rw [hv] at hplace
      have hplace' : v.span = t.span := hplace
      rw [← Span.index_eq hnodup hv, hplace', Span.index_eq hnodup hthere]
  rw [hindex] at hw
  exact ⟨e, es', w, hread, he ▸ rfl, hw, hdescribes.1⟩

/-- If a text cannot be read, its first diagnostic stands at a token, or at the end of input. If it
is a token, then every text that begins with the same tokens up to this one cannot be read either,
and its first diagnostic complains about the same and stands at the token with the same index. And
in front of it nothing is wrong: some text that begins with the same tokens up to the one before can
be read. -/
theorem first_diagnostic {source : String} {ds : List Diagnostic}
    (h : Program.parse source = .error ds) :
    ∃ d rest i t, ds = d :: rest ∧ (Token.tokenize source)[i]? = some t ∧ d.span = t.span ∧
      (t.kind ≠ .endOfInput → ∀ other, SameTokensBelow (i + 1) source other →
        ∃ e later u, Program.parse other = .error (e :: later) ∧ e.value = d.value ∧
          (Token.tokenize other)[i]? = some u ∧ e.span = u.span) ∧
      ∃ other p, Program.parse other = .ok p ∧ SameTokensBelow i source other := by
  obtain ⟨hds, hne⟩ := Program.parse_eq_error_iff.mp h
  obtain ⟨d, rest, rfl⟩ := List.exists_cons_of_ne_nil hne
  obtain ⟨us, behind, hts, hdescribes, hviable⟩ := Grammar.ofTokens_breaks _ hds
  have htokens : Token.tokenize source =
      us ++ (behind ++ [.endOfInput (Lexer.ofString source).stop]) := by
    rw [Token.tokenize, hts, List.append_assoc]
  refine ⟨d, rest, us.length, _, rfl, getElem?_headD htokens, hdescribes.1,
    fun hkind other hsame => ?_, exists_parse_of_viable hts hviable⟩
  cases behind with
  | nil => exact absurd rfl hkind
  | cons t left =>
    obtain ⟨e, es, u, hes, hvalue, hu, hspan⟩ :=
      exists_first_of_sameTokensBelow hts hds hdescribes.1 hsame
    have hother : Program.parse other = .error (e :: es) :=
      Program.parse_eq_error_iff.mpr ⟨hes, List.cons_ne_nil _ _⟩
    exact ⟨e, es, u, hother, hvalue, hu, hspan⟩

/-- Behind `let x` there is an equals sign wanting, whatever stands behind the number. -/
theorem first_diagnostic_let :
    Program.parse "let x 5;" = .error [⟨.unexpected (.symbol .assign) .integer, ⟨6, 7⟩⟩] ∧
    (∀ other, SameTokensBelow 3 "let x 5;" other →
      ∃ e later u, Program.parse other = .error (e :: later) ∧
        e.value = .unexpected (.symbol .assign) .integer ∧
        (Token.tokenize other)[2]? = some u ∧ e.span = u.span) ∧
    ∃ other p, Program.parse other = .ok p ∧ SameTokensBelow 2 "let x 5;" other := by
  have hparse : Program.parse "let x 5;" =
      .error [⟨.unexpected (.symbol .assign) .integer, ⟨6, 7⟩⟩] :=
    Program.parse_eq_error_iff.mpr ⟨by decide +kernel, List.cons_ne_nil _ _⟩
  obtain ⟨d, rest, i, t, hds, ht, hspan, hfails, hreads⟩ := first_diagnostic hparse
  obtain ⟨rfl, -⟩ := List.cons.inj hds
  have hi : t.span.index (Token.tokenize "let x 5;") = i :=
    Span.index_eq (nodup_spans "let x 5;") ht
  rw [← hspan, show (⟨6, 7⟩ : Span).index (Token.tokenize "let x 5;") = 2 by decide +kernel] at hi
  subst hi
  have hkind : (Token.tokenize "let x 5;")[2]?.map Token.kind = some .integer := by decide +kernel
  rw [ht] at hkind
  have hnumber : t.kind ≠ .endOfInput := by
    rw [Option.some.inj hkind]
    exact Token.Kind.noConfusion
  exact ⟨hparse, hfails hnumber, hreads⟩

end Monkey
