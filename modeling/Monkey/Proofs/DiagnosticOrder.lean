import Monkey.Proofs.Blame

/-!
The order of diagnostics. A statement that cannot be read is blamed on one of the tokens that are
left, and reading goes on at that token or behind it; so the next diagnostic stands no further in
front. It stands at the same token only if that was left unread because another was required there,
and then it says that no statement begins with it.
-/

namespace Monkey

/-- The index of the token that has a place. -/
def Span.index (tokens : List Token) (s : Span) : Nat := tokens.findIdx fun t => t.span = s

theorem nodup_spans (source : String) : ((Token.tokenize source).map Token.span).Nodup := by
  have htiles : Tiles source.toList 0 (Lexer.ofString source).tokens := tiles_iff.mpr rfl
  have hinside := htiles.inside
  rw [Token.tokenize, List.map_append, List.nodup_append]
  refine ⟨?_, by simp, ?_⟩
  · refine List.pairwise_map.mpr (htiles.ordered.imp_of_mem fun ht hu hle heq => ?_)
    have hstart := congrArg Span.start heq
    have := hinside _ ht
    omega
  · intro s hs s' hs' heq
    obtain ⟨t, ht, rfl⟩ := List.mem_map.mp hs
    -- The end of input covers nothing, a token always something.
    obtain rfl : s' = Span.empty _ := List.mem_singleton.mp hs'
    have hwidth := (hinside t ht).2.1
    rw [heq] at hwidth
    exact absurd hwidth (Nat.lt_irrefl _)

section Index

variable {tokens before behind : List Token} {stop : Token} {d : Diagnostic}

theorem Span.index_eq {i : Nat} {t : Token} (hnodup : (tokens.map Token.span).Nodup)
    (ht : tokens[i]? = some t) : t.span.index tokens = i := by
  obtain ⟨hi, rfl⟩ := List.getElem?_eq_some_iff.mp ht
  refine (List.findIdx_eq hi).mpr ⟨decide_eq_true rfl, fun j hj => decide_eq_false ?_⟩
  have hne := List.pairwise_iff_getElem.mp hnodup j i (by simp; omega) (by simpa) hj
  simpa using hne

/-- The tokens that are left, with the end of input behind them. -/
theorem append_headD (behind : List Token) (stop : Token) :
    behind ++ [stop] = behind.headD stop :: (behind ++ [stop]).tail := by
  cases behind <;> rfl

theorem getElem?_headD (htokens : tokens = before ++ (behind ++ [stop])) :
    tokens[before.length]? = some (behind.headD stop) := by
  rw [htokens, append_headD]
  simp

theorem Diagnostic.Describes.index_eq (h : d.Describes (behind.headD stop))
    (hnodup : (tokens.map Token.span).Nodup) (htokens : tokens = before ++ (behind ++ [stop])) :
    d.span.index tokens = before.length := by
  rw [h.1]
  exact Span.index_eq hnodup (getElem?_headD htokens)

end Index

/-- The diagnostics arise one after another from the tokens: each blames one of those that are left,
and the next ones arise from those at which reading goes on. A token at which reading stays has
something before it that was read. -/
inductive Arise (stop : Token) : List Token → List Diagnostic → Prop
  | nil {ts : List Token} : Arise stop ts []
  | cons {us behind rest : List Token} {d : Diagnostic} {ds : List Diagnostic}
      (hne : us ++ behind ≠ []) (hd : Blames stop d behind rest)
      (hread : d.value.isUnexpected = true → us ≠ []) (hds : Arise stop rest ds) :
      Arise stop (us ++ behind) (d :: ds)

/-- Reading goes on where it failed, and it stays there only if another token was required. -/
theorem Blames.rest_cases {stop : Token} {d : Diagnostic} {behind rest : List Token}
    (h : Blames stop d behind rest) : (behind = [] ∧ rest = []) ∨
      (behind ≠ [] ∧ ∃ ws, behind = ws ++ rest ∧ (ws = [] → d.value.isUnexpected = true)) := by
  cases h with
  | unexpected =>
    cases behind with
    | nil => exact .inl ⟨rfl, rfl⟩
    | cons t behind => exact .inr ⟨List.cons_ne_nil _ _, [], rfl, fun _ => rfl⟩
  | noOperand =>
    cases behind with
    | nil => exact .inl ⟨rfl, rfl⟩
    | cons t behind => exact .inr ⟨List.cons_ne_nil _ _, [t], rfl, nofun⟩
  | @tooLarge t _ ht => exact .inr ⟨List.cons_ne_nil _ _, [t], rfl, nofun⟩

namespace Arise

variable {stop : Token} {ts : List Token} {ds : List Diagnostic}

theorem behind (us : List Token) (h : Arise stop ts ds) : Arise stop (us ++ ts) ds := by
  cases h with
  | nil => exact .nil
  | cons hne hd hread hds =>
    rw [← List.append_assoc]
    refine .cons ?_ hd ?_ hds
    · simp only [List.append_assoc, ne_eq, List.append_eq_nil_iff] at hne ⊢
      exact fun h => hne h.2
    · exact fun hunexpected h => hread hunexpected (List.append_eq_nil_iff.mp h).2

/-- A diagnostic that complains about a missing token does not stand at the first token. -/
theorem exists_of_mem (h : Arise stop ts ds) {d : Diagnostic} (hmem : d ∈ ds) :
    ts ≠ [] ∧ ∃ us behind, ts = us ++ behind ∧ d.Describes (behind.headD stop) ∧
      (d.value.isUnexpected = true → us ≠ []) := by
  induction h with
  | nil => cases hmem
  | @cons us behind rest e ds hne he hread hds ih =>
    refine ⟨hne, ?_⟩
    rcases List.mem_cons.mp hmem with rfl | hmem
    · exact ⟨us, behind, rfl, he.describes, hread⟩
    · obtain ⟨hrest, vs, left, heq, hd, hvs⟩ := ih hmem
      rcases he.rest_cases with ⟨-, hnil⟩ | ⟨-, ws, rfl, hws⟩
      · exact absurd hnil hrest
      · subst heq
        refine ⟨us ++ ws ++ vs, left, by simp, hd, fun _ hnil => ?_⟩
        obtain ⟨hus, hws', -⟩ : us = [] ∧ ws = [] ∧ vs = [] := by simpa using hnil
        exact hread (hws hws') hus

end Arise

theorem Reading.arise (stop : Token) (ts : List Token) :
    Arise stop ts (Reading.ofTokens stop ts).diagnostics := by
  cases ts with
  | nil =>
    rw [Reading.ofTokens]
    exact .nil
  | cons t rest =>
    have hle := (Parser.statement stop (t :: rest)).length_rest_le
    have hlater := Reading.arise stop (Parser.statement stop (t :: rest)).rest
    cases hs : (Parser.statement stop (t :: rest)).outcome with
    | error d =>
      rw [Reading.ofTokens_of_error hs]
      obtain ⟨us, behind, hts, hblames, -⟩ := Grammar.statement_breaks (t :: rest) hs
      generalize (Parser.statement stop (t :: rest)).rest = left at hle hlater hblames
      rw [hts] at hle ⊢
      refine .cons (hts ▸ List.cons_ne_nil _ _) hblames ?_ hlater
      rintro hunexpected rfl
      cases hblames with
      | unexpected =>
        have hlength := congrArg List.length hts
        simp only [List.nil_append, List.length_cons] at hle hlength
        omega
      | noOperand | tooLarge => cases hunexpected
    | ok s =>
      have hyields : (Parser.statement stop (t :: rest)).Yields s _ := ⟨hs, rfl⟩
      rw [Reading.ofTokens_of_yields hyields]
      obtain ⟨us, behind, hts, -, hbehind⟩ := (Grammar.sound (t :: rest)).statement hyields
      generalize (Parser.statement stop (t :: rest)).rest = left at hlater hbehind
      rw [hts]
      rcases hbehind with ⟨c, -, rfl⟩ | ⟨rfl, -⟩
      · exact (hlater.behind [c]).behind us
      · exact hlater.behind us
termination_by ts.length
decreasing_by all_goals grind

/-- The first of two diagnostics is not about the end of input, and the second stands further on, or
else at the same token, where the first requires another token and the second does not. -/
def Diagnostic.Precedes (tokens : List Token) (d e : Diagnostic) : Prop :=
  d.span.index tokens + 1 < tokens.length ∧ (d.span.index tokens < e.span.index tokens ∨
    (d.span.index tokens = e.span.index tokens ∧ d.value.isUnexpected = true ∧
      e.value.isUnexpected = false))

theorem Arise.pairwise {stop : Token} {tokens before ts : List Token} {ds : List Diagnostic}
    (h : Arise stop ts ds) (hnodup : (tokens.map Token.span).Nodup)
    (htokens : tokens = before ++ (ts ++ [stop])) :
    ds.Pairwise (Diagnostic.Precedes tokens) := by
  induction h generalizing before with
  | nil => exact .nil
  | @cons us behind rest d ds hne hd hread hds ih =>
    have hindex : d.span.index tokens = (before ++ us).length :=
      hd.describes.index_eq hnodup (by simpa using htokens)
    rcases hd.rest_cases with ⟨-, rfl⟩ | ⟨hbehind, ws, rfl, hws⟩
    · have hlast : ∀ e ∈ ds, d.Precedes tokens e := fun e he =>
        absurd rfl (hds.exists_of_mem he).1
      have htokens' : tokens = tokens.dropLast ++ ([] ++ [stop]) := by simp [htokens]
      exact .cons hlast (ih htokens')
    have hrest : tokens = before ++ us ++ ws ++ (rest ++ [stop]) := by simpa using htokens
    refine .cons (fun e he => ⟨?_, ?_⟩) (ih hrest)
    · have hlength := List.length_pos_iff.mpr hbehind
      rw [hindex, hrest]
      simp only [List.length_append, List.length_singleton] at hlength ⊢
      omega
    · obtain ⟨-, vs, left, rfl, hdescribes, hvs⟩ := hds.exists_of_mem he
      have hindex' : e.span.index tokens = (before ++ us ++ ws ++ vs).length :=
        hdescribes.index_eq hnodup (by simpa using hrest)
      rw [hindex, hindex']
      -- Only if nothing lies between them do the two stand at the same token.
      by_cases hnil : ws ++ vs = []
      · obtain ⟨rfl, rfl⟩ := List.append_eq_nil_iff.mp hnil
        exact .inr ⟨by simp, hws rfl, by simpa using hvs⟩
      · have hpos := List.length_pos_iff.mpr hnil
        simp only [List.length_append] at hpos ⊢
        omega

/-- The diagnostics that stand at one token. -/
def Diagnostic.allAt (tokens : List Token) (i : Nat) (ds : List Diagnostic) : List Diagnostic :=
  ds.filter fun d => d.span.index tokens = i

/-- At one token there stand no three diagnostics one behind the other. -/
theorem Diagnostic.allAt_cases {tokens : List Token} {ds : List Diagnostic}
    (h : ds.Pairwise (Diagnostic.Precedes tokens)) (i : Nat) :
    allAt tokens i ds = [] ∨ (∃ d, allAt tokens i ds = [d]) ∨
      ∃ d e, allAt tokens i ds = [d, e] ∧ d.value.isUnexpected = true ∧
        e.value.isUnexpected = false := by
  have hi : ∀ d ∈ allAt tokens i ds, d.span.index tokens = i := fun d hd => by
    simpa using (List.mem_filter.mp hd).2
  have hpairs : (allAt tokens i ds).Pairwise (Diagnostic.Precedes tokens) := h.filter _
  generalize allAt tokens i ds = ds at hi hpairs
  have hsame : ∀ d ∈ ds, ∀ e ∈ ds, d.Precedes tokens e →
      d.value.isUnexpected = true ∧ e.value.isUnexpected = false := by
    rintro d hd e he ⟨-, hlt | ⟨-, hkinds⟩⟩
    · have := hi d hd
      have := hi e he
      omega
    · exact hkinds
  match ds, hpairs with
  | [], _ => exact .inl rfl
  | [d], _ => exact .inr (.inl ⟨d, rfl⟩)
  | [d, e], h =>
    have hde : d.Precedes tokens e := by simpa using h
    exact .inr (.inr ⟨d, e, rfl, hsame d (by simp) e (by simp) hde⟩)
  | d :: e :: f :: ds, h =>
    obtain ⟨hd, he, -⟩ : _ ∧ _ ∧ _ := by simpa only [List.pairwise_cons] using h
    have hde := hsame d (by simp) e (by simp) (hd e (by simp))
    have hef := hsame e (by simp) f (by simp) (he f (by simp))
    rw [hde.2] at hef
    cases hef.1

theorem Reading.arise_ofSource (source : String) :
    Arise (.endOfInput (Lexer.ofString source).stop) (Lexer.ofString source).tokens
      (Reading.ofSource source).diagnostics := Reading.arise _ _

theorem Reading.describes_of_mem {source : String} {d : Diagnostic}
    (h : d ∈ (Reading.ofSource source).diagnostics) :
    ∃ t, (Token.tokenize source)[d.span.index (Token.tokenize source)]? = some t ∧
      d.Describes t := by
  obtain ⟨-, us, behind, hts, hdescribes, -⟩ := (Reading.arise_ofSource source).exists_of_mem h
  have htokens : Token.tokenize source =
      us ++ (behind ++ [.endOfInput (Lexer.ofString source).stop]) := by
    rw [Token.tokenize, hts, List.append_assoc]
  refine ⟨_, ?_, hdescribes⟩
  rw [hdescribes.index_eq (nodup_spans source) htokens]
  exact getElem?_headD htokens

/-- Each diagnostic of a text stands at one of its tokens, which no other has the place of, and says
what that token is. They stand in the order of the tokens. At one token there are two at most, of
which the first requires another token and the second says that nothing begins with this one; and
behind a diagnostic at the end of input there is no other. -/
theorem diagnostics_in_order (source : String) :
    ((Token.tokenize source).map Token.span).Nodup ∧
    (∀ d ∈ (Reading.ofSource source).diagnostics, ∃ t,
      (Token.tokenize source)[d.span.index (Token.tokenize source)]? = some t ∧ d.Describes t) ∧
    (Reading.ofSource source).diagnostics.Pairwise (fun d e =>
      d.span.index (Token.tokenize source) ≤ e.span.index (Token.tokenize source)) ∧
    (∀ i, let ds := Diagnostic.allAt (Token.tokenize source) i (Reading.ofSource source).diagnostics
      ds = [] ∨ (∃ d, ds = [d]) ∨
        ∃ d e, ds = [d, e] ∧ d.value.isUnexpected = true ∧ e.value.isUnexpected = false) ∧
    (∀ before d after, (Reading.ofSource source).diagnostics = before ++ d :: after →
      d.span.index (Token.tokenize source) + 1 = (Token.tokenize source).length → after = []) := by
  have htokens : Token.tokenize source =
      [] ++ ((Lexer.ofString source).tokens ++ [.endOfInput (Lexer.ofString source).stop]) := rfl
  have hordered := (Reading.arise_ofSource source).pairwise (nodup_spans source) htokens
  refine ⟨nodup_spans source, fun d => Reading.describes_of_mem, hordered.imp ?_,
    Diagnostic.allAt_cases hordered, fun before d after hds hlast => ?_⟩
  · rintro d e ⟨-, hlt | ⟨heq, -⟩⟩
    · exact Nat.le_of_lt hlt
    · exact Nat.le_of_eq heq
  · rw [hds, List.pairwise_append] at hordered
    cases after with
    | nil => rfl
    | cons e after =>
      have hde := (List.pairwise_cons.mp hordered.2.1).1 e (by simp)
      exact absurd hlast (Nat.ne_of_lt hde.1)

example : (Reading.ofSource "let )").diagnostics.map
    (fun d => (d.span.index (Token.tokenize "let )"), d.value)) =
      [(1, .unexpected .ident (.symbol .closeParen)), (1, .noOperand (.symbol .closeParen))] := by
  decide +kernel

end Monkey
