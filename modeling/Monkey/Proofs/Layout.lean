import Monkey.Proofs.Series

/-!
Texts that differ in layout only. Where two texts have tokens of the same kinds and literals, one
after another, they are read as the same program in two places with the same complaints, and
running the one does what running the other does: what lies between the tokens, and how far on they
stand, is seen nowhere but in the places that trees, functions and diagnostics keep.
-/

namespace Monkey

/-- What a token is, apart from its place. -/
def Token.spelling (t : Token) : Token.Kind × String := (t.kind, t.literal)

theorem Token.map_spelling_move (σ : Span → Span) (ts : List Token) :
    (ts.map (Token.move σ)).map Token.spelling = ts.map Token.spelling := by
  rw [List.map_map]
  rfl

/-- The tokens of both texts are the same one by one, apart from their places. -/
def SameTokens (a b : String) : Prop :=
  (Token.tokenize a).map Token.spelling = (Token.tokenize b).map Token.spelling

instance (a b : String) : Decidable (SameTokens a b) := inferInstanceAs (Decidable (_ = _))

theorem SameTokens.tokens_erase {a b : String} (h : SameTokens a b) :
    (Lexer.ofString a).tokens.map (Token.move Span.erase) =
      (Lexer.ofString b).tokens.map (Token.move Span.erase) := by
  have hplaced : ∀ ts : List Token, ts.map (Token.move Span.erase) =
      (ts.map Token.spelling).map fun s => ⟨s.1, s.2, Span.empty 0⟩ := by
    intro ts
    rw [List.map_map]
    rfl
  have hspelled := h
  rw [SameTokens, Token.tokenize, Token.tokenize, List.map_append, List.map_append] at hspelled
  rw [hplaced, hplaced, (List.append_inj' hspelled rfl).1]

theorem SameTokens.of_tokens_erase {a b : String}
    (h : (Lexer.ofString a).tokens.map (Token.move Span.erase) =
      (Lexer.ofString b).tokens.map (Token.move Span.erase)) : SameTokens a b := by
  have hspelled := congrArg (List.map Token.spelling) h
  rw [Token.map_spelling_move, Token.map_spelling_move] at hspelled
  rw [SameTokens, Token.tokenize, Token.tokenize, List.map_append, List.map_append, hspelled]
  rfl

/-- Reading does not depend on layout, whatever may be wrong with the texts. -/
theorem SameTokens.reading_erase {a b : String} (h : SameTokens a b) :
    (Reading.ofSource a).move Span.erase = (Reading.ofSource b).move Span.erase := by
  have herased : ∀ source : String, (Reading.ofSource source).move Span.erase =
      Reading.ofTokens ((Token.endOfInput 0).move Span.erase)
        ((Lexer.ofString source).tokens.map (Token.move Span.erase)) := by
    intro source
    rw [Reading.ofSource, ← Reading.ofTokens_move]
    rfl
  rw [herased, herased, h.tokens_erase]

theorem SameTokens.complaints_eq {a b : String} (h : SameTokens a b) :
    (Reading.ofSource a).diagnostics.map Located.value =
      (Reading.ofSource b).diagnostics.map Located.value := by
  have hvalues : ∀ r : Reading, r.diagnostics.map Located.value =
      (r.move Span.erase).diagnostics.map Located.value := by
    intro r
    rw [Reading.move, List.map_map]
    rfl
  rw [hvalues, h.reading_erase, ← hvalues]

theorem Diagnostic.map_message (ds : List Diagnostic) :
    ds.map Diagnostic.message = (ds.map Located.value).map Complaint.message := by
  rw [List.map_map]
  rfl

/-- A text is read without complaint if the other is, as the same program in another place. -/
theorem SameTokens.parse_erase {a b : String} {p : Program} (h : SameTokens a b)
    (hp : Program.parse a = .ok p) :
    ∃ q, Program.parse b = .ok q ∧ p.move Span.erase = q.move Span.erase := by
  have hcomplaints := h.complaints_eq
  have hprograms := congrArg Reading.program h.reading_erase
  rw [Program.parse] at hp
  split at hp
  · next hempty =>
    obtain rfl := Except.ok.inj hp
    rw [List.isEmpty_iff.mp hempty] at hcomplaints
    have hnil : (Reading.ofSource b).diagnostics = [] := List.map_eq_nil_iff.mp hcomplaints.symm
    refine ⟨(Reading.ofSource b).program, ?_, hprograms⟩
    rw [Program.parse]
    simp only [hnil, List.isEmpty_nil, if_true]
  · cases hp

/-- The same program in two places gives the same answers. -/
theorem sameAnswer_of_erase {d : Nat} {scope : ScopeId} {a b : String} {p q : Program} {m : Machine}
    (hp : Program.parse a = .ok p) (hq : Program.parse b = .ok q)
    (hpq : p.move Span.erase = q.move Span.erase) :
    SameAnswer (run d scope a m) (run d scope b m) := by
  have herased := p.eval_carries Span.erase #[] d scope m
  rw [hpq, q.eval_carries Span.erase #[] d scope m] at herased
  rw [SameAnswer, run_eq_answer hp, run_eq_answer hq, Outcome.map_bareAnswer,
    Outcome.map_bareAnswer, herased]

/-- Answers that are the same but for the places of functions are written the same. -/
theorem SameAnswer.inspect_eq {x y : Option (Reply × Machine)} (h : SameAnswer x y) :
    x.map (fun answer => answer.1.result.map Value.inspect) =
      y.map fun answer => answer.1.result.map Value.inspect := by
  have hbare : ∀ z : Option (Reply × Machine),
      z.map (fun answer => answer.1.result.map Value.inspect) =
        (z.map bareAnswer).map fun answer => answer.1.result.map Value.inspect := by
    intro z
    rw [Option.map_map]
    congr 1
    funext answer
    show answer.1.result.map Value.inspect =
      (answer.1.result.map (Value.move Span.erase)).map Value.inspect
    cases answer.1.result with
    | ok v => exact congrArg Except.ok (v.inspect_move Span.erase).symm
    | error ds => rfl
  have hxy : x.map bareAnswer = y.map bareAnswer := h
  rw [hbare x, hbare y, hxy]

/-- Texts with the same tokens are read as the same program, up to places, with the same complaints
in the same order; and one can be run if the other can, with the same printed lines, the same result
and the same bindings, up to the places of functions, and the result is written the same. -/
theorem sameTokens_layout {a b : String} (h : SameTokens a b) :
    (Reading.ofSource a).program.move Span.erase = (Reading.ofSource b).program.move Span.erase ∧
    (Reading.ofSource a).diagnostics.map Located.value =
      (Reading.ofSource b).diagnostics.map Located.value ∧
    (Reading.ofSource a).diagnostics.map Diagnostic.message =
      (Reading.ofSource b).diagnostics.map Diagnostic.message ∧
    ∀ p, Program.parse a = .ok p → (∃ q, Program.parse b = .ok q) ∧
      ∀ (d : Nat) (scope : ScopeId) (m : Machine),
        SameAnswer (run d scope a m) (run d scope b m) ∧
        (run d scope a m).map (fun answer => answer.1.result.map Value.inspect) =
          (run d scope b m).map fun answer => answer.1.result.map Value.inspect := by
  refine ⟨congrArg Reading.program h.reading_erase, h.complaints_eq, ?_, ?_⟩
  · rw [Diagnostic.map_message, h.complaints_eq, ← Diagnostic.map_message]
  · intro p hp
    obtain ⟨q, hq, hpq⟩ := h.parse_erase hp
    refine ⟨⟨q, hq⟩, fun d scope m => ?_⟩
    have hanswer : SameAnswer (run d scope a m) (run d scope b m) := sameAnswer_of_erase hp hq hpq
    exact ⟨hanswer, hanswer.inspect_eq⟩

/-- A function and its call, on one line and spread over several. -/
theorem sameTokens_layout_call :
    SameTokens "let f=fn(x)\x7bx+1\x7d;f" "let f =\n  fn(x) \x7b\n\tx + 1\n  \x7d;\n\nf" ∧
    SameAnswer (run 3 Machine.globalScope "let f=fn(x)\x7bx+1\x7d;f" Machine.initial)
      (run 3 Machine.globalScope "let f =\n  fn(x) \x7b\n\tx + 1\n  \x7d;\n\nf"
        Machine.initial) ∧
    (run 3 Machine.globalScope "let f =\n  fn(x) \x7b\n\tx + 1\n  \x7d;\n\nf"
      Machine.initial).bind (fun answer => answer.1.result.toOption.map Value.inspect) =
        some "fn(x) \x7b\n(x + 1)\n\x7d" := by
  have hsame : SameTokens "let f=fn(x)\x7bx+1\x7d;f"
      "let f =\n  fn(x) \x7b\n\tx + 1\n  \x7d;\n\nf" := by decide +kernel
  have hparses : (Program.parse "let f=fn(x)\x7bx+1\x7d;f").toOption.isSome = true := by
    decide +kernel
  cases hp : Program.parse "let f=fn(x)\x7bx+1\x7d;f" with
  | ok p =>
    obtain ⟨-, hruns⟩ := (sameTokens_layout hsame).2.2.2 p hp
    exact ⟨hsame, (hruns 3 Machine.globalScope Machine.initial).1, by decide +kernel⟩
  | error ds =>
    rw [hp] at hparses
    cases hparses

end Monkey
