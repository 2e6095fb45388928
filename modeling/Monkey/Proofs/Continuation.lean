import Monkey.Proofs.Seam
import Monkey.Proofs.WindowedParse

/-!
A text behind another that ends with a semicolon. After the statements of the first the window
stands at the second as it would at the second alone, but for the places of the tokens. So the
reading goes on as it would have begun, with all that is wrong with the second text.
-/

namespace Monkey

/-- One round of a reading, and what is read later. -/
def Reading.behind (outcome : Except Diagnostic Stmt) (later : Reading) : Reading :=
  match outcome with
  | .ok s => ⟨⟨s :: later.program.statements⟩, later.diagnostics⟩
  | .error d => ⟨later.program, d :: later.diagnostics⟩

theorem Reading.foldr_behind (ss : List Stmt) (later : Reading) :
    (ss.map Except.ok).foldr behind later =
      ⟨⟨ss ++ later.program.statements⟩, later.diagnostics⟩ := by
  induction ss with
  | nil => rfl
  | cons s ss ih =>
    rw [List.map_cons, List.foldr_cons, ih]
    rfl

/-- Every statement takes up a token. -/
theorem Grammar.Passes.length_le {stop : Token} {left ts : List Token} {ss : List Stmt}
    (h : Passes stop left ts ss) : ss.length + left.length ≤ ts.length := by
  induction h with
  | nil => simp
  | @cons t ts rest s ss h _ ih =>
    have hrest : rest.length ≤ ts.length := h.2 ▸ (Parser.statement stop (t :: ts)).length_rest_le
    simp only [List.length_cons]
    omega

namespace Walk

/-- The first rounds of a reading, as far as there is anything to read. -/
def attempts (n : Nat) : Nat → Walk (List (Except Diagnostic Stmt))
  | 0 => return []
  | rounds + 1 => do
    if (← current).kind = .endOfInput then return []
    else
      let outcome ← attempt (statement (expr n))
      advance
      let outcomes ← attempts n rounds
      return outcome :: outcomes

/-- A reading is its first rounds and a reading from there on. -/
theorem reading_add (n k rounds : Nat) : reading n (k + (rounds + 1)) = do
    let outcomes ← attempts n k
    let later ← reading n (rounds + 1)
    return outcomes.foldr Reading.behind later := by
  induction k with
  | zero => simp [attempts]
  | succ k ih =>
    funext w
    change (reading n (k + 1 + (rounds + 1))).run w = run (attempts n (k + 1) >>= _) w
    rw [Nat.succ_add, attempts, bind_assoc, reading, run_current_bind, run_current_bind]
    split
    -- At the end of input neither side reads on, whatever allowance is left.
    · next hend =>
      rw [pure_bind, reading, bind_assoc, run_current_bind, if_pos hend]
      rfl
    · simp only [ih, bind_assoc, pure_bind, List.foldr_cons]
      refine congrArg (fun x : Walk Reading => x.run w) (bind_congr fun outcome => ?_)
      cases outcome <;> rfl

variable {n : Nat} {stop : Token} {left ts : List Token} {ss : List Stmt} {w : Window}

/-- The first rounds read the statements that the parser reads one after another, and the window
stands where the parser goes on. -/
theorem attempts_run (h : Grammar.Passes stop left ts ss) (hn : ts.length < n)
    (hw : w.Stands stop ts) :
    ∃ w', (attempts n ss.length).run w = some (.ok (ss.map .ok), w') ∧ w'.Stands stop left := by
  induction h generalizing w with
  | nil => exact ⟨w, rfl, hw⟩
  | @cons t ts rest s ss h hrest ih =>
    have hcurrent : w.current = t := hw.current
    have ht : t.kind ≠ .endOfInput := hw.kinds t List.mem_cons_self
    obtain ⟨houtcome, hbehind⟩ := h
    have hle : (Parser.statement stop (t :: ts)).rest.length ≤ ts.length :=
      (Parser.statement stop (t :: ts)).length_rest_le
    obtain ⟨w₁, hrun, hw₁⟩ := attempt_of_matches ((nested_expr stop n).statement hn hw)
    rw [houtcome] at hrun
    rw [hbehind] at hle hw₁
    rw [List.length_cons] at hn
    obtain ⟨w₂, hlater, hw₂⟩ := ih (by omega) hw₁.advance
    refine ⟨w₂, ?_, hw₂⟩
    rw [List.length_cons, attempts, run_current_bind, hcurrent, if_neg ht, run_bind_of_ok hrun,
      run_advance_bind, run_bind_of_ok hlater]
    rfl

end Walk

/-- A text that parses and ends with a semicolon, and any other text on the next line. The reading
of both has the statements of the first and then those of the second, and the diagnostics of the
second, all in their new places. Whatever the allowance of the walk beyond the number of tokens,
its first rounds read just the statements of the first text, the window then stands at the tokens
of the second, and the other rounds read what a walk over the second alone would. -/
theorem reading_resumes {a : String} {p : Program} (hp : Program.parse a = .ok p)
    (ha : lastKind (Lexer.ofString a).tokens = some (.symbol .semicolon)) (c : String) :
    Reading.ofSource (a ++ "\n" ++ c) =
      ⟨⟨p.statements ++ (Reading.ofSource c).program.statements.map
          (Stmt.move (Span.shift (a.length + 1)))⟩,
        (Reading.ofSource c).diagnostics.map (Diagnostic.move (Span.shift (a.length + 1)))⟩ ∧
    ∀ n, (Token.tokenize (a ++ "\n" ++ c)).length ≤ n → ∃ w w',
      (Walk.attempts n p.statements.length).run (Window.ofString (a ++ "\n" ++ c)) =
        some (.ok (p.statements.map .ok), w) ∧
      w.Stands ((Token.endOfInput (Lexer.ofString c).stop).move (Span.shift (a.length + 1)))
        ((Lexer.ofString c).tokens.map (Token.move (Span.shift (a.length + 1)))) ∧
      (Walk.reading n (n - p.statements.length)).run w =
        some (.ok ((Reading.ofSource c).move (Span.shift (a.length + 1))), w') ∧
      (Walk.program n).run (Window.ofString (a ++ "\n" ++ c)) =
        some (.ok (Reading.ofSource (a ++ "\n" ++ c)), w') := by
  have hjoin := Reading.ofSource_join hp ha c
  refine ⟨hjoin, fun n hn => ?_⟩
  let σ := Span.shift (a.length + 1)
  let stop := (Token.endOfInput (Lexer.ofString c).stop).move σ
  let left := (Lexer.ofString c).tokens.map (Token.move σ)
  have hstatements := Grammar.isProgram_tokenize_iff.mp (Grammar.isProgram_of_parse hp)
  have hpasses : Grammar.Passes stop left ((Lexer.ofString a).tokens ++ left) p.statements :=
    hstatements.passes stop (.inr ha) left
  have htokens := tokens_join c ha
  have hstands : (Window.ofString (a ++ "\n" ++ c)).Stands stop
      ((Lexer.ofString a).tokens ++ left) := by
    have h := Window.stands_ofString (a ++ "\n" ++ c)
    rwa [endOfInput_join, htokens] at h
  have hlength : ((Lexer.ofString a).tokens ++ left).length < n := by
    rw [Token.tokenize, htokens, List.length_append, List.length_singleton] at hn
    exact hn
  have hcount := hpasses.length_le
  obtain ⟨w, hfirst, hw⟩ := Walk.attempts_run hpasses hlength hstands
  obtain ⟨w', hlater, -⟩ := Walk.reading_run (n := n) (n - p.statements.length)
    (by omega) (by omega) hw
  rw [Reading.ofTokens_move] at hlater
  refine ⟨w, w', hfirst, hw, hlater, ?_⟩
  obtain ⟨rounds, hrounds⟩ : ∃ rounds, n - p.statements.length = rounds + 1 :=
    ⟨n - p.statements.length - 1, by omega⟩
  have hsplit : n = p.statements.length + (rounds + 1) := by omega
  rw [hrounds] at hlater
  have hwhole := Walk.reading_add n p.statements.length rounds
  rw [← hsplit] at hwhole
  rw [Walk.program, hwhole, Walk.run_bind_of_ok hfirst, Walk.run_bind_of_ok hlater,
    Walk.run_pure, Reading.foldr_behind, hjoin]
  rfl

/-- Behind `let x = 1;` what is wrong with `let = 2;` is found where it is now. -/
theorem reading_resumes_malformed : ∃ p : Program, Program.parse "let x = 1;" = .ok p ∧
    ∃ later, Reading.ofSource ("let x = 1;" ++ "\n" ++ "let = 2;") = ⟨⟨p.statements ++ later⟩,
      [⟨.unexpected .ident (.symbol .assign), ⟨15, 16⟩⟩,
        ⟨.noOperand (.symbol .assign), ⟨15, 16⟩⟩]⟩ ∧
    ∃ w, (Walk.attempts 10 p.statements.length).run
      (Window.ofString ("let x = 1;" ++ "\n" ++ "let = 2;")) =
        some (.ok (p.statements.map .ok), w) ∧ w.current.kind = .keyword .letWord := by
  obtain ⟨p, hp⟩ : ∃ p, Program.parse "let x = 1;" = .ok p := by
    have hparses : (Program.parse "let x = 1;").toBool = true := by decide +kernel
    cases h : Program.parse "let x = 1;" with
    | ok p => exact ⟨p, rfl⟩
    | error ds =>
      rw [h] at hparses
      cases hparses
  have hlast : lastKind (Lexer.ofString "let x = 1;").tokens = some (.symbol .semicolon) := by
    decide +kernel
  have hlength : (Token.tokenize ("let x = 1;" ++ "\n" ++ "let = 2;")).length ≤ 10 := by
    decide +kernel
  obtain ⟨hjoin, hwalk⟩ := reading_resumes hp hlast "let = 2;"
  obtain ⟨w, -, hfirst, hw, -⟩ := hwalk 10 hlength
  have hdiagnostics :
      (Reading.ofSource "let = 2;").diagnostics.map (Diagnostic.move (Span.shift 11)) =
        [⟨.unexpected .ident (.symbol .assign), ⟨15, 16⟩⟩,
          ⟨.noOperand (.symbol .assign), ⟨15, 16⟩⟩] := by
    decide +kernel
  refine ⟨p, hp, _, hjoin.trans (congrArg _ hdiagnostics), w, hfirst, ?_⟩
  rw [hw.current]
  decide +kernel

end Monkey
