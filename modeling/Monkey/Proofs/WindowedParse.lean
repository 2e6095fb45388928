import Monkey.Proofs.Window
import Monkey.Proofs.ParserSoundness

/-!
The parser is what the walk over a text comes to. A walk and a parse match if they end with the same
piece or the same diagnostic and leave the same tokens. Each step of the walk matches a step of the
parser as long as the expressions inside it do; a loop takes a token in every round, and an
expression inside another has fewer tokens, so an allowance beyond the number of tokens is enough.
-/

namespace Monkey

theorem Parsed.map_eq_bind {α β : Type} {n : Nat} (f : α → β) (p : Parsed α n) :
    p.map f = p.bind fun a rest _ => .done (f a) rest := by
  obtain ⟨outcome, rest, h⟩ := p
  cases outcome <;> rfl

theorem Parsed.bind_assoc {α β γ : Type} {n : Nat} (p : Parsed α n)
    (f : α → (rest : List Token) → rest.length ≤ n → Parsed β rest.length)
    (g : β → (rest : List Token) → rest.length ≤ n → Parsed γ rest.length) :
    (p.bind f).bind g = p.bind fun a rest h =>
      (f a rest h).bind fun b rest' h' => g b rest' (Nat.le_trans h' h) := by
  obtain ⟨outcome, rest, h⟩ := p
  cases outcome with
  | error d => rfl
  | ok a =>
    have hmid : ∀ q : Parsed β rest.length,
        (⟨q.outcome, q.rest, Nat.le_trans q.length_rest_le h⟩ : Parsed β n).bind g =
          let r := q.bind fun b rest' h' => g b rest' (Nat.le_trans h' h)
          ⟨r.outcome, r.rest, Nat.le_trans r.length_rest_le h⟩ := by
      rintro ⟨outcome, rest', h'⟩
      cases outcome <;> rfl
    exact hmid (f a rest h)

theorem Parsed.bind_map {α β γ : Type} {n : Nat} (f : α → β) (p : Parsed α n)
    (g : β → (rest : List Token) → rest.length ≤ n → Parsed γ rest.length) :
    (p.map f).bind g = p.bind fun a => g (f a) := by
  obtain ⟨outcome, rest, h⟩ := p
  cases outcome <;> rfl

namespace Walk

open Monkey.Parser

variable {α β : Type} {stop : Token} {w : Window} {n : Nat} {ts rest : List Token}

/-- From a window on, a walk ends with the piece or the diagnostic of a parse, before the tokens
that the parse leaves. -/
def Matches (stop : Token) (p : Parsed α n) (x : Walk α) (w : Window) : Prop :=
  ∃ w', x.run w = some (p.outcome.mapError Halt.wrong, w') ∧ w'.Ahead stop p.rest

theorem matches_done (hw : w.Ahead stop rest) (a : α) :
    Matches stop (.done a rest) (pure a) w := ⟨w, rfl, hw⟩

theorem matches_failed (hw : w.Ahead stop rest) (d : Diagnostic) :
    Matches stop (.failed d rest) (throw (.wrong d) : Walk α) w := ⟨w, rfl, hw⟩

namespace Matches

variable {p : Parsed α n} {x : Walk α}

theorem loosen {p : Parsed α (n - 1)} (hp : Matches stop p x w) : Matches stop p.loosen x w := hp

theorem afterToken (hp : Matches stop p x w) : Matches stop p.afterToken x w := hp

theorem bind {f : α → (rest : List Token) → rest.length ≤ n → Parsed β rest.length}
    {g : α → Walk β} (hp : Matches stop p x w)
    (hf : ∀ a rest h w', w'.Ahead stop rest → Matches stop (f a rest h) (g a) w') :
    Matches stop (p.bind f) (x >>= g) w := by
  obtain ⟨w', hrun, hw'⟩ := hp
  obtain ⟨outcome, rest, h⟩ := p
  cases outcome with
  | error d => exact ⟨w', run_bind_of_error hrun g, hw'⟩
  | ok a =>
    obtain ⟨w'', hrun', hw''⟩ := hf a rest h w' hw'
    exact ⟨w'', (run_bind_of_ok hrun g).trans hrun', hw''⟩

theorem map {f : α → β} (hp : Matches stop p x w) :
    Matches stop (p.map f) (x >>= fun a => pure (f a)) w := by
  rw [Parsed.map_eq_bind]
  apply hp.bind
  intro a rest h w' hw'
  exact matches_done hw' (f a)

theorem current {t : Token} {g : Token → Walk α} (hw : w.Stands stop (t :: rest))
    (h : Matches stop p (g t) w) : Matches stop p (Walk.current >>= g) w := by
  have hcurrent : w.current = t := hw.current
  change Matches stop p (g w.current) w
  rwa [hcurrent]

theorem current_nil {g : Token → Walk α} (hw : w.Stands stop [])
    (h : Matches stop p (g stop) w) : Matches stop p (Walk.current >>= g) w := by
  have hcurrent : w.current = stop := hw.current
  change Matches stop p (g w.current) w
  rwa [hcurrent]

theorem peek {t : Token} {g : Token → Walk α} (hw : w.Ahead stop (t :: rest))
    (h : Matches stop p (g t) w) : Matches stop p (Walk.peek >>= g) w := by
  have hpeek : w.peek = t := hw.peek
  change Matches stop p (g w.peek) w
  rwa [hpeek]

theorem peek_nil {g : Token → Walk α} (hw : w.Ahead stop [])
    (h : Matches stop p (g stop) w) : Matches stop p (Walk.peek >>= g) w := by
  have hpeek : w.peek = stop := hw.peek
  change Matches stop p (g w.peek) w
  rwa [hpeek]

/-- The end of input is of no kind that is asked for. -/
theorem otherwise {kind : Token.Kind} {x y : Walk α} (hkind : kind ≠ .endOfInput)
    (hw : w.Ahead stop []) (h : Matches stop p y w) :
    Matches stop p (do if (← Walk.peek).kind = kind then x else y) w := by
  apply peek_nil hw
  rw [if_neg (hw.stop_ne hkind)]
  exact h

theorem advance {g : Unit → Walk α} (hw : w.Ahead stop rest)
    (h : ∀ w', w'.Stands stop rest → Matches stop p (g ()) w') :
    Matches stop p (Walk.advance >>= g) w := h _ hw.advance

theorem expect {kind : Token.Kind} {g : Unit → Walk β} (hkind : kind ≠ .endOfInput)
    (hw : w.Ahead stop ts)
    {f : Token → (rest : List Token) → rest.length ≤ ts.length → Parsed β rest.length}
    (hf : ∀ t rest (h : rest.length < ts.length) w', w'.Stands stop (t :: rest) →
      Matches stop (f t rest (Nat.le_of_lt h)) (g ()) w') :
    Matches stop ((Parser.expect stop kind ts).bind f) (expectPeek kind >>= g) w := by
  rw [expectPeek, bind_assoc]
  cases ts with
  | nil =>
    apply peek_nil hw
    rw [if_neg (hw.stop_ne hkind)]
    exact matches_failed hw _
  | cons t rest =>
    apply peek hw
    rw [Parser.expect]
    split
    · exact hf t rest (Nat.lt_succ_self _) _ hw.advance
    · exact matches_failed hw _

theorem expect_map {kind : Token.Kind} {b : β} (hkind : kind ≠ .endOfInput)
    (hw : w.Ahead stop ts) :
    Matches stop ((Parser.expect stop kind ts).map fun _ => b)
      (expectPeek kind >>= fun _ => pure b) w := by
  rw [Parsed.map_eq_bind]
  apply expect hkind hw
  intro t rest h w' hw'
  exact matches_done hw'.behind b

end Matches

theorem close_matches (hw : w.Ahead stop ts) (s : Stmt) :
    Matches stop (close s ts) (skipSemicolon >>= fun _ => pure s) w := by
  rw [skipSemicolon, bind_assoc]
  cases ts with
  | nil =>
    have hstop : stop.kind ≠ .symbol .semicolon := hw.stop_ne (by simp)
    apply Matches.peek_nil hw
    rw [if_neg hstop]
    exact matches_done hw s
  | cons t rest =>
    apply Matches.peek hw
    rw [close]
    split
    · exact matches_done hw.advance.behind s
    · exact matches_done hw s

theorem integer_matches {t : Token} (hw : w.Stands stop (t :: rest)) :
    Matches stop (Parser.integer t rest) integer w := by
  apply Matches.current hw
  rw [Parser.integer]
  dsimp only
  split
  · exact matches_done hw.behind _
  · exact matches_failed hw.behind _

/-- How the parser reads a list with `whole`: with `all` from the first item on, which it reads with
`one`, unless the closing symbol follows at once. -/
structure ReadsList (stop : Token) (closing : Symbol)
    (one : (ts : List Token) → Parsed α ts.length)
    (all whole : (ts : List Token) → Parsed (List α) ts.length) : Prop where
  all_eq (ts : List Token) : all ts = (one ts).bind fun a rest _ =>
    listTail stop closing a rest fun rest _ => all rest
  whole_nil : whole [] = all []
  whole_cons (t : Token) (rest : List Token) : whole (t :: rest) =
    if t.kind = .symbol closing then (Parsed.done [] rest).afterToken else all (t :: rest)

section Items

variable {item : Walk α} {closing : Symbol} {one : (ts : List Token) → Parsed α ts.length}
  {all whole : (ts : List Token) → Parsed (List α) ts.length}

/-- The loop over the items behind the first, and the closing symbol. -/
theorem moreItems_matches (hlist : ReadsList stop closing one all whole)
    (hone : ∀ ts w, ts.length < n → w.Ahead stop ts → Matches stop (one ts) item w)
    (rounds : Nat) (a : α) {ts : List Token} {w : Window} (hrounds : ts.length < rounds)
    (hn : ts.length < n) (hw : w.Ahead stop ts) :
    Matches stop (listTail stop closing a ts fun rest _ => all rest) (do
      let as ← moreItems item rounds
      expectPeek (.symbol closing)
      return a :: as) w := by
  induction rounds generalizing a ts w with
  | zero => exact absurd hrounds (Nat.not_lt_zero _)
  | succ rounds ih =>
    rw [moreItems, bind_assoc]
    cases ts with
    | nil =>
      have hstop : stop.kind ≠ .symbol .comma := hw.stop_ne (by simp)
      apply Matches.peek_nil hw
      rw [if_neg hstop, pure_bind]
      exact .expect_map (by simp) hw
    | cons t rest =>
      apply Matches.peek hw
      rw [listTail]
      simp only [List.length_cons] at hrounds hn
      split
      · have hrest : ∀ w', w'.Ahead stop rest → Matches stop (all rest) (do
            let b ← item
            let bs ← moreItems item rounds
            expectPeek (.symbol closing)
            return b :: bs) w' := by
          intro w' hw'
          rw [hlist.all_eq]
          apply (hone rest w' (by omega) hw').bind
          intro b rest' h w' hw'
          exact ih b (by omega) (by omega) hw'
        simp only [bind_assoc, pure_bind]
        apply Matches.advance hw
        intro w' hw'
        have hmap := (hrest w' hw'.behind).map (f := (a :: ·))
        simp only [bind_assoc, pure_bind] at hmap
        exact hmap.afterToken
      · rw [pure_bind]
        exact .expect_map (by simp) hw

/-- A list is empty if the closing symbol follows at once, and else it has a first item. -/
theorem items_matches (hlist : ReadsList stop closing one all whole)
    (hone : ∀ ts w, ts.length < n → w.Ahead stop ts → Matches stop (one ts) item w)
    (hn : ts.length < n) (hw : w.Ahead stop ts) :
    Matches stop (whole ts) (items item closing n) w := by
  have hitems : Matches stop (all ts) (do
      let a ← item
      let as ← moreItems item n
      expectPeek (.symbol closing)
      return a :: as) w := by
    rw [hlist.all_eq]
    apply (hone ts w hn hw).bind
    intro a rest h w' hw'
    exact moreItems_matches hlist hone n a (by omega) (by omega) hw'
  rw [items]
  cases ts with
  | nil =>
    rw [hlist.whole_nil]
    exact .otherwise (by simp) hw hitems
  | cons t rest =>
    apply Matches.peek hw
    rw [hlist.whole_cons]
    split
    · exact Matches.advance hw fun w' hw' => matches_done hw'.behind []
    · exact hitems

end Items

theorem readsList_parameters : ReadsList stop .closeParen
    (fun ts => (Parser.expect stop .ident ts).map Name.mk) (names stop)
    (Parser.parameters stop) where
  all_eq ts := by rw [names, Parsed.bind_map]
  whole_nil := by rw [Parser.parameters]
  whole_cons t rest := by rw [Parser.parameters]

theorem parameters_matches (hn : ts.length < n) (hw : w.Ahead stop ts) :
    Matches stop (Parser.parameters stop ts) (items parameter .closeParen n) w := by
  refine items_matches readsList_parameters (fun ts w _ hw => ?_) hn hw
  rw [parameter, Parsed.map_eq_bind]
  apply Matches.expect (by simp) hw
  intro x rest h w' hw'
  apply Matches.current hw'
  exact matches_done hw'.behind _

theorem readsList_exprs (closing : Symbol) : ReadsList stop closing
    (fun ts => (Parser.expr stop .lowest ts).loosen) (elements stop closing)
    (Parser.exprs stop closing) where
  all_eq ts := by rw [elements]
  whole_nil := by rw [Parser.exprs]
  whole_cons t rest := by rw [Parser.exprs]

/-- A pair `key: value`. -/
def pairOf (stop : Token) (ts : List Token) : Parsed (Expr × Expr) ts.length :=
  (Parser.expr stop .lowest ts).loosen.bind fun key rest _ =>
  (Parser.expect stop (.symbol .colon) rest).bind fun _ rest _ =>
    (Parser.expr stop .lowest rest).loosen.map fun value => (key, value)

/-- The pairs of a hash, behind its opening brace. -/
def entries (stop : Token) (ts : List Token) : Parsed (List (Expr × Expr)) ts.length :=
  match ts with
  | [] => Parser.pairs stop []
  | t :: rest =>
    if t.kind = .symbol .closeBrace then (Parsed.done [] rest).afterToken
    else Parser.pairs stop (t :: rest)

theorem readsList_entries :
    ReadsList stop .closeBrace (pairOf stop) (Parser.pairs stop) (entries stop) where
  all_eq ts := by
    rw [Parser.pairs, pairOf]
    simp only [Parsed.bind_assoc, Parsed.bind_map]
  whole_nil := rfl
  whole_cons _ _ := rfl

theorem operand_of_openBrace {t : Token} (ht : t.kind = .symbol .openBrace) :
    Parser.operand stop (t :: ts) = (entries stop ts).map (Expr.hash t) := by
  rw [Parser.operand.eq_def]
  simp only [ht]
  cases ts with
  | nil => rfl
  | cons u rest =>
    dsimp only [entries]
    split <;> rfl

/-- Expressions of fewer than `n` tokens are read as the parser reads them. -/
def Nested (stop : Token) (n : Nat) (nested : Precedence → Walk Expr) : Prop :=
  ∀ p ts w, ts.length < n → w.Stands stop ts → Matches stop (Parser.expr stop p ts) (nested p) w

namespace Nested

variable {nested : Precedence → Walk Expr} {t : Token}

theorem element (h : Nested stop n nested) (hn : ts.length < n) (hw : w.Ahead stop ts) :
    Matches stop (Parser.expr stop .lowest ts).loosen (Walk.element nested) w := by
  rw [Walk.element]
  exact Matches.advance hw fun w' hw' => (h .lowest ts w' hn hw').loosen

theorem exprs (h : Nested stop n nested) (closing : Symbol) (hn : ts.length < n)
    (hw : w.Ahead stop ts) :
    Matches stop (Parser.exprs stop closing ts) (items (Walk.element nested) closing n) w :=
  items_matches (readsList_exprs closing) (fun _ _ => h.element) hn hw

theorem pair (h : Nested stop n nested) (hn : ts.length < n) (hw : w.Ahead stop ts) :
    Matches stop (pairOf stop ts) (Walk.pair nested) w := by
  rw [pairOf, Walk.pair]
  apply Matches.advance hw
  intro w' hw'
  apply (h .lowest ts w' hn hw').loosen.bind
  intro key rest hrest w' hw'
  apply Matches.expect (by simp) hw'
  intro colon rest' hrest' w' hw'
  apply Matches.advance hw'.behind
  intro w' hw'
  exact (h .lowest rest' w' (by omega) hw').loosen.map

theorem hash (h : Nested stop n nested) (hn : ts.length < n) (hw : w.Stands stop (t :: ts))
    (ht : t.kind = .symbol .openBrace) :
    Matches stop (Parser.operand stop (t :: ts)) (Walk.hash nested n) w := by
  rw [operand_of_openBrace ht, Walk.hash]
  apply Matches.current hw
  exact (items_matches readsList_entries (fun _ _ => h.pair) hn hw.behind).map

theorem statement (h : Nested stop n nested) (hn : (t :: ts).length < n)
    (hw : w.Stands stop (t :: ts)) :
    Matches stop (Parser.statement stop (t :: ts)) (Walk.statement nested) w := by
  rw [List.length_cons] at hn
  have hexpr : Matches stop
      ((Parser.expr stop .lowest (t :: ts)).bind fun value rest _ => close (.expr t value) rest)
      (exprStatement nested) w := by
    rw [exprStatement]
    apply Matches.current hw
    apply (h .lowest (t :: ts) w hn hw).bind
    intro value rest _ w' hw'
    exact close_matches hw' _
  rw [Parser.statement, Walk.statement]
  apply Matches.current hw
  cases hk : t.kind with
  | keyword k =>
    cases k with
    | letWord =>
      dsimp only
      rw [letStatement]
      apply Matches.current hw
      apply Matches.expect (by simp) hw.behind
      intro x rest hrest w' hw'
      apply Matches.current hw'
      apply Matches.expect (by simp) hw'.behind
      intro assign rest' hrest' w' hw'
      apply Matches.advance hw'.behind
      intro w' hw'
      apply (h .lowest rest' w' (by omega) hw').loosen.bind
      intro value rest'' _ w' hw'
      exact close_matches hw' _
    | returnWord =>
      dsimp only
      rw [returnStatement]
      apply Matches.current hw
      apply Matches.advance hw.behind
      intro w' hw'
      apply (h .lowest ts w' (by omega) hw').loosen.bind
      intro value rest _ w' hw'
      exact close_matches hw' _
    | _ => exact hexpr
  | _ => exact hexpr

theorem statements (h : Nested stop n nested) (rounds : Nat) {ts : List Token} {w : Window}
    (hrounds : ts.length < rounds) (hn : ts.length < n) (hw : w.Stands stop ts) :
    Matches stop (Parser.statements stop ts) (Walk.statements nested rounds) w := by
  induction rounds generalizing ts w with
  | zero => exact absurd hrounds (Nat.not_lt_zero _)
  | succ rounds ih =>
    rw [Walk.statements]
    cases ts with
    | nil =>
      have hstop : stop.kind = .endOfInput := hw.ahead.stop_kind
      apply Matches.current_nil hw
      rw [Parser.statements, hstop]
      exact matches_failed hw.ahead _
    | cons t rest =>
      have ht : t.kind ≠ .endOfInput := hw.kinds t List.mem_cons_self
      rw [List.length_cons] at hrounds
      apply Matches.current hw
      rw [Parser.statements, if_neg ht]
      split
      · exact matches_done hw.behind []
      · apply Matches.loosen
        apply (h.statement hn hw).bind
        intro s rest' hrest w' hw'
        simp only [List.length_cons] at hrest hn
        apply Matches.advance hw'
        intro w' hw'
        exact (ih (by omega) (by omega) hw').map

theorem block (h : Nested stop n nested) (hn : ts.length < n) (hw : w.Ahead stop ts) :
    Matches stop (Parser.block stop ts)
      (expectPeek (.symbol .openBrace) >>= fun _ => Walk.block nested n) w := by
  rw [Parser.block, Walk.block]
  apply Matches.expect (by simp) hw
  intro brace rest hrest w' hw'
  apply Matches.current hw'
  apply Matches.advance hw'.behind
  intro w' hw'
  exact (h.statements n (by omega) (by omega) hw').map

theorem cond (h : Nested stop n nested) (hn : ts.length < n) (hw : w.Stands stop (t :: ts))
    (ht : t.kind = .keyword .ifWord) :
    Matches stop (Parser.operand stop (t :: ts)) (Walk.cond nested n) w := by
  rw [Parser.operand.eq_def, Walk.cond]
  simp only [ht]
  apply Matches.current hw
  apply Matches.expect (by simp) hw.behind
  intro opening rest hrest w' hw'
  apply Matches.advance hw'.behind
  intro w' hw'
  apply (h .lowest rest w' (by omega) hw').loosen.bind
  intro condition rest' hrest' w' hw'
  apply Matches.expect (by simp) hw'
  intro closing rest'' hrest'' w' hw'
  rw [← bind_assoc]
  apply (h.block (by omega) hw'.behind).bind
  intro consequence left hleft w' hw'
  cases left with
  | nil =>
    apply Matches.otherwise (by simp) hw'
    exact matches_done hw' _
  | cons u left =>
    rw [List.length_cons] at hleft
    apply Matches.peek hw'
    dsimp only
    split
    · apply Matches.advance hw'
      intro w' hw'
      rw [← bind_assoc]
      exact (h.block (by omega) hw'.behind).map.afterToken
    · exact matches_done hw' _

theorem function (h : Nested stop n nested) (hn : ts.length < n) (hw : w.Stands stop (t :: ts))
    (ht : t.kind = .keyword .fnWord) :
    Matches stop (Parser.operand stop (t :: ts)) (Walk.function nested n) w := by
  rw [Parser.operand.eq_def, Walk.function]
  simp only [ht]
  apply Matches.current hw
  apply Matches.expect (by simp) hw.behind
  intro opening rest hrest w' hw'
  apply (parameters_matches (by omega) hw'.behind).bind
  intro xs rest' hrest' w' hw'
  rw [← bind_assoc]
  exact (h.block (by omega) hw').map

theorem operand (h : Nested stop n nested) (hn : ts.length ≤ n) (hw : w.Stands stop ts) :
    Matches stop (Parser.operand stop ts) (Walk.operand nested n) w := by
  rw [Walk.operand]
  cases ts with
  | nil =>
    have hstop : stop.kind = .endOfInput := hw.ahead.stop_kind
    apply Matches.current_nil hw
    rw [Parser.operand, hstop]
    exact matches_failed hw.ahead _
  | cons t rest =>
    have hrest : rest.length < n := hn
    -- The walk comes to `unary` at the two signs alone, and both are operators.
    have hunary : ∀ op, UnaryOp.ofKind? t.kind = some op →
        Matches stop ((Parser.expr stop .unary rest).loosen.map (.unary t op)) (unary nested)
          w := by
      intro op hop
      rw [unary]
      apply Matches.current hw
      rw [hop]
      apply Matches.advance hw.behind
      intro w' hw'
      exact (h .unary rest w' hrest hw').loosen.map
    have hcond := h.cond hrest hw
    have hfunction := h.function hrest hw
    have hhash := h.hash hrest hw
    apply Matches.current hw
    rw [Parser.operand.eq_def] at hcond hfunction hhash ⊢
    dsimp only at hcond hfunction hhash ⊢
    cases hk : t.kind with
    | ident => exact matches_done hw.behind _
    | integer => exact integer_matches hw
    | string => exact matches_done hw.behind _
    | keyword k =>
      rw [hk] at hcond hfunction
      cases k with
      | trueWord => exact matches_done hw.behind _
      | falseWord => exact matches_done hw.behind _
      | ifWord => exact hcond rfl
      | fnWord => exact hfunction rfl
      | _ => exact matches_failed hw.behind _
    | symbol s =>
      rw [hk] at hunary hhash
      cases s with
      | openParen =>
        dsimp only
        rw [group]
        apply Matches.advance hw.behind
        intro w' hw'
        apply (h .lowest rest w' hrest hw').loosen.bind
        intro e rest' _ w' hw'
        exact .expect_map (by simp) hw'
      | openBracket =>
        dsimp only
        rw [array]
        apply Matches.current hw
        exact (h.exprs .closeBracket hrest hw.behind).map
      | openBrace => exact hhash rfl
      | bang => exact hunary .not rfl
      | minus => exact hunary .negate rfl
      | _ => exact matches_failed hw.behind _
    | _ => exact matches_failed hw.behind _

/-- One round of the loop: the operand is extended, and `next` goes on from there. -/
theorem extended (h : Nested stop n nested) {p : Precedence} {left : Expr}
    (hp : p < .ofKind t.kind) (hn : ts.length < n) (hw : w.Stands stop (t :: ts))
    {next : Expr → Walk Expr} (hnext : ∀ left rest w', rest.length ≤ ts.length →
      w'.Ahead stop rest → Matches stop (Parser.extend stop p left rest) (next left) w') :
    Matches stop (Parser.extend stop p left (t :: ts))
      (Walk.extended nested left n >>= next) w := by
  rw [Parser.extend, if_pos hp, Walk.extended, bind_assoc]
  apply Matches.current hw
  -- What binds at all is an opening symbol or an operator, so there is a case for it.
  rcases Grammar.binding_cases hp with ht | ht | ⟨op, ht⟩
  · simp only [ht]
    rw [call, bind_assoc]
    apply Matches.current hw
    rw [bind_assoc]
    apply Matches.afterToken
    apply (h.exprs .closeParen hn hw.behind).bind
    intro arguments rest hrest w' hw'
    exact hnext _ rest w' hrest hw'
  · simp only [ht]
    rw [index, bind_assoc]
    apply Matches.current hw
    rw [bind_assoc]
    apply Matches.advance hw.behind
    intro w' hw'
    rw [bind_assoc]
    apply Matches.afterToken
    apply (h .lowest ts w' hn hw').loosen.bind
    intro position rest hrest w' hw'
    rw [bind_assoc]
    apply Matches.expect (by simp) hw'
    intro closing rest' hrest' w' hw'
    exact hnext _ rest' w' (by omega) hw'.behind
  · have hop : BinaryOp.ofKind? t.kind = some op := by
      rw [ht]
      exact Grammar.binaryOfKind?_symbol op
    obtain ⟨hparen, hbracket⟩ := ofKind?_ne_open hop
    split
    · next hk => exact absurd hk hparen
    · next hk => exact absurd hk hbracket
    simp only [hop]
    rw [bind_assoc]
    apply Matches.advance hw.behind
    intro w' hw'
    rw [bind_assoc]
    apply Matches.afterToken
    apply (h (.ofKind t.kind) ts w' hn hw').loosen.bind
    intro right rest hrest w' hw'
    exact hnext _ rest w' hrest hw'

theorem extend (h : Nested stop n nested) (p : Precedence) (rounds : Nat) (left : Expr)
    {ts : List Token} {w : Window} (hrounds : ts.length < rounds) (hn : ts.length ≤ n)
    (hw : w.Ahead stop ts) :
    Matches stop (Parser.extend stop p left ts) (Walk.extend nested n p rounds left) w := by
  induction rounds generalizing left ts w with
  | zero => exact absurd hrounds (Nat.not_lt_zero _)
  | succ rounds ih =>
    rw [Walk.extend]
    cases ts with
    | nil =>
      have hlowest : Precedence.ofKind stop.kind = .lowest := by
        rw [hw.stop_kind]
        rfl
      apply Matches.peek_nil hw
      rw [Parser.extend, hlowest, if_neg fun h => Nat.not_lt_zero _ h.2]
      exact matches_done hw left
    | cons t rest =>
      rw [List.length_cons] at hrounds hn
      apply Matches.peek hw
      by_cases hp : p < .ofKind t.kind
      · have hsemicolon : t.kind ≠ .symbol .semicolon := by
          intro ht
          rw [ht] at hp
          exact Nat.not_lt_zero _ hp
        rw [if_pos ⟨hsemicolon, hp⟩]
        apply Matches.advance hw
        intro w' hw'
        apply h.extended hp hn hw'
        intro left rest' w'' hrest hw''
        exact ih left (by omega) (by omega) hw''
      · rw [Parser.extend, if_neg hp, if_neg fun h => hp h.2]
        exact matches_done hw left

end Nested

/-- An allowance beyond the number of tokens is enough for an expression. -/
theorem nested_expr (stop : Token) (n : Nat) : Nested stop n (expr n) := by
  induction n with
  | zero => exact fun p ts w hn => absurd hn (Nat.not_lt_zero _)
  | succ n ih =>
    intro p ts w hn hw
    rw [Parser.expr, expr]
    apply (ih.operand (by omega) hw).bind
    intro left rest hrest w' hw'
    exact ih.extend p (n + 1) left (by omega) (by omega) hw'

theorem attempt_of_matches {p : Parsed α n} {x : Walk α} (h : Matches stop p x w) :
    ∃ w', (attempt x).run w = some (.ok p.outcome, w') ∧ w'.Ahead stop p.rest := by
  obtain ⟨w', hrun, hw'⟩ := h
  obtain ⟨outcome, rest, hle⟩ := p
  cases outcome with
  | ok a => exact ⟨w', run_tryCatch_of_ok (run_bind_of_ok hrun _) _, hw'⟩
  | error d => exact ⟨w', run_tryCatch_of_error (run_bind_of_error hrun _) _, hw'⟩

/-- The walk goes through the tokens to the end of input, with the statements and the diagnostics
of the parser. -/
theorem reading_run (rounds : Nat) {ts : List Token} {w : Window} (hrounds : ts.length < rounds)
    (hn : ts.length < n) (hw : w.Stands stop ts) :
    ∃ w', (reading n rounds).run w = some (.ok (Reading.ofTokens stop ts), w') ∧
      w'.Stands stop [] := by
  induction rounds generalizing ts w with
  | zero => exact absurd hrounds (Nat.not_lt_zero _)
  | succ rounds ih =>
    rw [reading, run_current_bind]
    cases ts with
    | nil =>
      have hcurrent : w.current = stop := hw.current
      rw [hcurrent, if_pos hw.ahead.stop_kind, Reading.ofTokens]
      exact ⟨w, rfl, hw⟩
    | cons t rest =>
      have hcurrent : w.current = t := hw.current
      have ht : t.kind ≠ .endOfInput := hw.kinds t List.mem_cons_self
      have hle : (Parser.statement stop (t :: rest)).rest.length ≤ rest.length :=
        (Parser.statement stop (t :: rest)).length_rest_le
      obtain ⟨w', hrun, hw'⟩ := attempt_of_matches ((nested_expr stop n).statement hn hw)
      rw [List.length_cons] at hrounds hn
      -- A statement takes up at least the token that it begins at, so one round less will do.
      obtain ⟨w'', hlater, hend⟩ := ih (by omega) (by omega) hw'.advance
      refine ⟨w'', ?_, hend⟩
      rw [hcurrent, if_neg ht, run_bind_of_ok hrun, run_advance_bind, run_bind_of_ok hlater]
      cases h : (Parser.statement stop (t :: rest)).outcome with
      | ok s => rw [Reading.ofTokens_of_yields ⟨h, rfl⟩, run_pure]
      | error d => rw [Reading.ofTokens_of_error h, run_pure]

end Walk

/-- Every statement and every diagnostic takes up a token of its own. -/
theorem Reading.length_ofTokens_le (stop : Token) (ts : List Token) :
    (ofTokens stop ts).program.statements.length + (ofTokens stop ts).diagnostics.length ≤
      ts.length := by
  induction ts using ofTokens.induct stop with
  | case1 =>
    rw [ofTokens]
    exact Nat.le_refl 0
  | case2 t rest s behind hle heq ih =>
    rw [ofTokens, heq]
    simp only [List.length_cons] at hle ⊢
    omega
  | case3 t rest d behind hle heq ih =>
    rw [ofTokens, heq]
    simp only [List.length_cons] at hle ⊢
    omega

/-- Whatever a text holds, the walk over it comes to an end, at the end of input and past no
unreachable case: an allowance for as many rounds and as deep a nesting as there are tokens is never
used up. Each token before the end of input makes for at most one statement or diagnostic, and the
text parses just if there is no diagnostic. -/
theorem walk_reaches_end (source : String) :
    (∀ extra, ∃ w, (Walk.program ((Token.tokenize source).length + extra)).run
        (Window.ofString source) = some (.ok (Reading.ofSource source), w) ∧
      w.current.kind = .endOfInput) ∧
    (Reading.ofSource source).program.statements.length +
        (Reading.ofSource source).diagnostics.length ≤
      (Token.tokenize source).countP (·.kind ≠ .endOfInput) ∧
    ((∃ program, Program.parse source = .ok program) ↔
      (Reading.ofSource source).diagnostics = []) := by
  have hkinds : ∀ t ∈ (Lexer.ofString source).tokens, t.kind ≠ .endOfInput :=
    fun t ht => Lexer.kind_ne_of_mem_tokens ht
  have hlength : (Token.tokenize source).length = (Lexer.ofString source).tokens.length + 1 := by
    rw [Token.tokenize, List.length_append, List.length_singleton]
  have hcount : (Token.tokenize source).countP (·.kind ≠ .endOfInput) =
      (Lexer.ofString source).tokens.length := by
    rw [Token.tokenize, List.countP_append, List.countP_eq_length.mpr (by simpa using hkinds)]
    rfl
  refine ⟨fun extra => ?_, ?_, ?_⟩
  · have hn : (Lexer.ofString source).tokens.length < (Token.tokenize source).length + extra := by
      omega
    obtain ⟨w, hrun, hw⟩ := Walk.reading_run _ hn hn (Window.stands_ofString source)
    have hcurrent : w.current = .endOfInput (Lexer.ofString source).stop := hw.current
    exact ⟨w, hrun, congrArg Token.kind hcurrent⟩
  · rw [hcount]
    exact Reading.length_ofTokens_le _ _
  · rw [Program.parse]
    simp only [List.isEmpty_iff]
    split
    · simpa
    · simpa

end Monkey
