import Monkey.Proofs.RelocatedParse
import Monkey.Proofs.Respelling

/-!
Reading what was written. The written form of an expression without strings, conditionals and
function literals is lexed into tokens that derive the same expression again: operations and
indexings come with parentheses of their own, and everything else binds as tightly as a call. A
program keeps its statements as long as only the last of them is an expression, since nothing is
written between two statements.
-/

namespace Monkey

mutual

/-- No string, no conditional and no function literal occurs in the expression. -/
def Expr.plain : Expr → Bool
  | .name _ | .integer _ _ | .boolean _ _ => true
  | .string _ | .function _ _ _ | .cond _ _ _ _ => false
  | .array _ elements => Expr.allPlain elements
  | .hash _ pairs => Expr.pairsPlain pairs
  | .unary _ _ operand => operand.plain
  | .binary _ _ left right => left.plain && right.plain
  | .call _ callee arguments => callee.plain && Expr.allPlain arguments
  | .index _ collection position => collection.plain && position.plain

def Expr.allPlain : List Expr → Bool
  | [] => true
  | e :: es => e.plain && Expr.allPlain es

def Expr.pairsPlain : List (Expr × Expr) → Bool
  | [] => true
  | (key, value) :: ps => key.plain && value.plain && Expr.pairsPlain ps

end

/-- The expression of a statement is plain. -/
def Stmt.plain : Stmt → Bool
  | .bind _ _ value | .return _ value | .expr _ value => value.plain

def Stmt.isExpression : Stmt → Bool
  | .expr _ _ => true
  | .bind _ _ _ | .return _ _ => false

namespace Grammar

/-- The written form of an expression is lexed into tokens that derive it in a place where it may be
called or indexed, and an exclamation mark in front of it stays a token of its own. -/
structure Rendering (e : Expr) (us : List Token) : Prop where
  derived : Expression .suffixed us (e.move Span.erase)
  lexes : Lexes e.text us
  head : ∀ rest, (e.text.toList ++ rest).head? ≠ some '='

/-- Expressions in a row, as they are written. -/
structure ListRendering (es : List Expr) (us : List Token) : Prop where
  derived : Expressions us (es.map (Expr.move Span.erase))
  lexes : Lexes (listing (es.map Expr.text)) us

/-- What is written of a key and its value. -/
def pairText (p : Expr × Expr) : String := p.1.text ++ ": " ++ p.2.text

structure PairRendering (p : Expr × Expr) (us : List Token) : Prop where
  derived : Pair us (p.map (Expr.move Span.erase) (Expr.move Span.erase))
  lexes : Lexes (pairText p) us

structure PairsRendering (ps : List (Expr × Expr)) (us : List Token) : Prop where
  derived : Pairs us (ps.map (Prod.map (Expr.move Span.erase) (Expr.move Span.erase)))
  lexes : Lexes (listing (ps.map pairText)) us

namespace Rendering

variable {e e' : Expr} {es : List Expr} {ps : List (Expr × Expr)} {us vs : List Token}
  {t o : Token}

theorem at_level (h : Rendering e us) (l : Level) (hl : l.rank ≤ Level.suffixed.rank) :
    Expression l us (e.move Span.erase) := h.derived.loosen hl

theorem literal (ht : t.IsSpelled) (hword : t.kind.isWord = true) (htext : e.text = t.literal)
    (hderived : Expression .primary [t.move Span.erase] (e.move Span.erase)) :
    Rendering e [t.move Span.erase] where
  derived := .next hderived
  lexes := htext ▸ ht.lexes hword
  head := fun rest => htext ▸ ht.head?_literal hword rest

theorem unary (op : UnaryOp) (ht : t.IsSpelled) (hop : t.kind = .symbol op.symbol)
    (h : Rendering e us) : Rendering (.unary t op e)
      (.ofSymbol .openParen :: (.ofSymbol op.symbol :: us ++ [.ofSymbol .closeParen])) where
  derived := by
    have hunary : Expression .unary (.ofSymbol op.symbol :: us)
        (.unary (.ofSymbol op.symbol) op (e.move Span.erase)) :=
      .unary op rfl (h.at_level _ (by decide))
    rw [Expr.move, ht.eq_ofSymbol hop]
    exact .next (.group rfl (hunary.loosen (by decide)) rfl)
  lexes := fun rest _ => by
    have htext : (Expr.unary t op e).text.toList ++ rest =
        '(' :: (op.text.toList ++ (e.text.toList ++ ')' :: rest)) := by simp [Expr.text]
    rw [htext, lexed_mark .openParen, lexed_unary op (h.head _), h.lexes.mark .closeParen]
    simp
  head := fun rest => by simp [Expr.text]

theorem binary (op : BinaryOp) (ht : t.IsSpelled) (hop : t.kind = .symbol op.symbol)
    (h : Rendering e us) (h' : Rendering e' vs) : Rendering (.binary t op e e')
      (.ofSymbol .openParen :: (us ++ .ofSymbol op.symbol :: vs ++ [.ofSymbol .closeParen])) where
  derived := by
    have hleft := h.at_level (level op) (by cases op <;> decide)
    have hright := h'.at_level (level op).next (by cases op <;> decide)
    have hbinary : Expression (level op) (us ++ .ofSymbol op.symbol :: vs)
        (.binary (.ofSymbol op.symbol) op (e.move Span.erase) (e'.move Span.erase)) :=
      .binary op hleft rfl hright
    rw [Expr.move, ht.eq_ofSymbol hop]
    exact .next (.group rfl (hbinary.loosen (Nat.zero_le _)) rfl)
  lexes := fun rest _ => by
    have htext : (Expr.binary t op e e').text.toList ++ rest = '(' :: (e.text.toList ++
        ' ' :: (op.text.toList ++ ' ' :: (e'.text.toList ++ ')' :: rest))) := by simp [Expr.text]
    rw [htext, lexed_mark .openParen, h.lexes.blank, lexed_operator, h'.lexes.mark .closeParen]
    simp
  head := fun rest => by simp [Expr.text]

theorem index (ho : o.IsSpelled) (hk : o.kind = .symbol .openBracket) (h : Rendering e us)
    (h' : Rendering e' vs) : Rendering (.index o e e')
      (.ofSymbol .openParen :: (us ++ .ofSymbol .openBracket :: (vs ++ [.ofSymbol .closeBracket]) ++
        [.ofSymbol .closeParen])) where
  derived := by
    have hindex : Expression .suffixed
        (us ++ .ofSymbol .openBracket :: (vs ++ [.ofSymbol .closeBracket]))
        (.index (.ofSymbol .openBracket) (e.move Span.erase) (e'.move Span.erase)) :=
      .index h.derived rfl (h'.at_level _ (by decide)) rfl
    rw [Expr.move, ho.eq_ofSymbol hk]
    exact .next (.group rfl (hindex.loosen (by decide)) rfl)
  lexes := fun rest _ => by
    have htext : (Expr.index o e e').text.toList ++ rest =
        '(' :: (e.text.toList ++ '[' :: (e'.text.toList ++ ']' :: ')' :: rest)) := by
      simp [Expr.text]
    rw [htext, lexed_mark .openParen, h.lexes.mark .openBracket, h'.lexes.mark .closeBracket,
      lexed_mark .closeParen]
    simp
  head := fun rest => by simp [Expr.text]

theorem call (ho : o.IsSpelled) (hk : o.kind = .symbol .openParen) (h : Rendering e us)
    (hs : ListRendering es vs) : Rendering (.call o e es)
      (us ++ .ofSymbol .openParen :: (vs ++ [.ofSymbol .closeParen])) := by
  have htext : ∀ rest, (Expr.call o e es).text.toList ++ rest =
      e.text.toList ++ '(' :: ((listing (es.map Expr.text)).toList ++ ')' :: rest) := by
    simp [Expr.text, Expr.texts_eq_map]
  refine ⟨?_, fun rest _ => ?_, fun rest => htext rest ▸ h.head _⟩
  · rw [Expr.move, ho.eq_ofSymbol hk, Expr.moveAll_eq_map]
    exact .call h.derived rfl hs.derived rfl
  · rw [htext, h.lexes.mark .openParen, hs.lexes.mark .closeParen]
    simp

theorem array (ho : o.IsSpelled) (hk : o.kind = .symbol .openBracket)
    (hs : ListRendering es vs) : Rendering (.array o es)
      (.ofSymbol .openBracket :: (vs ++ [.ofSymbol .closeBracket])) where
  derived := by
    rw [Expr.move, ho.eq_ofSymbol hk, Expr.moveAll_eq_map]
    exact .next (.array rfl hs.derived rfl)
  lexes := by
    refine hs.lexes.enclosed .openBracket .closeBracket ?_
    simp [Expr.text, Expr.texts_eq_map]
  head := fun rest => by simp [Expr.text]

theorem hash (ho : o.IsSpelled) (hk : o.kind = .symbol .openBrace)
    (hs : PairsRendering ps vs) : Rendering (.hash o ps)
      (.ofSymbol .openBrace :: (vs ++ [.ofSymbol .closeBrace])) where
  derived := by
    rw [Expr.move, ho.eq_ofSymbol hk, Expr.movePairs_eq_map]
    exact .next (.hash rfl hs.derived rfl)
  lexes := by
    have hpairs : Expr.pairTexts ps = ps.map pairText := Expr.pairTexts_eq_map ps
    refine hs.lexes.enclosed .openBrace .closeBrace ?_
    simp [Expr.text, hpairs]
  head := fun rest => by simp [Expr.text]

theorem pair (h : Rendering e us) (h' : Rendering e' vs) :
    PairRendering (e, e') (us ++ .ofSymbol .colon :: vs) where
  derived := .mk (h.at_level _ (by decide)) rfl (h'.at_level _ (by decide))
  lexes := h.lexes.pair h'.lexes

theorem single (h : Rendering e us) : ListRendering [e] us where
  derived := .single (h.at_level _ (by decide))
  lexes := h.lexes.listing_single

theorem cons (h : Rendering e us) (hs : ListRendering (e' :: es) vs) :
    ListRendering (e :: e' :: es) (us ++ .ofSymbol .comma :: vs) where
  derived := .cons (h.at_level _ (by decide)) rfl hs.derived
  lexes := h.lexes.listing_cons hs.lexes

end Rendering

theorem ListRendering.nil : ListRendering [] [] := ⟨.nil, fun _ _ => rfl⟩

theorem PairsRendering.nil : PairsRendering [] [] := ⟨.nil, fun _ _ => rfl⟩

theorem PairRendering.single {p : Expr × Expr} {us : List Token} (h : PairRendering p us) :
    PairsRendering [p] us where
  derived := .single h.derived
  lexes := h.lexes.listing_single

theorem PairRendering.cons {p p' : Expr × Expr} {ps : List (Expr × Expr)} {us vs : List Token}
    (h : PairRendering p us) (hs : PairsRendering (p' :: ps) vs) :
    PairsRendering (p :: p' :: ps) (us ++ .ofSymbol .comma :: vs) where
  derived := .cons h.derived rfl hs.derived
  lexes := h.lexes.listing_cons hs.lexes

mutual

/-- An expression that is derived from spelled tokens has a rendering. -/
theorem Expression.exists_rendering {l : Level} {ts : List Token} {e : Expr} : Expression l ts e →
    (∀ t ∈ ts, t.IsSpelled) → e.plain = .true → ∃ us, Rendering e us
  | .next h => fun hts hplain => h.exists_rendering hts hplain
  | .binary op hl ht hr => fun hts hplain => by
    simp only [List.forall_mem_append, List.forall_mem_cons] at hts
    rw [Expr.plain, Bool.and_eq_true] at hplain
    obtain ⟨hls, hspelled, hrs⟩ := hts
    obtain ⟨us, hus⟩ := hl.exists_rendering hls hplain.1
    obtain ⟨vs, hvs⟩ := hr.exists_rendering hrs hplain.2
    exact ⟨_, hus.binary op hspelled ht hvs⟩
  | .unary op ht h => fun hts hplain => by
    obtain ⟨hspelled, hts⟩ := List.forall_mem_cons.mp hts
    rw [Expr.plain] at hplain
    obtain ⟨us, hus⟩ := h.exists_rendering hts hplain
    exact ⟨_, hus.unary op hspelled ht⟩
  | .call hf ho ha hc => fun hts hplain => by
    simp only [List.forall_mem_append, List.forall_mem_cons] at hts
    rw [Expr.plain, Bool.and_eq_true] at hplain
    obtain ⟨hfs, hspelled, has, -⟩ := hts
    obtain ⟨us, hus⟩ := hf.exists_rendering hfs hplain.1
    obtain ⟨vs, hvs⟩ := ha.exists_rendering has hplain.2
    exact ⟨_, hus.call hspelled ho hvs⟩
  | .index hl ho hi hc => fun hts hplain => by
    simp only [List.forall_mem_append, List.forall_mem_cons] at hts
    rw [Expr.plain, Bool.and_eq_true] at hplain
    obtain ⟨hls, hspelled, his, -⟩ := hts
    obtain ⟨us, hus⟩ := hl.exists_rendering hls hplain.1
    obtain ⟨vs, hvs⟩ := hi.exists_rendering his hplain.2
    exact ⟨_, hus.index hspelled ho hvs⟩
  | .name ht => fun hts _ => by
    have hspelled := hts _ List.mem_cons_self
    exact ⟨_, .literal hspelled (by rw [ht]; rfl) (by rw [Expr.text]; rfl) (.name ht)⟩
  | .integer ht hv => fun hts _ => by
    have hspelled := hts _ List.mem_cons_self
    exact ⟨_, .literal hspelled (by rw [ht]; rfl) (by rw [Expr.text]) (.integer ht hv)⟩
  | .true ht => fun hts _ => by
    have hspelled := hts _ List.mem_cons_self
    exact ⟨_, .literal hspelled (by rw [ht]; rfl) (by rw [Expr.text]) (.true ht)⟩
  | .false ht => fun hts _ => by
    have hspelled := hts _ List.mem_cons_self
    exact ⟨_, .literal hspelled (by rw [ht]; rfl) (by rw [Expr.text]) (.false ht)⟩
  | .group ho h hc => fun hts hplain => by
    simp only [List.forall_mem_append, List.forall_mem_cons] at hts
    exact h.exists_rendering hts.2.1 hplain
  | .array ho h hc => fun hts hplain => by
    simp only [List.forall_mem_append, List.forall_mem_cons] at hts
    obtain ⟨hspelled, hts, -⟩ := hts
    rw [Expr.plain] at hplain
    obtain ⟨us, hus⟩ := h.exists_rendering hts hplain
    exact ⟨_, .array hspelled ho hus⟩
  | .hash ho h hc => fun hts hplain => by
    simp only [List.forall_mem_append, List.forall_mem_cons] at hts
    obtain ⟨hspelled, hts, -⟩ := hts
    rw [Expr.plain] at hplain
    obtain ⟨us, hus⟩ := h.exists_rendering hts hplain
    exact ⟨_, .hash hspelled ho hus⟩
  | .string _ | .cond _ _ _ _ _ | .condElse _ _ _ _ _ _ _ | .function _ _ _ _ _ =>
    fun _ hplain => by simp [Expr.plain] at hplain

theorem Expressions.exists_rendering {ts : List Token} {es : List Expr} : Expressions ts es →
    (∀ t ∈ ts, t.IsSpelled) → Expr.allPlain es = .true → ∃ us, ListRendering es us
  | .nil => fun _ _ => ⟨_, .nil⟩
  | .single h => fun hts hplain => by
    rw [Expr.allPlain, Bool.and_eq_true] at hplain
    obtain ⟨us, hus⟩ := h.exists_rendering hts hplain.1
    exact ⟨_, hus.single⟩
  | .cons h hc hs => fun hts hplain => by
    simp only [List.forall_mem_append, List.forall_mem_cons] at hts
    rw [Expr.allPlain, Bool.and_eq_true] at hplain
    obtain ⟨us, hus⟩ := h.exists_rendering hts.1 hplain.1
    obtain ⟨vs, hvs⟩ := hs.exists_rendering hts.2.2 hplain.2
    exact ⟨_, hus.cons hvs⟩

theorem Pair.exists_rendering {ts : List Token} {p : Expr × Expr} : Pair ts p →
    (∀ t ∈ ts, t.IsSpelled) → p.1.plain = .true → p.2.plain = .true → ∃ us, PairRendering p us
  | .mk hk hc hv => fun hts hkey hvalue => by
    simp only [List.forall_mem_append, List.forall_mem_cons] at hts
    obtain ⟨us, hus⟩ := hk.exists_rendering hts.1 hkey
    obtain ⟨vs, hvs⟩ := hv.exists_rendering hts.2.2 hvalue
    exact ⟨_, hus.pair hvs⟩

theorem Pairs.exists_rendering {ts : List Token} {ps : List (Expr × Expr)} : Pairs ts ps →
    (∀ t ∈ ts, t.IsSpelled) → Expr.pairsPlain ps = .true → ∃ us, PairsRendering ps us
  | .nil => fun _ _ => ⟨_, .nil⟩
  | .single h => fun hts hplain => by
    simp only [Expr.pairsPlain, Bool.and_eq_true] at hplain
    obtain ⟨us, hus⟩ := h.exists_rendering hts hplain.1.1 hplain.1.2
    exact ⟨_, hus.single⟩
  | .cons h hc hs => fun hts hplain => by
    simp only [List.forall_mem_append, List.forall_mem_cons] at hts
    rw [Expr.pairsPlain, Bool.and_eq_true, Bool.and_eq_true] at hplain
    obtain ⟨us, hus⟩ := h.exists_rendering hts.1 hplain.1.1 hplain.1.2
    obtain ⟨vs, hvs⟩ := hs.exists_rendering hts.2.2 hplain.2
    exact ⟨_, hus.cons hvs⟩

end

/-- A binding or a return is written with its semicolon, and so may stand in front of anything. -/
theorem Statement.exists_lexed {ts : List Token} {s : Stmt} (h : Statement ts s)
    (hts : ∀ t ∈ ts, t.IsSpelled) (hplain : s.plain = .true) (hs : s.isExpression = .false) :
    ∃ us, Statement us (s.move Span.erase) ∧ ∀ rest,
      lexed (s.text.toList ++ rest) = us ++ .ofSymbol .semicolon :: lexed rest := by
  cases h with
  | @bind t x a ts e ht hx ha h =>
    simp only [List.forall_mem_cons] at hts
    obtain ⟨hlet, hname, -, hts⟩ := hts
    obtain ⟨us, hus⟩ := h.exists_rendering hts hplain
    refine ⟨t.move Span.erase :: x.move Span.erase :: .ofSymbol .assign :: us,
      .bind ht hx rfl (hus.at_level _ (by decide)), fun rest => ?_⟩
    have htext : (Stmt.bind t ⟨x⟩ e).text.toList ++ rest = t.literal.toList ++ ' ' ::
        (x.literal.toList ++ ' ' :: '=' :: ' ' :: (e.text.toList ++ ';' :: rest)) := by
      simp [Stmt.text, Name.text, hlet.literal_eq ht, Keyword.text]
    have hassign : lexed ('=' :: ' ' :: (e.text.toList ++ ';' :: rest)) =
        .ofSymbol .assign :: (us ++ .ofSymbol .semicolon :: lexed rest) := by
      rw [lexed_char (s := .assign) rfl (by simp), lexed_blank, hus.lexes.mark .semicolon]
    rw [htext, (hlet.lexes (by rw [ht]; rfl)).blank, (hname.lexes (by rw [hx]; rfl)).blank, hassign]
    simp
  | @«return» t ts e ht h =>
    obtain ⟨hreturn, hts⟩ := List.forall_mem_cons.mp hts
    obtain ⟨us, hus⟩ := h.exists_rendering hts hplain
    refine ⟨t.move Span.erase :: us, .return ht (hus.at_level _ (by decide)), fun rest => ?_⟩
    have htext : (Stmt.return t e).text.toList ++ rest =
        t.literal.toList ++ ' ' :: (e.text.toList ++ ';' :: rest) := by
      simp [Stmt.text, hreturn.literal_eq ht, Keyword.text]
    rw [htext, (hreturn.lexes (by rw [ht]; rfl)).blank, hus.lexes.mark .semicolon]
    simp
  | expr h => cases hs

end Grammar

theorem Expr.erase_erase (e : Expr) :
    (e.move Span.erase).move Span.erase = e.move Span.erase := e.move_move _ _

/-- A statement without its place, and without the token at which an expression statement begins. -/
def Stmt.bare : Stmt → Stmt
  | .expr _ value => .expr (.endOfInput 0) (value.move Span.erase)
  | s => s.move Span.erase

theorem Stmt.bare_move (s : Stmt) : (s.move Span.erase).bare = s.bare := by
  cases s with
  | expr t value => simp only [Stmt.move, Stmt.bare, Expr.erase_erase]
  | bind t x value => exact Stmt.move_move _ _ _
  | «return» t value => exact Stmt.move_move _ _ _

theorem Stmt.text_bare (s : Stmt) : s.bare.text = s.text := by
  cases s with
  | expr t value => simp only [Stmt.bare, Stmt.text, Expr.text_move]
  | bind t x value => exact Stmt.text_move _ _
  | «return» t value => exact Stmt.text_move _ _

namespace Grammar

theorem Statements.uncons {ts : List Token} {s : Stmt} {ss : List Stmt}
    (h : Statements ts (s :: ss)) : ∃ us vs, (∀ t ∈ us, t ∈ ts) ∧ (∀ t ∈ vs, t ∈ ts) ∧
      Statement us s ∧ Statements vs ss := by
  cases h with
  | @closed c us vs _ _ h hc hs =>
    exact ⟨us, vs, fun t ht => List.mem_append_left _ ht,
      fun t ht => List.mem_append_right _ (List.mem_cons_of_mem _ ht), h, hs⟩
  | @opened us vs _ _ h hu hs =>
    exact ⟨us, vs, fun t => List.mem_append_left _, fun t => List.mem_append_right _, h, hs⟩

/-- An expression statement is written without a semicolon, and so may stand only at the end. -/
theorem Statement.exists_lexed_last {ts : List Token} {s : Stmt} (h : Statement ts s)
    (hts : ∀ t ∈ ts, t.IsSpelled) (hplain : s.plain = .true) (hs : s.isExpression = .true) :
    ∃ us s', Statement us s' ∧ s'.bare = s.bare ∧ lexed s.text.toList = us := by
  cases h with
  | expr h =>
    obtain ⟨us, hus⟩ := h.exists_rendering hts hplain
    obtain ⟨u, us, rfl, -⟩ := hus.derived.head
    refine ⟨u :: us, _, .expr (hus.at_level _ (by decide)), ?_, hus.lexes.lexed_eq⟩
    simp only [Stmt.bare, Expr.erase_erase]
  | bind ht hx ha h => cases hs
  | «return» ht h => cases hs

/-- Statements are written as tokens that derive them again, as long as only the last of them is an
expression. -/
theorem Statements.exists_lexed {ts : List Token} {ss : List Stmt} (h : Statements ts ss)
    (hts : ∀ t ∈ ts, t.IsSpelled) (hplain : ∀ s ∈ ss, s.plain = .true)
    (hlast : ∀ s ∈ ss.dropLast, s.isExpression = .false) :
    ∃ us ss', Statements us ss' ∧ ss'.map Stmt.bare = ss.map Stmt.bare ∧
      lexed (String.join (ss.map Stmt.text)).toList = us := by
  induction ss generalizing ts with
  | nil => exact ⟨[], [], .nil, rfl, lexed_nil⟩
  | cons s ss ih =>
    obtain ⟨us, vs, hus, hvs, hstatement, hstatements⟩ := h.uncons
    obtain ⟨hs, hss⟩ := List.forall_mem_cons.mp hplain
    cases hkind : s.isExpression with
    | true =>
      cases ss with
      | nil =>
        obtain ⟨ws, s', hws, hbare, hlexed⟩ :=
          hstatement.exists_lexed_last (fun t ht => hts t (hus t ht)) hs hkind
        refine ⟨ws, [s'], List.append_nil ws ▸ .opened hws nofun .nil, by simp [hbare], ?_⟩
        simpa [String.join] using hlexed
      | cons s' ss =>
        have hfalse := hlast s List.mem_cons_self
        rw [hkind] at hfalse
        cases hfalse
    | false =>
      have hlater : ∀ s' ∈ ss.dropLast, s'.isExpression = .false := by
        cases ss with
        | nil => simp
        | cons s' ss => exact fun s' hs' => hlast s' (List.mem_cons_of_mem _ hs')
      obtain ⟨ws, hws, hlexed⟩ :=
        hstatement.exists_lexed (fun t ht => hts t (hus t ht)) hs hkind
      obtain ⟨us', ss', hus', hbare, hrest⟩ :=
        ih hstatements (fun t ht => hts t (hvs t ht)) hss hlater
      refine ⟨ws ++ .ofSymbol .semicolon :: us', s.move Span.erase :: ss', .closed hws rfl hus',
        by simp [hbare, Stmt.bare_move], ?_⟩
      rw [List.map_cons, String.join_cons, String.toList_append, hlexed, hrest]

end Grammar

namespace Program

open Grammar

/-- A text whose tokens derive statements is read as those statements, in its own places. -/
theorem exists_parse_of_lexed {source : String} {ss : List Stmt}
    (h : Statements (lexed source.toList) ss) :
    ∃ p, parse source = .ok p ∧ p.statements.map (Stmt.move Span.erase) = ss := by
  have hmove := Reading.ofTokens_move Span.erase (.endOfInput (Lexer.ofString source).stop)
    (Lexer.ofString source).tokens
  have hlexed : (Lexer.ofString source).tokens.map (Token.move Span.erase) =
    lexed source.toList := rfl
  rw [hlexed, h.reads_text] at hmove
  obtain ⟨hprogram, hdiagnostics⟩ := Reading.mk.inj hmove
  have hnil : (Reading.ofSource source).diagnostics = [] :=
    List.map_eq_nil_iff.mp hdiagnostics.symm
  exact ⟨(Reading.ofSource source).program, by simp [parse, hnil],
    (Program.mk.inj hprogram).symm⟩

theorem text_eq_of_bare {p q : Program}
    (h : q.statements.map Stmt.bare = p.statements.map Stmt.bare) : q.text = p.text := by
  have hbare : ∀ ss : List Stmt, ss.map Stmt.text = (ss.map Stmt.bare).map Stmt.text := by
    simp [Stmt.text_bare]
  rw [text, text, hbare, h, ← hbare]

/-- The written form of a program without strings, conditionals and function literals, in which
only the last statement is an expression, is read as the same program in another place; so it is
the written form of what it is read as. -/
theorem parse_text {source : String} {p : Program} (hp : parse source = .ok p)
    (hplain : ∀ s ∈ p.statements, s.plain = true)
    (hlast : ∀ s ∈ p.statements.dropLast, s.isExpression = false) :
    ∃ q, parse p.text = .ok q ∧ q.statements.map Stmt.bare = p.statements.map Stmt.bare ∧
      q.text = p.text := by
  have hderived := isProgram_tokenize_iff.mp (isProgram_of_parse hp)
  have hspelled := (Lexer.scans_tokens (Lexer.ofString source)).isSpelled
  obtain ⟨us, ss, hus, hbare, rfl⟩ := hderived.exists_lexed hspelled hplain hlast
  obtain ⟨q, hq, rfl⟩ := exists_parse_of_lexed hus
  have hsame : q.statements.map Stmt.bare = p.statements.map Stmt.bare := by
    rw [← hbare, List.map_map]
    exact List.map_congr_left fun s _ => s.bare_move.symm
  exact ⟨q, hq, hsame, text_eq_of_bare hsame⟩

/-- A binding, a return and an expression, with operators, calls and indexings under one another. -/
theorem parse_text_nested : ∃ p,
    parse "let a = -b[0] * f(1); return \x7ba: 2\x7d; !g(a)(b) == [c]" = .ok p ∧
      p.text = "let a = ((-(b[0])) * f(1));return \x7ba: 2\x7d;((!g(a)(b)) == [c])" ∧
      ∃ q, parse p.text = .ok q ∧ q.statements.map Stmt.bare = p.statements.map Stmt.bare ∧
        q.text = p.text := by
  have hread : (parse
      "let a = -b[0] * f(1); return \x7ba: 2\x7d; !g(a)(b) == [c]").toOption.any fun p =>
        p.statements.all Stmt.plain && p.statements.dropLast.all (! ·.isExpression) &&
        p.text == "let a = ((-(b[0])) * f(1));return \x7ba: 2\x7d;((!g(a)(b)) == [c])" := by
    decide +kernel
  cases hp : parse "let a = -b[0] * f(1); return \x7ba: 2\x7d; !g(a)(b) == [c]" with
  | error ds =>
    rw [hp] at hread
    cases hread
  | ok p =>
    simp only [hp, Except.toOption, Option.any_some, Bool.and_eq_true, List.all_eq_true,
      Bool.not_eq_true', beq_iff_eq] at hread
    obtain ⟨⟨hplain, hlast⟩, htext⟩ := hread
    exact ⟨p, rfl, htext, parse_text hp hplain hlast⟩

end Program

end Monkey
