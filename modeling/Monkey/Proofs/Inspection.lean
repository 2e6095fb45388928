import Monkey.Proofs.DataLiteral
import Monkey.Proofs.Reprint
import Monkey.Session

/-!
The written form of data is a program for it. What is written of integers, truth values, arrays and
hashes is lexed into tokens that derive an expression for the same data, with one exception: the
digits of the smallest integer, behind their minus sign, are too large for an integer token, so a
text with this integer in it cannot be read.
-/

namespace Monkey

open Machine Eval Grammar

/-- If an integer, then one that can be read. -/
def Token.Fits (t : Token) : Prop :=
  t.kind = .integer → Text.Decimal.value t.literal.toList ≤ Nat.pow 2 63 - 1

namespace Token.Fits

variable {t : Token}

theorem of_kind {k : Token.Kind} (ht : t.kind = k) (hk : k ≠ .integer) : t.Fits :=
  fun h => absurd (ht.symm.trans h) hk

theorem of_symbol {s : Symbol} (ht : t.kind = .symbol s) : t.Fits := of_kind ht (by simp)

theorem of_keyword {w : Keyword} (ht : t.kind = .keyword w) : t.Fits := of_kind ht (by simp)

end Token.Fits

namespace Grammar

theorem fits_between {o c : Token} {s s' : Symbol} {ts : List Token} (ho : o.kind = .symbol s)
    (h : ∀ t ∈ ts, t.Fits) (hc : c.kind = .symbol s') : ∀ t ∈ o :: (ts ++ [c]), t.Fits := by
  simp only [List.forall_mem_append, List.forall_mem_cons]
  exact ⟨.of_symbol ho, h, .of_symbol hc, List.forall_mem_nil _⟩

theorem Names.fits {ts : List Token} {xs : List Name} (h : Names ts xs) : ∀ t ∈ ts, t.Fits := by
  induction h with
  | nil => simp
  | single ht => simpa using Token.Fits.of_kind ht (by simp)
  | cons ht hc _ ih =>
    simp only [List.forall_mem_cons]
    exact ⟨.of_kind ht (by simp), .of_symbol hc, ih⟩

mutual

/-- No token of an expression is too large. -/
theorem Expression.fits {l : Level} {ts : List Token} {e : Expr} : Expression l ts e →
    ∀ t ∈ ts, t.Fits
  | .next h => h.fits
  | .binary op hl ht hr => by
    simp only [List.forall_mem_append, List.forall_mem_cons]
    exact ⟨hl.fits, .of_symbol ht, hr.fits⟩
  | .unary op ht h => by
    simp only [List.forall_mem_cons]
    exact ⟨.of_symbol ht, h.fits⟩
  | .call hf ho ha hc => List.forall_mem_append.mpr ⟨hf.fits, fits_between ho ha.fits hc⟩
  | .index hl ho hi hc => List.forall_mem_append.mpr ⟨hl.fits, fits_between ho hi.fits hc⟩
  | .integer _ hv => by
    simp only [List.forall_mem_singleton]
    exact fun _ => hv
  | .name ht | .string ht | .true ht | .false ht => by
    simp only [List.forall_mem_singleton]
    exact .of_kind ht (by simp)
  | .group ho h hc => fits_between ho h.fits hc
  | .cond ht ho he hc hb => by
    simp only [List.forall_mem_append, List.forall_mem_cons]
    exact ⟨.of_keyword ht, .of_symbol ho, he.fits, .of_symbol hc, hb.fits⟩
  | .condElse ht ho he hc hb hw ha => by
    simp only [List.forall_mem_append, List.forall_mem_cons]
    exact ⟨.of_keyword ht, .of_symbol ho, he.fits, .of_symbol hc, hb.fits,
      .of_keyword hw, ha.fits⟩
  | .function ht ho hp hc hb => by
    simp only [List.forall_mem_append, List.forall_mem_cons]
    exact ⟨.of_keyword ht, .of_symbol ho, hp.fits, .of_symbol hc, hb.fits⟩
  | .array ho h hc => fits_between ho h.fits hc
  | .hash ho h hc => fits_between ho h.fits hc

theorem Expressions.fits {ts : List Token} {es : List Expr} : Expressions ts es →
    ∀ t ∈ ts, t.Fits
  | .nil => List.forall_mem_nil _
  | .single h => h.fits
  | .cons h hc hs => by
    simp only [List.forall_mem_append, List.forall_mem_cons]
    exact ⟨h.fits, .of_symbol hc, hs.fits⟩

theorem Pair.fits {ts : List Token} {p : Expr × Expr} : Pair ts p → ∀ t ∈ ts, t.Fits
  | .mk hk hc hv => by
    simp only [List.forall_mem_append, List.forall_mem_cons]
    exact ⟨hk.fits, .of_symbol hc, hv.fits⟩

theorem Pairs.fits {ts : List Token} {ps : List (Expr × Expr)} : Pairs ts ps →
    ∀ t ∈ ts, t.Fits
  | .nil => List.forall_mem_nil _
  | .single h => h.fits
  | .cons h hc hs => by
    simp only [List.forall_mem_append, List.forall_mem_cons]
    exact ⟨h.fits, .of_symbol hc, hs.fits⟩

theorem Braces.fits {ts : List Token} {b : Block} : Braces ts b → ∀ t ∈ ts, t.Fits
  | .mk ho h hc => fits_between ho h.fits hc

theorem Statement.fits {ts : List Token} {s : Stmt} : Statement ts s → ∀ t ∈ ts, t.Fits
  | .bind ht hx ha h => by
    simp only [List.forall_mem_cons]
    exact ⟨.of_keyword ht, .of_kind hx (by simp), .of_symbol ha, h.fits⟩
  | .return ht h => by
    simp only [List.forall_mem_cons]
    exact ⟨.of_keyword ht, h.fits⟩
  | .expr h => h.fits

theorem Statements.fits {ts : List Token} {ss : List Stmt} : Statements ts ss →
    ∀ t ∈ ts, t.Fits
  | .nil => List.forall_mem_nil _
  | .closed h hc hs => by
    simp only [List.forall_mem_append, List.forall_mem_cons]
    exact ⟨h.fits, .of_symbol hc, hs.fits⟩
  | .opened h _ hs => List.forall_mem_append.mpr ⟨h.fits, hs.fits⟩

end

end Grammar

namespace Value

/-- An integer, a truth value, an array, or a hash made of pairs with integers and truth values as
keys. -/
def DataPart : Value → Prop
  | integer _ | boolean _ | array _ _ => True
  | hash _ h => ∃ ps, (∀ p ∈ ps, p.1.kind = .integer ∨ p.1.kind = .boolean) ∧ h = Hash.ofPairs ps
  | _ => False

/-- Nothing but integers, truth values, arrays and hashes, at any depth. -/
def IsData (v : Value) : Prop := v.All DataPart

theorem isData_integer (n : Int64) : (integer n).IsData := all_of_stored_eq_nil rfl trivial

theorem isData_boolean (b : Bool) : (boolean b).IsData := all_of_stored_eq_nil rfl trivial

theorem isData_array (id : Identity) {vs : List Value} (hvs : ∀ v ∈ vs, v.IsData) :
    (array id vs).IsData := all_array_iff.mpr ⟨trivial, hvs⟩

/-- Whatever pairs are put into a hash, it has no others. -/
theorem isData_hash (id : Identity) {ps : List (Value × Value)}
    (hkinds : ∀ p ∈ ps, p.1.kind = .integer ∨ p.1.kind = .boolean)
    (hps : ∀ p ∈ ps, p.1.IsData ∧ p.2.IsData) : (hash id (Hash.ofPairs ps)).IsData :=
  all_hash_iff.mpr ⟨⟨ps, hkinds, rfl⟩, fun p hp => hps p (Hash.mem_of_mem_pairs_ofPairs hp)⟩

/-- The tokens derive an expression for the value. -/
def Derives (v : Value) (us : List Token) : Prop := ∃ e, Expression .unary us e ∧ Denotes e v

/-- The tokens derive expressions for the values, with commas between them. -/
def DerivesAll (vs : List Value) (us : List Token) : Prop :=
  ∃ es, Expressions us es ∧ DenoteAll es vs

/-- The tokens derive expressions for a key and its value. -/
def DerivesPair (p : Value × Value) (us : List Token) : Prop :=
  ∃ key value, Pair us (key, value) ∧ Denotes key p.1 ∧ p.1.isKey = true ∧ Denotes value p.2

def DerivesPairs (ps : List (Value × Value)) (us : List Token) : Prop :=
  ∃ es, Pairs us es ∧ DenotePairs es ps

section Derives

variable {v w : Value} {vs : List Value} {p q : Value × Value} {ps : List (Value × Value)}
  {us ts : List Token}

theorem Derives.single (h : v.Derives us) : DerivesAll [v] us := by
  obtain ⟨e, hderived, hdenotes⟩ := h
  exact ⟨[e], .single (hderived.loosen (by decide)), .cons hdenotes .nil⟩

theorem Derives.cons (h : v.Derives us) (hs : DerivesAll (w :: vs) ts) :
    DerivesAll (v :: w :: vs) (us ++ .ofSymbol .comma :: ts) := by
  obtain ⟨e, hderived, hdenotes⟩ := h
  obtain ⟨es, hall, hw⟩ := hs
  cases hw with
  | cons hw hvs =>
    exact ⟨_, .cons (hderived.loosen (by decide)) rfl hall, .cons hdenotes (.cons hw hvs)⟩

theorem DerivesAll.array (id : Identity) (h : DerivesAll vs us) :
    (array id vs).Derives (.ofSymbol .openBracket :: (us ++ [.ofSymbol .closeBracket])) := by
  obtain ⟨es, hall, hvs⟩ := h
  have harray : Expression .primary (.ofSymbol .openBracket :: (us ++ [.ofSymbol .closeBracket]))
    (.array (.ofSymbol .openBracket) es) := .array rfl hall rfl
  exact ⟨_, harray.loosen (by decide), .array _ id hvs⟩

theorem Derives.pair (h : p.1.Derives us) (hk : p.1.isKey = true) (h' : p.2.Derives ts) :
    DerivesPair p (us ++ .ofSymbol .colon :: ts) := by
  obtain ⟨key, hkey, hdenotes⟩ := h
  obtain ⟨value, hvalue, hdenotes'⟩ := h'
  exact ⟨key, value, .mk (hkey.loosen (by decide)) rfl (hvalue.loosen (by decide)), hdenotes, hk,
    hdenotes'⟩

theorem DerivesPair.single (h : DerivesPair p us) : DerivesPairs [p] us := by
  obtain ⟨key, value, hpair, hkey, hk, hvalue⟩ := h
  exact ⟨[(key, value)], .single hpair, .cons hkey hk hvalue .nil⟩

theorem DerivesPair.cons (h : DerivesPair p us) (hs : DerivesPairs (q :: ps) ts) :
    DerivesPairs (p :: q :: ps) (us ++ .ofSymbol .comma :: ts) := by
  obtain ⟨key, value, hpair, hkey, hk, hvalue⟩ := h
  obtain ⟨es, hpairs, hq⟩ := hs
  cases hq with
  | cons hkey' hk' hvalue' hps =>
    exact ⟨_, .cons hpair rfl hpairs, .cons hkey hk hvalue (.cons hkey' hk' hvalue' hps)⟩

/-- The expression for a hash denotes what its pairs make, one inserted after another. -/
theorem DerivesPairs.hash (id : Identity) (h : DerivesPairs ps us) :
    (hash id (Hash.ofPairs ps)).Derives
      (.ofSymbol .openBrace :: (us ++ [.ofSymbol .closeBrace])) := by
  obtain ⟨es, hpairs, hps⟩ := h
  have hhash : Expression .primary (.ofSymbol .openBrace :: (us ++ [.ofSymbol .closeBrace]))
    (.hash (.ofSymbol .openBrace) es) := .hash rfl hpairs rfl
  exact ⟨_, hhash.loosen (by decide), .hash _ id hps⟩

end Derives

end Value

open Value

/-- A text is lexed into tokens for some values: they have a property if the smallest integer is not
among the values, and one of them is too large if it is. -/
structure Spelling (text : String) (values : List Value) (Q : List Token → Prop)
    (us : List Token) : Prop where
  lexes : Lexes text us
  derived : integer Int64.minValue ∉ values → Q us
  overflows : integer Int64.minValue ∈ values → ∃ t ∈ us, ¬ t.Fits

namespace Spelling

variable {a b text : String} {vs ws : List Value} {Q Q' R : List Token → Prop} {us ts : List Token}

theorem mono (h : Spelling text vs Q us) (hQ : Q us → R us) : Spelling text vs R us where
  lexes := h.lexes
  derived := fun hvs => hQ (h.derived hvs)
  overflows := h.overflows

/-- Two spellings with a symbol between them. -/
theorem join (s : Symbol) (h : Spelling a vs Q us) (h' : Spelling b ws Q' ts)
    (hlexes : Lexes text (us ++ .ofSymbol s :: ts))
    (hR : Q us → Q' ts → R (us ++ .ofSymbol s :: ts)) :
    Spelling text (vs ++ ws) R (us ++ .ofSymbol s :: ts) where
  lexes := hlexes
  derived := fun hmin => by
    rw [List.mem_append, not_or] at hmin
    exact hR (h.derived hmin.1) (h'.derived hmin.2)
  overflows := fun hmin => by
    rcases List.mem_append.mp hmin with hleft | hright
    · obtain ⟨t, ht, hlarge⟩ := h.overflows hleft
      exact ⟨t, List.mem_append_left _ ht, hlarge⟩
    · obtain ⟨t, ht, hlarge⟩ := h'.overflows hright
      exact ⟨t, List.mem_append_right _ (List.mem_cons_of_mem _ ht), hlarge⟩

/-- A spelling between two marks, for a value that holds what is spelled. -/
theorem enclose {v : Value} {o c : Char} {s s' : Symbol} (h : Spelling a vs Q us) (ho : IsMark o s)
    (hc : IsMark c s') (htext : text.toList = o :: (a.toList ++ [c]))
    (hv : v ≠ integer Int64.minValue)
    (hR : Q us → R (.ofSymbol s :: (us ++ [.ofSymbol s']))) :
    Spelling text (v :: vs) R (.ofSymbol s :: (us ++ [.ofSymbol s'])) where
  lexes := h.lexes.enclosed ho hc htext
  derived := fun hmin => hR (h.derived fun hmem => hmin (List.mem_cons_of_mem _ hmem))
  overflows := fun hmin => by
    rcases List.mem_cons.mp hmin with heq | hmem
    · exact absurd heq.symm hv
    · obtain ⟨t, ht, hlarge⟩ := h.overflows hmem
      exact ⟨t, List.mem_cons_of_mem _ (List.mem_append_left _ ht), hlarge⟩

end Spelling

/-- The digits of a number as a token. -/
def Token.numeral (n : Nat) : Token :=
  ⟨.integer, String.ofList (Text.Decimal.digits n), .empty 0⟩

section Numeral

variable (n : Nat)

theorem isSpelled_numeral : (Token.numeral n).IsSpelled := by
  have hdigits : ∀ c ∈ Text.Decimal.digits n, c.isDigit = true :=
    fun c => Text.Decimal.isDigit_of_mem_digits
  exact ⟨Text.Decimal.digits n, [], .integer Nat.toDigits_ne_nil hdigits nofun⟩

theorem fits_numeral : (Token.numeral n).Fits ↔ n ≤ Nat.pow 2 63 - 1 := by
  simp [Token.Fits, Token.numeral]

theorem lexes_numeral : Lexes (String.ofList (Text.Decimal.digits n)) [.numeral n] :=
  (isSpelled_numeral n).lexes rfl

theorem lexes_minus_numeral :
    Lexes (String.ofList ('-' :: Text.Decimal.digits n)) [.ofSymbol .minus, .numeral n] := by
  intro rest hrest
  have hhead : (Text.Decimal.digits n ++ rest).head? ≠ some '=' := by
    have hword := (isSpelled_numeral n).head?_literal rfl rest
    rwa [Token.numeral, String.toList_ofList] at hword
  have hdigits := lexes_numeral n hrest
  rw [String.toList_ofList] at hdigits ⊢
  exact (lexed_unary .negate hhead).trans (congrArg _ hdigits)

theorem expression_numeral (h : n ≤ Nat.pow 2 63 - 1) :
    Expression .primary [.numeral n] (.integer (.numeral n) (Int64.ofNat n)) := by
  have hvalue : Text.Decimal.value (Token.numeral n).literal.toList = n := by simp [Token.numeral]
  have hderived : Expression .primary [.numeral n] (.integer (.numeral n)
      (Int64.ofNat (Text.Decimal.value (Token.numeral n).literal.toList))) :=
    .integer rfl (by rw [hvalue]; exact h)
  rwa [hvalue] at hderived

end Numeral

/-- What is derived from the spellings of items, alone and with commas between them, is derived from
the spelling of their list. -/
theorem exists_spelling_listing {α : Type} {text : α → String} {values : α → List Value}
    {Q : α → List Token → Prop} {R : List α → List Token → Prop} (hnil : R [] [])
    (hsingle : ∀ {a us}, Q a us → R [a] us)
    (hcons : ∀ {a b as us ts}, Q a us → R (b :: as) ts →
      R (a :: b :: as) (us ++ .ofSymbol .comma :: ts))
    {as : List α} (h : ∀ a ∈ as, ∃ us, Spelling (text a) (values a) (Q a) us) :
    ∃ us, Spelling (listing (as.map text)) (as.flatMap values) (R as) us := by
  induction as with
  | nil => exact ⟨[], fun _ _ => rfl, fun _ => hnil, nofun⟩
  | cons a as ih =>
    obtain ⟨⟨us, hus⟩, has⟩ := List.forall_mem_cons.mp h
    cases as with
    | nil =>
      -- The last item has no comma behind it.
      have htext : listing ([a].map text) = text a := String.intercalate_singleton
      rw [htext, List.flatMap_singleton]
      exact ⟨us, hus.mono hsingle⟩
    | cons b as =>
      obtain ⟨ts, hts⟩ := ih has
      exact ⟨_, hus.join .comma hts (hus.lexes.listing_cons hts.lexes) hcons⟩

namespace Value

theorem allStored_eq_flatMap (vs : List Value) : allStored vs = vs.flatMap parts := by
  induction vs with
  | nil => rfl
  | cons v vs ih => simp [allStored, parts, ih]

theorem pairsStored_eq_flatMap (ps : List (Value × Value)) :
    pairsStored ps = ps.flatMap fun p => p.1.parts ++ p.2.parts := by
  induction ps with
  | nil => rfl
  | cons p ps ih => simp [pairsStored, parts, ih]

/-- Lexed into tokens that derive an expression for the value, but for the smallest integer. -/
def Spellable (v : Value) : Prop := ∃ us, Spelling v.inspect v.parts v.Derives us

section Integer

variable {n : Int64} {k : Nat}

theorem spelling_ofNat (hn : n.toInt = .ofNat k) :
    Spelling (integer n).inspect [integer n] (integer n).Derives [.numeral k] := by
  have hlt := n.toInt_lt
  rw [hn, Int.ofNat_eq_natCast] at hlt
  have hpow : Nat.pow 2 63 = 9223372036854775808 := rfl
  have hvalue : Int64.ofNat k = n := by
    rw [← Int64.toInt_inj, Int64.toInt_ofNat_of_lt (by omega), hn]
    rfl
  refine ⟨?_, fun _ => ?_, fun hmin => ?_⟩
  · rw [inspect, hn]
    exact lexes_numeral k
  · have hderived := expression_numeral k (by omega)
    rw [hvalue] at hderived
    exact ⟨_, hderived.loosen (by decide), .integer _ n⟩
  · obtain rfl := Value.integer.inj (List.mem_singleton.mp hmin)
    cases hn

/-- Of the negative numbers, all but the smallest are the negation of one that can be read. -/
theorem spelling_negSucc (hn : n.toInt = .negSucc k) :
    Spelling (integer n).inspect [integer n] (integer n).Derives
      [.ofSymbol .minus, .numeral (k + 1)] := by
  have hge := n.le_toInt
  rw [hn, Int.negSucc_eq] at hge
  have hpow : Nat.pow 2 63 = 9223372036854775808 := rfl
  have hvalue : -Int64.ofNat (k + 1) = n := by
    rw [← Int64.toInt_inj, Int64.toInt_neg_ofNat_of_le (by omega), hn]
    rfl
  refine ⟨?_, fun hmin => ?_, fun hmin => ?_⟩
  · rw [inspect, hn]
    exact lexes_minus_numeral (k + 1)
  · have hne : n.toInt ≠ Int64.minValue.toInt := by
      rw [Ne, Int64.toInt_inj]
      rintro rfl
      exact hmin (List.mem_singleton_self _)
    rw [Int64.toInt_minValue, hn, Int.negSucc_eq] at hne
    -- Without the smallest integer, `k + 1` is itself an integer that can be written.
    have hderived := expression_numeral (k + 1) (by omega)
    have hdenotes := Denotes.negate (.ofSymbol .minus)
      (Denotes.integer (.numeral (k + 1)) (Int64.ofNat (k + 1)))
    rw [hvalue] at hdenotes
    exact ⟨_, .unary .negate rfl (hderived.loosen (by decide)), hdenotes⟩
  · obtain rfl := Value.integer.inj (List.mem_singleton.mp hmin)
    rw [Int64.toInt_minValue, Int.negSucc_eq] at hn
    refine ⟨.numeral (k + 1), by simp, ?_⟩
    rw [fits_numeral]
    omega

end Integer

theorem spellable_integer (n : Int64) : (integer n).Spellable := by
  cases hn : n.toInt with
  | ofNat k => exact ⟨_, spelling_ofNat hn⟩
  | negSucc k => exact ⟨_, spelling_negSucc hn⟩

theorem spellable_boolean (b : Bool) : (boolean b).Spellable := by
  let w : Keyword := if b then .trueWord else .falseWord
  let t : Token := ⟨.keyword w, w.text, .empty 0⟩
  have hspelled : t.IsSpelled := ⟨_, [], .keyword w nofun⟩
  have htext : (boolean b).inspect = w.text := by cases b <;> rfl
  have hderived : Expression .primary [t] (.boolean t b) := by
    cases b with
    | true => exact .true rfl
    | false => exact .false rfl
  refine ⟨[t], ?_, fun _ => ⟨_, hderived.loosen (by decide), .boolean t b⟩, fun hmin => ?_⟩
  · rw [htext]
    exact hspelled.lexes rfl
  · cases List.mem_singleton.mp hmin

theorem spellable_array (id : Identity) {vs : List Value} (h : ∀ v ∈ vs, v.Spellable) :
    (array id vs).Spellable := by
  have hnil : DerivesAll [] [] := ⟨[], .nil, .nil⟩
  obtain ⟨us, hus⟩ := exists_spelling_listing hnil Derives.single Derives.cons h
  rw [Spellable, parts, stored, allStored_eq_flatMap]
  refine ⟨_, hus.enclose .openBracket .closeBracket ?_ (by simp) (DerivesAll.array id)⟩
  simp [inspect, inspectAll_eq_map]

theorem exists_spelling_pair {p : Value × Value} (hk : p.1.isKey = true) (h : p.1.Spellable)
    (h' : p.2.Spellable) :
    ∃ us, Spelling (p.1.inspect ++ ": " ++ p.2.inspect) (p.1.parts ++ p.2.parts)
      (DerivesPair p) us := by
  obtain ⟨us, hus⟩ := h
  obtain ⟨ts, hts⟩ := h'
  exact ⟨_, hus.join .colon hts (hus.lexes.pair hts.lexes) fun hkey => hkey.pair hk⟩

theorem spellable_hash (id : Identity) {content : Hash Value}
    (hmade : Hash.ofPairs content.pairs = content) (hkeys : ∀ p ∈ content.pairs, p.1.isKey = true)
    (h : ∀ p ∈ content.pairs, p.1.Spellable ∧ p.2.Spellable) : (hash id content).Spellable := by
  have hnil : DerivesPairs [] [] := ⟨[], .nil, .nil⟩
  have hpairs := fun p hp => exists_spelling_pair (hkeys p hp) (h p hp).1 (h p hp).2
  obtain ⟨us, hus⟩ := exists_spelling_listing hnil DerivesPair.single DerivesPair.cons hpairs
  obtain ⟨pairs, index⟩ := content
  rw [Spellable, parts, stored, pairsStored_eq_flatMap]
  refine ⟨_, hus.enclose .openBrace .closeBrace ?_ (by simp) fun hderives => ?_⟩
  · simp [inspect, inspectPairs_eq_map]
  · rw [← hmade]
    exact hderives.hash id

theorem isKey_of_kind {v : Value} (h : v.kind = .integer ∨ v.kind = .boolean) :
    v.isKey = true := by
  cases v with
  | integer | boolean => rfl
  | _ => simp [kind] at h

theorem IsData.spellable {v : Value} (hv : v.IsData) : v.Spellable := by
  induction v using induct with
  | step v ih =>
    cases v with
    | integer n => exact spellable_integer n
    | boolean b => exact spellable_boolean b
    | array id vs =>
      refine spellable_array id fun w hw => ?_
      exact ih w (mem_stored_array hw) (hv.stored (mem_stored_array hw))
    | hash id content =>
      obtain ⟨ps, hkinds, rfl⟩ := hv.self
      refine spellable_hash id (Hash.ofPairs_pairs ps) (fun p hp => ?_) fun p hp => ?_
      · exact isKey_of_kind (hkinds p (Hash.mem_of_mem_pairs_ofPairs hp))
      · obtain ⟨hkey, hvalue⟩ := mem_stored_hash hp
        exact ⟨ih _ hkey (hv.stored hkey), ih _ hvalue (hv.stored hvalue)⟩
    | _ => exact hv.self.elim

end Value

section Run

variable {source : String} {v : Value}

theorem settles_program {e : Expr} (t : Token) (h : Denotes e v) :
    ∃ n, ∀ d, n ≤ d → ∀ scope,
      (Program.eval d scope ⟨[.expr t e]⟩).Settles (Denotes e) := by
  obtain ⟨n, hn⟩ := h.settles
  refine ⟨n, fun d hd scope m => ?_⟩
  obtain ⟨w, m', hdone, hscopes, hprinted, hw⟩ := hn d hd scope m
  have hstatement : Evaluator.statement (Expr.eval d) scope (.expr t e) m = .done w m' := hdone
  have hstatements :
      Evaluator.statements (Expr.eval d) scope .null [.expr t e] m = .done w m' := by
    rw [Evaluator.statements_cons_of_ne hstatement hw.ne_returned]
    rfl
  refine ⟨w, m', ?_, hscopes, hprinted, hw⟩
  rw [Program.eval, bind_of_done hstatements, hw.unwrap_eq]
  rfl

theorem exists_parse_of_derives (h : v.Derives (lexed source.toList)) :
    ∃ t e, Program.parse source = .ok ⟨[.expr t e]⟩ ∧ Denotes e v := by
  obtain ⟨e, hderived, hdenotes⟩ := h
  obtain ⟨t, us, hlexed, -⟩ := hderived.head
  have hstatements : Statements (lexed source.toList) [.expr t e] := by
    rw [hlexed] at hderived ⊢
    have hstatement : Statement (t :: us) (.expr t e) := .expr (hderived.loosen (by decide))
    have hends : Ends [] := nofun
    simpa using Statements.opened hstatement hends .nil
  obtain ⟨⟨ss⟩, hp, hmoved⟩ := Program.exists_parse_of_lexed hstatements
  obtain ⟨s, rfl, hs⟩ := List.map_eq_singleton_iff.mp hmoved
  cases s with
  | expr t' e' =>
    rw [Stmt.move] at hs
    obtain ⟨-, rfl⟩ := Stmt.expr.inj hs
    exact ⟨t', e', hp, hdenotes.of_move⟩
  | bind | «return» =>
    rw [Stmt.move] at hs
    cases hs

/-- A text whose tokens derive an expression for data gives the data when it is run. -/
theorem run_of_derives (h : v.Derives (lexed source.toList)) :
    ∃ n, ∀ d, n ≤ d → ∀ scope m, ∃ w m',
      run d scope source m = some (⟨m.printed.toList, .ok w⟩, m') ∧ w.Agree v ∧
        SameScopes m m' := by
  obtain ⟨t, e, hp, hdenotes⟩ := exists_parse_of_derives h
  obtain ⟨n, hn⟩ := settles_program t hdenotes
  refine ⟨n, fun d hd scope m => ?_⟩
  obtain ⟨w, m', hdone, hscopes, hprinted, hw⟩ := hn d hd scope m
  refine ⟨w, m'.takePrinted.2, ?_, hw.agree hdenotes, hscopes⟩
  rw [run, hp]
  simp only [Program.run, hdone]
  rw [← hprinted]
  rfl

/-- A text with an integer token that is too large is not read. -/
theorem run_of_overflows (h : ∃ t ∈ lexed source.toList, ¬ t.Fits) :
    ∃ ds, ∀ d scope m, run d scope source m = some (⟨[], .error ds⟩, m) := by
  obtain ⟨t, ht, hlarge⟩ := h
  cases hp : Program.parse source with
  | error ds => exact ⟨ds, fun d scope m => by rw [run, hp]⟩
  | ok p =>
    obtain ⟨u, hu, rfl⟩ := List.mem_map.mp ht
    have hfits := (isProgram_tokenize_iff.mp (isProgram_of_parse hp)).fits u hu
    exact absurd hfits hlarge

end Run

/-- The written form of data is a program. Without the smallest integer in it, from some depth on,
running it in any scope of any machine gives data with equal contents that is written the same,
prints nothing and binds nothing; with the smallest integer in it, it cannot be read. -/
theorem Value.run_inspect {v : Value} (hv : v.IsData) :
    (integer Int64.minValue ∉ v.parts → ∃ n, ∀ d, n ≤ d → ∀ scope m, ∃ w m',
      run d scope v.inspect m = some (⟨m.printed.toList, .ok w⟩, m') ∧ w.equal v = true ∧
        w.inspect = v.inspect ∧ m'.scopes = m.scopes) ∧
    (integer Int64.minValue ∈ v.parts → ∃ ds, ∀ d scope m,
      run d scope v.inspect m = some (⟨[], .error ds⟩, m)) := by
  obtain ⟨us, hus⟩ := hv.spellable
  have hlexed := hus.lexes.lexed_eq
  refine ⟨fun hmin => ?_, fun hmin => ?_⟩
  · have hderives : v.Derives (lexed v.inspect.toList) := by
      rw [hlexed]
      exact hus.derived hmin
    obtain ⟨n, hn⟩ := run_of_derives hderives
    refine ⟨n, fun d hd scope m => ?_⟩
    obtain ⟨w, m', hrun, hagree, hscopes⟩ := hn d hd scope m
    exact ⟨w, m', hrun, hagree.equal, hagree.inspect, hscopes⟩
  · have hoverflows := hus.overflows hmin
    rw [← hlexed] at hoverflows
    exact run_of_overflows hoverflows

/-- An array with a negative number and a hash, of whose pairs one was overwritten, and the same
array with the smallest integer. -/
theorem Value.run_inspect_array : ∃ v w : Value, v.IsData ∧ w.IsData ∧
    v.inspect = "[-5, \x7b1: 7, false: []\x7d]" ∧
    w.inspect = "[-9223372036854775808, \x7b1: 7, false: []\x7d]" ∧
    (∃ n, ∀ d, n ≤ d → ∀ scope m, ∃ u m',
      run d scope v.inspect m = some (⟨m.printed.toList, .ok u⟩, m') ∧ u.equal v = true ∧
        u.inspect = v.inspect ∧ m'.scopes = m.scopes) ∧
    ∃ ds, ∀ d scope m, run d scope w.inspect m = some (⟨[], .error ds⟩, m) := by
  let ps : List (Value × Value) :=
    [(integer 1, boolean true), (boolean false, array 2 []), (integer 1, integer 7)]
  have hps : ∀ p ∈ ps, p.1.IsData ∧ p.2.IsData := by
    simp [ps, isData_integer, isData_boolean, isData_array]
  have hhash : (hash 1 (Hash.ofPairs ps)).IsData := isData_hash 1 (by simp [ps, kind]) hps
  let v (n : Int64) : Value := array 0 [integer n, hash 1 (Hash.ofPairs ps)]
  have hv : ∀ n, (v n).IsData := fun n => isData_array 0 (by simp [isData_integer, hhash])
  have hmin : integer Int64.minValue ∉ (v (-5)).parts := by
    intro hmem
    have hall : (v (-5)).parts.all fun w => !w.equal (integer Int64.minValue) := by decide +kernel
    have hne := List.all_eq_true.mp hall _ hmem
    simp [equal] at hne
  have hmem : integer Int64.minValue ∈ (v Int64.minValue).parts := by
    simp [v, parts, stored, allStored]
  exact ⟨v (-5), v Int64.minValue, hv _, hv _, by decide +kernel, by decide +kernel,
    (run_inspect (hv _)).1 hmin, (run_inspect (hv _)).2 hmem⟩

end Monkey
