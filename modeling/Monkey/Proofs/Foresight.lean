import Monkey.Proofs.Blame

/-!
Reading looks no further than the token that it blames. Two lists of tokens that are the same up to
some token are read in the same way as long as reading does not get behind it; and a diagnostic at
this token is made before that happens. So a step of the parser gives the same result on both lists
if it stops in front of the fork or complains about the token there.
-/

namespace Monkey

/-- Two ways in which tokens go on behind a token, whose place is nowhere else in the first. -/
structure Fork where
  token : Token
  left : List Token
  right : List Token
  leftStop : Token
  rightStop : Token
  span_ne : ∀ u ∈ left, u.span ≠ token.span
  span_stop_ne : leftStop.span ≠ token.span

namespace Fork

variable (k : Fork) {α β : Type} {n m : Nat}

/-- The tokens that are left in the two lists, if the fork is still to come; behind the fork nothing
is asked of the second list. -/
inductive Near : List Token → List Token → Prop
  | before (us : List Token) : Near (us ++ k.token :: k.left) (us ++ k.token :: k.right)
  | behind {x y : List Token} (hx : x <:+ k.left) : Near x y

/-- Reading goes on behind the fork and does not complain about the token there. -/
structure Passes (p : Parsed α n) : Prop where
  rest : p.rest <:+ k.left
  span_ne : ∀ d, p.outcome = .error d → d.span ≠ k.token.span

/-- The same result in both lists, unless reading goes on behind the fork without complaining about
the token there. -/
inductive Same (p : Parsed α n) (q : Parsed α m) : Prop
  | before (us : List Token) (hp : p.rest = us ++ k.token :: k.left)
      (hq : q.rest = us ++ k.token :: k.right) (h : q.outcome = p.outcome)
  | behind (hp : p.rest <:+ k.left)
      (h : ∀ d, p.outcome = .error d → d.span = k.token.span → q.outcome = .error d)

/-- What a step of the parser that reads `x` in the one list and `y` in the other has to give. -/
structure Agree (x y : List Token) (p : Parsed α n) (q : Parsed α m) : Prop where
  behind : x <:+ k.left → k.Passes p
  before : ∀ us, x = us ++ k.token :: k.left → y = us ++ k.token :: k.right → k.Same p q

/-- Nothing is left in either list, or the same token and then something near. -/
inductive Alike : List Token → List Token → Prop
  | nil : Alike [] []
  | cons {u : Token} {x y : List Token} (h : k.Near (u :: x) (u :: y)) (htail : k.Near x y) :
      Alike (u :: x) (u :: y)

variable {k} {x y : List Token} {p : Parsed α n} {q : Parsed α m}

theorem not_behind_of_before {us : List Token} (hx : x <:+ k.left) :
    x ≠ us ++ k.token :: k.left := by
  rintro rfl
  have := hx.length_le
  simp only [List.length_append, List.length_cons] at this
  omega

theorem Passes.agree (hx : x <:+ k.left) (h : k.Passes p) : k.Agree x y p q :=
  ⟨fun _ => h, fun _ heq => absurd heq (not_behind_of_before hx)⟩

theorem Passes.of_ok {a : α} (hrest : p.rest <:+ k.left) (h : p.outcome = .ok a) : k.Passes p :=
  ⟨hrest, fun d hd => by
    rw [h] at hd
    cases hd⟩

/-- A step may be followed token by token: behind the fork the second list can be taken to be the
first. -/
theorem Near.agree {m : List Token → Nat} {q : (y : List Token) → Parsed α (m y)}
    (h : k.Near x y) (hpq : ∀ y, k.Alike x y → k.Agree x y p (q y)) : k.Agree x y p (q y) := by
  cases h with
  | before us =>
    refine hpq _ ?_
    cases us with
    | nil => exact .cons (.before []) (.behind List.suffix_rfl)
    | cons u us => exact .cons (.before (u :: us)) (.before us)
  | behind hx =>
    refine Passes.agree hx ?_
    cases x with
    | nil => exact (hpq [] .nil).behind hx
    | cons u x =>
      have htail : x <:+ k.left := (List.suffix_cons u x).trans hx
      exact (hpq (u :: x) (.cons (.behind hx) (.behind htail))).behind hx

/-- The same for a step that makes use of the bound for what is left. -/
theorem Near.elim (h : k.Near x y) (hbefore : k.Alike x y → k.Agree x y p q)
    (hbehind : x <:+ k.left → k.Passes p) : k.Agree x y p q := by
  cases h with
  | before us =>
    refine hbefore ?_
    cases us with
    | nil => exact .cons (.before []) (.behind List.suffix_rfl)
    | cons u us => exact .cons (.before (u :: us)) (.before us)
  | behind hx => exact Passes.agree hx (hbehind hx)

namespace Agree

theorem done (a : α) : k.Agree x y (.done a x) (.done a y) where
  behind hx := .of_ok hx rfl
  before us hx hy := .before us hx hy rfl

/-- The step may read a token first. -/
theorem step {u : Token} (h : k.Agree x y p q) : k.Agree (u :: x) (u :: y) p q where
  behind hx := h.behind ((List.suffix_cons u x).trans hx)
  before us hx hy := by
    cases us with
    | nil =>
      obtain ⟨-, rfl⟩ := List.cons.inj hx
      have hpasses := h.behind List.suffix_rfl
      exact .behind hpasses.rest fun d hd hspan => absurd hspan (hpasses.span_ne d hd)
    | cons v us => exact h.before us (List.cons.inj hx).2 (List.cons.inj hy).2

/-- The bounds of the results do not matter. -/
theorem rebound {n' m' : Nat} {hn : p.rest.length ≤ n'} {hm : q.rest.length ≤ m'}
    (h : k.Agree x y p q) : k.Agree x y (⟨p.outcome, p.rest, hn⟩ : Parsed α n')
      (⟨q.outcome, q.rest, hm⟩ : Parsed α m') := by
  refine ⟨fun hx => ⟨(h.behind hx).rest, (h.behind hx).span_ne⟩, fun us hx hy => ?_⟩
  cases h.before us hx hy with
  | before vs hp hq h => exact .before vs hp hq h
  | behind hp h => exact .behind hp h

theorem loosen {p : Parsed α (n - 1)} {q : Parsed α (m - 1)} (h : k.Agree x y p q) :
    k.Agree x y p.loosen q.loosen := h.rebound

theorem afterToken {u : Token} (h : k.Agree x y p q) :
    k.Agree (u :: x) (u :: y) p.afterToken q.afterToken := h.rebound.step

theorem bind {f : α → (rest : List Token) → rest.length ≤ n → Parsed β rest.length}
    {g : α → (rest : List Token) → rest.length ≤ m → Parsed β rest.length}
    (h : k.Agree x y p q)
    (hfg : ∀ a x y hx hy, k.Near x y → k.Agree x y (f a x hx) (g a y hy)) :
    k.Agree x y (p.bind f) (q.bind g) := by
  obtain ⟨outcome, mid, hmid⟩ := p
  obtain ⟨outcome', mid', hmid'⟩ := q
  have hpasses : ∀ a, mid <:+ k.left → k.Passes (f a mid hmid) := fun a hsuffix =>
    (hfg a mid [] hmid (Nat.zero_le m) (.behind hsuffix)).behind hsuffix
  constructor
  · intro hx
    have hp := h.behind hx
    cases outcome with
    | ok a => exact ⟨(hpasses a hp.rest).rest, (hpasses a hp.rest).span_ne⟩
    | error d => exact ⟨hp.rest, fun e he => hp.span_ne e (by simpa [Parsed.bind] using he)⟩
  · intro us hx hy
    cases h.before us hx hy with
    | before vs hp hq heq =>
      simp only at hp hq heq
      subst heq
      cases outcome' with
      | ok a =>
        subst hp hq
        cases (hfg a _ _ hmid hmid' (.before vs)).before vs rfl rfl with
        | before ws hp hq h => exact .before ws hp hq h
        | behind hp h => exact .behind hp h
      | error d => exact .before vs hp hq rfl
    | behind hp hd =>
      simp only at hp hd
      cases outcome with
      | ok a =>
        have hf := hpasses a hp
        exact .behind hf.rest fun d he hspan => absurd hspan (hf.span_ne d he)
      | error d =>
        refine .behind hp fun e he hspan => ?_
        obtain rfl : d = e := by simpa [Parsed.bind] using he
        have := hd d rfl hspan
        subst this
        rfl

theorem map {f : α → β} (h : k.Agree x y p q) : k.Agree x y (p.map f) (q.map f) := by
  have hmap : ∀ {n : Nat} (p : Parsed α n), p.map f = p.bind fun a rest _ => .done (f a) rest := by
    rintro n ⟨outcome, rest, hrest⟩
    cases outcome <;> rfl
  rw [hmap, hmap]
  exact h.bind fun a x y _ _ _ => .done (f a)

theorem ite {c : Prop} [Decidable c] {p' : Parsed α n} {q' : Parsed α m}
    (ht : c → k.Agree x y p q) (hf : ¬ c → k.Agree x y p' q') :
    k.Agree x y (if c then p else p') (if c then q else q') := by
  by_cases hc : c
  · rw [if_pos hc, if_pos hc]
    exact ht hc
  · rw [if_neg hc, if_neg hc]
    exact hf hc

/-- A complaint about a token that stays unread. -/
theorem failed_at {c : Complaint} {u : Token} :
    k.Agree (u :: x) (u :: y) (Parsed.failed (α := α) ⟨c, u.span⟩ (u :: x))
      (Parsed.failed (α := α) ⟨c, u.span⟩ (u :: y)) where
  behind hx := ⟨hx, fun d hd => by
    obtain rfl := Except.error.inj hd
    exact k.span_ne u (hx.subset List.mem_cons_self)⟩
  before us hx hy := .before us hx hy rfl

/-- A complaint about a token that has been read. -/
theorem failed_behind {c : Complaint} {u : Token} :
    k.Agree (u :: x) (u :: y) (Parsed.failed (α := α) ⟨c, u.span⟩ x)
      (Parsed.failed (α := α) ⟨c, u.span⟩ y) where
  behind hx := ⟨(List.suffix_cons u x).trans hx, fun d hd => by
    obtain rfl := Except.error.inj hd
    exact k.span_ne u (hx.subset List.mem_cons_self)⟩
  before us hx hy := by
    cases us with
    | nil =>
      obtain ⟨-, rfl⟩ := List.cons.inj hx
      exact .behind List.suffix_rfl fun d hd _ => hd
    | cons v us => exact .before us (List.cons.inj hx).2 (List.cons.inj hy).2 rfl

theorem failed_nil {c c' : Complaint} :
    k.Agree [] [] (Parsed.failed (α := α) ⟨c, k.leftStop.span⟩ [])
      (Parsed.failed (α := α) ⟨c', k.rightStop.span⟩ []) :=
  Passes.agree List.nil_suffix ⟨List.nil_suffix, fun d hd => by
    obtain rfl := Except.error.inj hd
    exact k.span_stop_ne⟩

end Agree

open Monkey.Parser

theorem expect_agree {kind : Token.Kind} (h : k.Near x y) :
    k.Agree x y (expect k.leftStop kind x) (expect k.rightStop kind y) := by
  refine h.agree fun y hxy => ?_
  cases hxy with
  | nil => exact .failed_nil
  | cons _ htail =>
    rw [expect, expect]
    exact .ite (fun _ => (Agree.done _).afterToken) fun _ => .failed_at

theorem close_agree (s : Stmt) (h : k.Near x y) : k.Agree x y (close s x) (close s y) := by
  refine h.agree fun y hxy => ?_
  cases hxy with
  | nil => exact .done s
  | cons hcons htail =>
    rw [close, close]
    exact .ite (fun _ => (Agree.done s).afterToken) fun _ => .done s

theorem integer_agree (u : Token) :
    k.Agree (u :: x) (u :: y) (integer u x) (integer u y) := by
  unfold integer
  exact .ite (fun _ => (Agree.done _).step) fun _ => .failed_behind

theorem listTail_agree {closing : Symbol} {item : α}
    {more more' : (rest : List Token) → Parsed (List α) rest.length} (h : k.Near x y)
    (hmore : ∀ us vs, us.length < x.length → k.Near us vs → k.Agree us vs (more us) (more' vs)) :
    k.Agree x y (listTail k.leftStop closing item x fun rest _ => more rest)
      (listTail k.rightStop closing item y fun rest _ => more' rest) := by
  refine h.agree (q := fun y => listTail _ closing item y fun rest _ => more' rest) fun y hxy => ?_
  cases hxy with
  | nil => exact (expect_agree (.behind List.nil_suffix)).map
  | cons hcons htail =>
    rw [listTail, listTail]
    refine .ite (fun _ => ?_) fun _ => (expect_agree hcons).map
    exact (hmore _ _ (Nat.lt_succ_self _) htail).map.afterToken

theorem names_agree {x y : List Token} (h : k.Near x y) :
    k.Agree x y (names k.leftStop x) (names k.rightStop y) := by
  rw [names, names]
  refine (expect_agree h).bind fun u x y hx _ hxy => ?_
  exact listTail_agree hxy fun us vs _ h => names_agree h
termination_by x.length

theorem parameters_agree (h : k.Near x y) :
    k.Agree x y (parameters k.leftStop x) (parameters k.rightStop y) := by
  refine h.agree fun y hxy => ?_
  cases hxy with
  | nil => exact names_agree (.behind List.nil_suffix)
  | cons hcons htail =>
    rw [parameters, parameters]
    exact .ite (fun _ => (Agree.done _).afterToken) fun _ => names_agree hcons

-- Behind the fork nothing is known of the second list, so the recursion is on the first.
mutual

theorem expr_agree (p : Precedence) {x y : List Token} (h : k.Near x y) :
    k.Agree x y (expr k.leftStop p x) (expr k.rightStop p y) := by
  rw [expr, expr]
  exact (operand_agree h).bind fun left x y _ _ hxy => extend_agree p left hxy
termination_by 5 * x.length + 1

theorem operand_agree {x y : List Token} (h : k.Near x y) :
    k.Agree x y (operand k.leftStop x) (operand k.rightStop y) := by
  refine h.agree fun y hxy => ?_
  cases hxy with
  | nil =>
    rw [operand, operand]
    exact .failed_nil
  | @cons u x y hcons htail =>
    have hunary : ∀ op, k.Agree (u :: x) (u :: y)
        ((expr k.leftStop .unary x).loosen.map (Expr.unary u op))
        ((expr k.rightStop .unary y).loosen.map (Expr.unary u op)) :=
      fun op => (expr_agree .unary htail).loosen.map.step
    rw [operand.eq_def, operand.eq_def]
    dsimp only
    cases hk : u.kind with
    | ident => exact (Agree.done (Expr.name ⟨u⟩)).step
    | integer => exact integer_agree u
    | string => exact (Agree.done (Expr.string u)).step
    | keyword w =>
      cases w with
      | trueWord => exact (Agree.done (Expr.boolean u true)).step
      | falseWord => exact (Agree.done (Expr.boolean u false)).step
      | ifWord =>
        refine Agree.step (.bind (expect_agree htail) fun _ x y _ _ h => ?_)
        refine .bind (expr_agree .lowest h).loosen fun condition x y _ _ h => ?_
        refine .bind (expect_agree h) fun _ x y _ _ h => ?_
        refine .bind (block_agree h) fun consequence x y _ _ h => ?_
        refine h.elim (fun hxy => ?_) fun hx => ?_
        · cases hxy with
          | nil => exact .done _
          | cons hcons htail =>
            refine .ite (fun _ => ?_) fun _ => .done _
            exact (block_agree htail).map.afterToken
        · cases x with
          | nil => exact .of_ok hx rfl
          | cons w x =>
            have htail : x <:+ k.left := (List.suffix_cons w x).trans hx
            dsimp only
            split
            · exact (block_agree (y := []) (.behind htail)).map.afterToken.behind hx
            · exact .of_ok hx rfl
      | fnWord =>
        refine Agree.step (.bind (expect_agree htail) fun _ x y _ _ h => ?_)
        refine .bind (parameters_agree h) fun xs x y _ _ h => ?_
        exact (block_agree h).map
      | _ => exact .failed_behind
    | symbol s =>
      cases s with
      | openParen =>
        refine Agree.step (.bind (expr_agree .lowest htail).loosen fun e x y _ _ h => ?_)
        exact (expect_agree h).map
      | openBracket => exact (exprs_agree .closeBracket htail).map.step
      | openBrace =>
        refine Agree.step (htail.elim (fun hxy => ?_) fun hx => ?_)
        · cases hxy with
          | nil => exact (pairs_agree (.behind List.nil_suffix)).map
          | cons hitems _ =>
            refine .ite (fun _ => (Agree.done _).afterToken) fun _ => ?_
            exact (pairs_agree hitems).map
        · have hpairs := ((pairs_agree (y := []) (.behind hx)).map (f := Expr.hash u)).behind hx
          cases x with
          | nil => exact hpairs
          | cons v x =>
            dsimp only
            split
            · exact .of_ok (a := Expr.hash u []) ((List.suffix_cons v x).trans hx) rfl
            · exact hpairs
      | bang => exact hunary .not
      | minus => exact hunary .negate
      | _ => exact .failed_behind
    | _ => exact .failed_behind
termination_by 5 * x.length
decreasing_by all_goals (subst_vars; simp only [List.length_cons] at *; omega)

theorem extend_agree (p : Precedence) (left : Expr) {x y : List Token} (h : k.Near x y) :
    k.Agree x y (extend k.leftStop p left x) (extend k.rightStop p left y) := by
  refine h.agree fun y hxy => ?_
  cases hxy with
  | nil =>
    rw [extend, extend]
    exact .done left
  | @cons u x y hcons htail =>
    rw [extend, extend]
    refine .ite (fun _ => ?_) fun _ => .done left
    have hbinary : ∀ op, k.Agree (u :: x) (u :: y)
        ((expr k.leftStop (.ofKind u.kind) x).loosen.bind fun right rest _ =>
          extend k.leftStop p (.binary u op left right) rest).afterToken
        ((expr k.rightStop (.ofKind u.kind) y).loosen.bind fun right rest _ =>
          extend k.rightStop p (.binary u op left right) rest).afterToken := by
      intro op
      refine ((expr_agree (.ofKind u.kind) htail).loosen.bind fun right x y _ _ h => ?_).afterToken
      exact extend_agree p _ h
    cases hk : u.kind with
    | symbol s =>
      rw [hk] at hbinary
      cases s with
      | openParen =>
        refine ((exprs_agree .closeParen htail).bind fun arguments x y _ _ h => ?_).afterToken
        exact extend_agree p _ h
      | openBracket =>
        refine ((expr_agree .lowest htail).loosen.bind fun position x y _ _ h => ?_).afterToken
        refine .bind (expect_agree h) fun _ x y _ _ h => ?_
        exact extend_agree p _ h
      | plus => exact hbinary .add
      | minus => exact hbinary .subtract
      | asterisk => exact hbinary .multiply
      | slash => exact hbinary .divide
      | less => exact hbinary .less
      | greater => exact hbinary .greater
      | equal => exact hbinary .equal
      | notEqual => exact hbinary .notEqual
      | _ => exact .done left
    | _ => exact .done left
termination_by 5 * x.length
decreasing_by all_goals (subst_vars; simp only [List.length_cons] at *; omega)

theorem exprs_agree (closing : Symbol) {x y : List Token} (h : k.Near x y) :
    k.Agree x y (exprs k.leftStop closing x) (exprs k.rightStop closing y) := by
  refine h.agree fun y hxy => ?_
  cases hxy with
  | nil =>
    rw [exprs, exprs]
    exact elements_agree closing (.behind List.nil_suffix)
  | cons hcons htail =>
    rw [exprs, exprs]
    refine .ite (fun _ => (Agree.done _).afterToken) fun _ => ?_
    exact elements_agree closing hcons
termination_by 5 * x.length + 3

theorem elements_agree (closing : Symbol) {x y : List Token} (h : k.Near x y) :
    k.Agree x y (elements k.leftStop closing x) (elements k.rightStop closing y) := by
  rw [elements, elements]
  refine (expr_agree .lowest h).loosen.bind fun e x y _ _ h => ?_
  exact listTail_agree h fun us vs _ h => elements_agree closing h
termination_by 5 * x.length + 2

theorem pairs_agree {x y : List Token} (h : k.Near x y) :
    k.Agree x y (pairs k.leftStop x) (pairs k.rightStop y) := by
  rw [pairs, pairs]
  refine (expr_agree .lowest h).loosen.bind fun key x y _ _ h => ?_
  refine .bind (expect_agree h) fun _ x y _ _ h => ?_
  refine (expr_agree .lowest h).loosen.bind fun value x y _ _ h => ?_
  exact listTail_agree h fun us vs _ h => pairs_agree h
termination_by 5 * x.length + 2

theorem block_agree {x y : List Token} (h : k.Near x y) :
    k.Agree x y (block k.leftStop x) (block k.rightStop y) := by
  rw [block, block]
  exact (expect_agree h).bind fun brace x y _ _ h => (statements_agree h).map
termination_by 5 * x.length + 4

theorem statements_agree {x y : List Token} (h : k.Near x y) :
    k.Agree x y (statements k.leftStop x) (statements k.rightStop y) := by
  refine h.agree fun y hxy => ?_
  cases hxy with
  | nil =>
    rw [statements, statements]
    exact .failed_nil
  | cons hcons htail =>
    rw [statements, statements]
    refine .ite (fun _ => (Agree.done _).afterToken) fun _ => ?_
    refine .loosen ((statement_agree hcons).bind fun s x y _ _ h => ?_)
    exact (statements_agree h).map
termination_by 5 * x.length + 3
decreasing_by all_goals (subst_vars; simp only [List.length_cons] at *; omega)

theorem statement_agree {x y : List Token} (h : k.Near x y) :
    k.Agree x y (statement k.leftStop x) (statement k.rightStop y) := by
  refine h.agree fun y hxy => ?_
  cases hxy with
  | nil =>
    rw [statement, statement]
    have hexpr := expr_agree .lowest (x := []) (y := []) (.behind List.nil_suffix)
    exact Passes.agree List.nil_suffix (hexpr.map.behind List.nil_suffix)
  | @cons u x y hcons htail =>
    have hexpr : k.Agree (u :: x) (u :: y)
        ((expr k.leftStop .lowest (u :: x)).bind fun value rest _ => close (.expr u value) rest)
        ((expr k.rightStop .lowest (u :: y)).bind fun value rest _ => close (.expr u value) rest) :=
      (expr_agree .lowest hcons).bind fun value x y _ _ h => close_agree _ h
    rw [statement, statement]
    cases hk : u.kind with
    | keyword w =>
      cases w with
      | letWord =>
        refine Agree.step (.bind (expect_agree htail) fun name x y _ _ h => ?_)
        refine .bind (expect_agree h) fun _ x y _ _ h => ?_
        exact (expr_agree .lowest h).loosen.bind fun value x y _ _ h => close_agree _ h
      | returnWord =>
        refine Agree.step ((expr_agree .lowest htail).loosen.bind fun value x y _ _ h => ?_)
        exact close_agree _ h
      | _ => exact hexpr
    | _ => exact hexpr
termination_by 5 * x.length + 2
decreasing_by all_goals (subst_vars; simp only [List.length_cons] at *; omega)

end

/-- No diagnostic about what lies behind the fork stands at the token there. -/
theorem span_ne_of_ofTokens {d : Diagnostic} {ds : List Diagnostic} (hx : x <:+ k.left)
    (h : (Reading.ofTokens k.leftStop x).diagnostics = d :: ds) : d.span ≠ k.token.span := by
  obtain ⟨us, behind, rfl, hd, -⟩ := Grammar.ofTokens_breaks x h
  rw [hd.1]
  cases behind with
  | nil => exact k.span_stop_ne
  | cons u behind => exact k.span_ne u (hx.subset (by simp))

/-- If the first diagnostic of the one text stands at the fork, it is the first of the other. -/
theorem ofTokens_agree {d : Diagnostic} {ds : List Diagnostic} (us : List Token)
    (h : (Reading.ofTokens k.leftStop (us ++ k.token :: k.left)).diagnostics = d :: ds)
    (hspan : d.span = k.token.span) :
    ∃ es, (Reading.ofTokens k.rightStop (us ++ k.token :: k.right)).diagnostics = d :: es := by
  have hagree := (statement_agree (k := k) (.before us)).before us rfl rfl
  have hcons : ∀ zs, ∃ u vs, us ++ k.token :: zs = u :: vs := by cases us <;> simp
  obtain ⟨u, x, hx⟩ := hcons k.left
  obtain ⟨v, y, hy⟩ := hcons k.right
  have hle := (statement k.leftStop (u :: x)).length_rest_le
  rw [hx] at h
  rw [hx, hy] at hagree
  rw [hy]
  cases hagree with
  | before vs hp hq heq =>
    cases hs : (statement k.leftStop (u :: x)).outcome with
    | ok s =>
      rw [hs] at heq
      rw [Reading.ofTokens_of_yields ⟨hs, hp⟩] at h
      rw [Reading.ofTokens_of_yields ⟨heq, hq⟩]
      exact ofTokens_agree vs h hspan
    | error e =>
      rw [hs] at heq
      rw [Reading.ofTokens_of_error hs] at h
      rw [Reading.ofTokens_of_error heq]
      obtain ⟨rfl, -⟩ := List.cons.inj h
      exact ⟨_, rfl⟩
  | behind hp hd =>
    cases hs : (statement k.leftStop (u :: x)).outcome with
    | ok s =>
      rw [Reading.ofTokens_of_yields ⟨hs, rfl⟩] at h
      exact absurd hspan (span_ne_of_ofTokens hp h)
    | error e =>
      rw [Reading.ofTokens_of_error hs] at h
      obtain ⟨rfl, -⟩ := List.cons.inj h
      rw [Reading.ofTokens_of_error (hd _ hs hspan)]
      exact ⟨_, rfl⟩
termination_by us.length
decreasing_by
  have hlength := congrArg List.length hx
  rw [hp] at hle
  simp only [List.length_append, List.length_cons] at hlength hle
  omega

end Fork

/-- If the first diagnostic stands at a token whose place is nowhere behind it, it does not depend
on what stands behind it. -/
theorem Reading.first_of_ofTokens {stop t : Token} {us left : List Token} {d : Diagnostic}
    {ds : List Diagnostic} (stop' : Token) (right : List Token)
    (hleft : ∀ u ∈ left ++ [stop], u.span ≠ t.span)
    (h : (ofTokens stop (us ++ t :: left)).diagnostics = d :: ds) (hspan : d.span = t.span) :
    ∃ es, (ofTokens stop' (us ++ t :: right)).diagnostics = d :: es := by
  obtain ⟨hne, hstop⟩ := List.forall_mem_append.mp hleft
  have hstop' : stop.span ≠ t.span := hstop stop List.mem_cons_self
  exact Fork.ofTokens_agree (k := ⟨t, left, right, stop, stop', hne, hstop'⟩) us h hspan

end Monkey
