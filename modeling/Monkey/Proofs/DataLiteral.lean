import Monkey.Proofs.Equality
import Monkey.Proofs.HashRebuild
import Monkey.Proofs.Relocation

/-!
Expressions that write out data: numbers and truth values, with minus signs in front of numbers, and
arrays and hashes of such expressions. What they denote is settled but for identities; they evaluate
to it in every scope of every machine, and evaluating them changes nothing but which identity is
next.
-/

namespace Monkey

open Machine Value Eval

mutual

/-- The expression writes out the value, whatever the identities in it. -/
inductive Denotes : Expr → Value → Prop
  | integer (t : Token) (n : Int64) : Denotes (.integer t n) (.integer n)
  | boolean (t : Token) (b : Bool) : Denotes (.boolean t b) (.boolean b)
  | negate (t : Token) {e : Expr} {n : Int64} (h : Denotes e (.integer n)) :
      Denotes (.unary t .negate e) (.integer (-n))
  | array (t : Token) (id : Identity) {es : List Expr} {vs : List Value} (h : DenoteAll es vs) :
      Denotes (.array t es) (.array id vs)
  | hash (t : Token) (id : Identity) {es : List (Expr × Expr)} {ps : List (Value × Value)}
      (h : DenotePairs es ps) : Denotes (.hash t es) (.hash id (Hash.ofPairs ps))

inductive DenoteAll : List Expr → List Value → Prop
  | nil : DenoteAll [] []
  | cons {e : Expr} {es : List Expr} {v : Value} {vs : List Value} (h : Denotes e v)
      (hs : DenoteAll es vs) : DenoteAll (e :: es) (v :: vs)

inductive DenotePairs : List (Expr × Expr) → List (Value × Value) → Prop
  | nil : DenotePairs [] []
  | cons {key value : Expr} {es : List (Expr × Expr)} {k v : Value} {ps : List (Value × Value)}
      (hkey : Denotes key k) (hk : k.isKey = true) (hvalue : Denotes value v)
      (hs : DenotePairs es ps) : DenotePairs ((key, value) :: es) ((k, v) :: ps)

end

section Returned

variable {e : Expr} {v : Value} (h : Denotes e v)

include h

/-- What is denoted is never on its way out of a call. -/
theorem Denotes.ne_returned (w : Value) : v ≠ returned w := by
  rintro rfl
  cases h

theorem Denotes.unwrap_eq : v.unwrap = v := by
  cases h <;> rfl

end Returned

namespace Value

/-- Equal in contents, and written alike. -/
structure Agree (v w : Value) : Prop where
  equal : v.equal w = true
  inspect : v.inspect = w.inspect

theorem eq_of_equal_of_isKey {v w : Value} (h : v.equal w = true) (hv : v.isKey = true) :
    v = w := by
  cases v with
  | integer | boolean | string => cases w <;> simp_all [equal]
  | _ => cases hv

theorem map_eq_of_forall₂ {α β γ : Type} {f : α → γ} {g : β → γ} {as : List α} {bs : List β}
    (h : List.Forall₂ (fun a b => f a = g b) as bs) : as.map f = bs.map g := by
  rwa [← List.forall₂_eq_eq_eq, List.forall₂_map_left_iff, List.forall₂_map_right_iff]

theorem agree_array (i j : Identity) {vs ws : List Value} (h : List.Forall₂ Agree vs ws) :
    (array i vs).Agree (array j ws) where
  equal := by
    have hequal : List.Forall₂ Equal vs ws := h.imp fun v w hvw => hvw.equal
    rw [equal, equalAll_iff]
    exact Hash.rel_getElem? hequal
  inspect := by
    have hwritten : vs.map inspect = ws.map inspect :=
      map_eq_of_forall₂ (h.imp fun v w hvw => hvw.inspect)
    simp only [inspect, inspectAll_eq_map, hwritten]

/-- Pairs that agree, under the same keys, make hashes that agree. -/
theorem agree_hash (i j : Identity) {ps qs : List (Value × Value)}
    (h : List.Forall₂ (fun p q => p.1.key? = q.1.key? ∧ PairRel Agree p q) ps qs) :
    (hash i (Hash.ofPairs ps)).Agree (hash j (Hash.ofPairs qs)) where
  equal := by
    have hequal : List.Forall₂ (fun p q => p.1.key? = q.1.key? ∧ PairRel Equal p q) ps qs :=
      h.imp fun p q hpq => ⟨hpq.1, hpq.2.1.equal, hpq.2.2.equal⟩
    exact equal_hash_iff.mpr (Hash.related_ofPairs hequal).get?
  inspect := by
    have hwritten : ∀ p q : Value × Value, PairRel Agree p q →
        p.1.inspect ++ ": " ++ p.2.inspect = q.1.inspect ++ ": " ++ q.2.inspect := by
      rintro p q ⟨hkey, hvalue⟩
      rw [hkey.inspect, hvalue.inspect]
    have hpairs := map_eq_of_forall₂ ((Hash.related_ofPairs h).pairs.imp hwritten)
    simp only [inspect, inspectPairs_eq_map, hpairs]

end Value

section Agreement

mutual

/-- What an expression denotes is settled but for identities. -/
theorem Denotes.agree : ∀ {e : Expr} {v w : Value}, Denotes e v → Denotes e w → v.Agree w
  | _, _, _, .integer t n, h => by
    cases h
    exact ⟨by simp [equal], rfl⟩
  | _, _, _, .boolean t b, h => by
    cases h
    exact ⟨by simp [equal], rfl⟩
  | _, _, _, .negate t h, h' => by
    cases h' with
    | negate _ h' =>
      have hsame := eq_of_equal_of_isKey (h.agree h').equal rfl
      obtain rfl := Value.integer.inj hsame
      exact ⟨by simp [equal], rfl⟩
  | _, _, _, .array t i h, h' => by
    cases h' with
    | array _ j h' => exact agree_array i j (h.agree h')
  | _, _, _, .hash t i h, h' => by
    cases h' with
    | hash _ j h' => exact agree_hash i j (h.agree h')

theorem DenoteAll.agree : ∀ {es : List Expr} {vs ws : List Value}, DenoteAll es vs →
    DenoteAll es ws → List.Forall₂ Agree vs ws
  | _, _, _, .nil, .nil => .nil
  | _, _, _, .cons h hs, .cons h' hs' => .cons (h.agree h') (hs.agree hs')

theorem DenotePairs.agree : ∀ {es : List (Expr × Expr)} {ps qs : List (Value × Value)},
    DenotePairs es ps → DenotePairs es qs →
      List.Forall₂ (fun p q => p.1.key? = q.1.key? ∧ PairRel Agree p q) ps qs
  | _, _, _, .nil, .nil => .nil
  | _, _, _, .cons hkey hk hvalue hs, .cons hkey' _ hvalue' hs' => by
    have hkeys := hkey.agree hkey'
    have hsame := congrArg key? (eq_of_equal_of_isKey hkeys.equal hk)
    exact .cons ⟨hsame, hkeys, hvalue.agree hvalue'⟩ (hs.agree hs')

end

end Agreement

section Places

variable {σ : Span → Span}

mutual

/-- What an expression denotes does not depend on where it stands. -/
theorem Denotes.of_move : ∀ {e : Expr} {v : Value}, Denotes (e.move σ) v → Denotes e v
  | .integer t n, _, h => by
    rw [Expr.move] at h
    cases h
    exact .integer t n
  | .boolean t b, _, h => by
    rw [Expr.move] at h
    cases h
    exact .boolean t b
  | .unary t op e, _, h => by
    rw [Expr.move] at h
    cases h with
    | negate _ h => exact .negate t h.of_move
  | .array t es, _, h => by
    rw [Expr.move] at h
    cases h with
    | array _ id h => exact .array t id h.of_move
  | .hash t es, _, h => by
    rw [Expr.move] at h
    cases h with
    | hash _ id h => exact .hash t id h.of_move
  | .cond t c b a, _, h => by
    rw [Expr.move_cond] at h
    cases h
  | .name _, _, h | .string _, _, h | .function _ _ _, _, h | .binary _ _ _ _, _, h
  | .call _ _ _, _, h | .index _ _ _, _, h => by
    rw [Expr.move] at h
    cases h

theorem DenoteAll.of_move : ∀ {es : List Expr} {vs : List Value},
    DenoteAll (Expr.moveAll σ es) vs → DenoteAll es vs
  | [], _, h => by
    cases h
    exact .nil
  | e :: es, _, h => by
    rw [Expr.moveAll] at h
    cases h with
    | cons h hs => exact .cons h.of_move hs.of_move

theorem DenotePairs.of_move : ∀ {es : List (Expr × Expr)} {ps : List (Value × Value)},
    DenotePairs (Expr.movePairs σ es) ps → DenotePairs es ps
  | [], _, h => by
    cases h
    exact .nil
  | (key, value) :: es, _, h => by
    rw [Expr.movePairs] at h
    cases h with
    | cons hkey hk hvalue hs => exact .cons hkey.of_move hk hvalue.of_move hs.of_move

end

end Places

section Settling

variable {α β : Type} {Q Q' : α → Prop} {P : β → Prop}

/-- Ends with a result that has the property; no scope is opened, no name bound and nothing
printed. -/
def Eval.Settles (x : Eval α) (Q : α → Prop) : Prop :=
  ∀ m, ∃ a m', x m = .done a m' ∧ SameScopes m m' ∧ m'.printed = m.printed ∧ Q a

namespace Eval

theorem settles_pure {a : α} (ha : Q a) : (pure a : Eval α).Settles Q :=
  fun m => ⟨a, m, rfl, rfl, rfl, ha⟩

theorem Settles.mono {x : Eval α} (hx : x.Settles Q) (h : ∀ a, Q a → Q' a) : x.Settles Q' := by
  intro m
  obtain ⟨a, m', hdone, hscopes, hprinted, ha⟩ := hx m
  exact ⟨a, m', hdone, hscopes, hprinted, h a ha⟩

theorem Settles.bind {x : Eval α} {f : α → Eval β} (hx : x.Settles Q)
    (hf : ∀ a, Q a → (f a).Settles P) : (x >>= f).Settles P := by
  intro m
  obtain ⟨a, m₁, hdone, hscopes, hprinted, ha⟩ := hx m
  obtain ⟨b, m₂, hdone', hscopes', hprinted', hb⟩ := hf a ha m₁
  refine ⟨b, m₂, ?_, hscopes'.trans hscopes, hprinted'.trans hprinted, hb⟩
  rw [bind_of_done hdone, hdone']

theorem settles_ofExcept {r : Except Fault α} {a : α} (hr : r = .ok a) (ha : Q a) :
    (ofExcept r).Settles Q := by
  rw [hr]
  exact settles_pure ha

theorem settles_newIdentity : newIdentity.Settles fun _ => True :=
  fun _ => ⟨_, _, rfl, rfl, rfl, trivial⟩

theorem settles_newArray {vs : List Value} {Q : Value → Prop} (h : ∀ id, Q (.array id vs)) :
    (newArray vs).Settles Q := settles_newIdentity.bind fun id _ => settles_pure (h id)

theorem settles_newHash {content : Hash Value} {Q : Value → Prop} (h : ∀ id, Q (.hash id content)) :
    (newHash content).Settles Q := settles_newIdentity.bind fun id _ => settles_pure (h id)

end Eval

/-- The expression settles in every scope, from some depth on. -/
def Expr.Settles (e : Expr) (Q : Value → Prop) : Prop :=
  ∃ n, ∀ d, n ≤ d → ∀ scope, (e.eval d scope).Settles Q

theorem Expr.settles_of_layer {e : Expr} {Q : Value → Prop} (n : Nat)
    (h : ∀ d, n ≤ d → ∀ scope, (Evaluator.layer (Expr.eval d) scope e).Settles Q) :
    e.Settles Q := by
  refine ⟨n + 1, fun d hd scope => ?_⟩
  cases d with
  | zero => omega
  | succ d => exact h d (Nat.le_of_succ_le_succ hd) scope

end Settling

mutual

/-- An expression that denotes data evaluates to it. -/
theorem Denotes.settles : ∀ {e : Expr} {v : Value}, Denotes e v → e.Settles (Denotes e)
  | _, _, .integer t k => Expr.settles_of_layer 0 fun _ _ _ => settles_pure (.integer t k)
  | _, _, .boolean t b => Expr.settles_of_layer 0 fun _ _ _ => settles_pure (.boolean t b)
  | _, _, .negate t h => by
    obtain ⟨n, hn⟩ := h.settles
    refine Expr.settles_of_layer n fun d hd scope => (hn d hd scope).bind fun w hw => ?_
    obtain rfl := eq_of_equal_of_isKey (h.agree hw).equal rfl
    exact settles_ofExcept rfl (.negate t h)
  | _, _, .array t _ h => by
    obtain ⟨n, hn⟩ := h.settles
    refine Expr.settles_of_layer n fun d hd scope => (hn d hd scope).bind fun ws hws => ?_
    exact settles_newArray fun id => .array t id hws
  | _, _, .hash t _ h => by
    obtain ⟨n, hn⟩ := h.settles
    refine Expr.settles_of_layer n fun d hd scope => (hn d hd scope ∅).bind fun content hc => ?_
    obtain ⟨qs, hqs, rfl⟩ := hc
    exact settles_newHash fun id => .hash t id hqs

theorem DenoteAll.settles : ∀ {es : List Expr} {vs : List Value}, DenoteAll es vs →
    ∃ n, ∀ d, n ≤ d → ∀ scope,
      (Evaluator.expressions (Expr.eval d) scope es).Settles (DenoteAll es)
  | _, _, .nil => ⟨0, fun _ _ _ => settles_pure .nil⟩
  | _, _, .cons h hs => by
    obtain ⟨n, hn⟩ := h.settles
    obtain ⟨k, hk⟩ := hs.settles
    refine ⟨max n k, fun d hd scope => ?_⟩
    have hhead := hn d (by omega) scope
    have htail := hk d (by omega) scope
    exact hhead.bind fun w hw => htail.bind fun ws hws => settles_pure (.cons hw hws)

theorem DenotePairs.settles : ∀ {es : List (Expr × Expr)} {ps : List (Value × Value)},
    DenotePairs es ps → ∃ n, ∀ d, n ≤ d → ∀ scope content,
      (Evaluator.pairs (Expr.eval d) scope content es).Settles fun content' =>
        ∃ qs, DenotePairs es qs ∧
          content' = (Hash.filings qs).foldl (fun h op => h.insert op.1 op.2) content
  | _, _, .nil => ⟨0, fun _ _ _ _ => settles_pure ⟨[], .nil, rfl⟩⟩
  | _, _, .cons (k := key) hkey hk hvalue hs => by
    obtain ⟨n₁, hn₁⟩ := hkey.settles
    obtain ⟨n₂, hn₂⟩ := hvalue.settles
    obtain ⟨n₃, hn₃⟩ := hs.settles
    obtain ⟨filed, hfiled⟩ := exists_key_of_isKey hk
    refine ⟨max n₁ (max n₂ n₃), fun d hd scope content => ?_⟩
    -- Keys hold no identities, so the key that is evaluated to is the one that is denoted.
    refine (hn₁ d (by omega) scope).bind fun k' hk' => ?_
    obtain rfl := eq_of_equal_of_isKey (hkey.agree hk').equal hk
    simp only [hfiled]
    refine (hn₂ d (by omega) scope).bind fun w hw => ?_
    have hrest := hn₃ d (by omega) scope (content.insert filed (key, w))
    refine hrest.mono ?_
    rintro _ ⟨qs, hqs, rfl⟩
    refine ⟨(key, w) :: qs, .cons hkey hk hw hqs, ?_⟩
    rw [Hash.filings_cons hfiled]
    rfl

end

end Monkey
