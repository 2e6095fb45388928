import Monkey.Proofs.InsertionOrder
import Monkey.Evaluator
import Mathlib.Data.List.Find

/-!
Looking up in a hash by value. A hash files a pair under the kind and one word of its key object,
and finds it again under the kind and the word of the object that it is asked for. For integers and
booleans the word is the value; for strings it is a fingerprint, and strings that share it share a
pair. So what is found is the last pair whose key is equal or collides.
-/

namespace Monkey

namespace Value

/-- Integers, booleans and strings can be keys of a hash. -/
def isKey : Value → Bool
  | integer _ | boolean _ | string _ => true
  | _ => false

/-- Different strings with the same fingerprint. -/
def collides : Value → Value → Bool
  | string s, string t =>
    s != t && Text.Fingerprint.ofString s == Text.Fingerprint.ofString t
  | _, _ => false

/-- Equal, or not to be told apart by a hash. -/
def sameKey (v w : Value) : Bool := v.equal w || v.collides w

theorem isSome_key? (v : Value) : v.key?.isSome = v.isKey := by
  cases v <;> rfl

theorem exists_key_of_isKey {v : Value} (h : v.isKey = true) : ∃ k, v.key? = some k := by
  rw [← isSome_key?] at h
  exact Option.isSome_iff_exists.mp h

theorem key?_eq_iff {v w : Value} (hw : w.isKey = true) :
    v.key? = w.key? ↔ v.sameKey w = true := by
  cases w with
  | integer n =>
    cases v with
    | integer k =>
      simp [key?, sameKey, equal, collides, ← Int64.toBitVec_inj, ← UInt64.toBitVec_inj]
    | _ => simp [key?, sameKey, equal, collides]
  | boolean b =>
    cases v with
    | boolean c => cases b <;> cases c <;> simp [key?, sameKey, equal, collides]
    | _ => simp [key?, sameKey, equal, collides]
  | string t =>
    cases v with
    | string s =>
      by_cases hst : s = t
      · simp [key?, sameKey, equal, collides, hst]
      · simp [key?, sameKey, equal, collides, hst]
    | _ => simp [key?, sameKey, equal, collides]
  | _ => cases hw

/-- The value of the last of the pairs with the same key, `null` if there is none. -/
def lastUnder (same : Value → Value → Bool) (k : Value) (ps : List (Value × Value)) : Value :=
  ((ps.reverse.find? fun p => same p.1 k).map Prod.snd).getD null

theorem lastUnder_congr {same same' : Value → Value → Bool} {k : Value}
    {ps : List (Value × Value)} (h : ∀ p ∈ ps, same p.1 k = same' p.1 k) :
    lastUnder same k ps = lastUnder same' k ps := by
  unfold lastUnder
  congr 2
  exact List.find?_congr fun p hp => h p (List.mem_reverse.mp hp)

end Value

namespace Hash

/-- The pairs, each under the key that its key object is filed under. -/
def filings (ps : List (Value × Value)) : List (Key × (Value × Value)) :=
  ps.filterMap fun p => p.1.key?.map fun k => (k, p)

/-- The hash that the pairs make, one inserted after another. -/
def ofPairs (ps : List (Value × Value)) : Hash Value := ofInsertions (filings ps)

theorem filings_cons {p : Value × Value} {k : Key} (h : p.1.key? = some k)
    (ps : List (Value × Value)) : filings (p :: ps) = (k, p) :: filings ps := by
  simp [filings, h]

theorem lookup_filings (k : Key) (ps : List (Value × Value)) :
    (filings ps).lookup k = ps.find? fun p => p.1.key? == some k := by
  induction ps with
  | nil => rfl
  | cons p ps ih =>
    cases hp : p.1.key? with
    | none => simpa [filings, hp] using ih
    | some k' =>
      rw [filings_cons hp]
      by_cases hk : k' = k
      · rw [lookup_cons_of_eq hk]
        simp [hp, hk]
      · rw [lookup_cons_of_ne hk, ih]
        simp [hp, hk]

/-- Under a key the last pair is found that was filed there. -/
theorem get?_ofPairs (k : Key) (ps : List (Value × Value)) :
    (ofPairs ps).get? k = ps.reverse.find? fun p => p.1.key? == some k := by
  rw [ofPairs, (refines_entries _).get?_eq, lookup_entries, ← lookup_filings, filings, filings,
    List.filterMap_reverse]

end Hash

namespace Evaluator

/-- The keys and values of the pairs evaluate to these, one after another from the first machine to
the second, and each key can be filed. -/
inductive GivesPairs (eval : Evaluator) (scope : ScopeId) :
    List (Expr × Expr) → List (Value × Value) → Machine → Machine → Prop
  | nil (m : Machine) : GivesPairs eval scope [] [] m m
  | cons {key value : Expr} {es : List (Expr × Expr)} {k v : Value} {ps : List (Value × Value)}
      {m m₁ m₂ m₃ : Machine} (hkey : eval scope key m = .done k m₁) (hk : k.isKey = true)
      (hvalue : eval scope value m₁ = .done v m₂) (h : GivesPairs eval scope es ps m₂ m₃) :
      GivesPairs eval scope ((key, value) :: es) ((k, v) :: ps) m m₃

theorem GivesPairs.pairs_eq {eval : Evaluator} {scope : ScopeId} {es : List (Expr × Expr)}
    {ps : List (Value × Value)} {m m' : Machine} (h : eval.GivesPairs scope es ps m m')
    (content : Hash Value) : eval.pairs scope content es m =
      .done ((Hash.filings ps).foldl (fun h op => h.insert op.1 op.2) content) m' := by
  induction h generalizing content with
  | nil m => rfl
  | cons hkey hk hvalue _ ih =>
    obtain ⟨filed, hfiled⟩ := Value.exists_key_of_isKey hk
    rw [pairs, Eval.bind_of_done hkey]
    simp only [hfiled]
    rw [Eval.bind_of_done hvalue, ih, Hash.filings_cons hfiled]
    rfl

end Evaluator

namespace Value

theorem index_eq_lastUnder (id : Identity) (ps : List (Value × Value)) {k : Value}
    (hk : k.isKey = true) :
    (hash id (Hash.ofPairs ps)).index k = .ok (lastUnder sameKey k ps) := by
  obtain ⟨filed, hfiled⟩ := exists_key_of_isKey hk
  have hfound : (Hash.ofPairs ps).get? filed = ps.reverse.find? fun p => p.1.sameKey k := by
    rw [Hash.get?_ofPairs]
    congr 1
    funext p
    rw [Bool.eq_iff_iff, beq_iff_eq, ← hfiled, key?_eq_iff hk]
  simp only [index, hfiled, hfound, lastUnder]
  cases ps.reverse.find? fun p => p.1.sameKey k <;> rfl

/-- A hash that pairs are put into one after another, as the evaluation of its literal does it,
gives for a key the value of the last pair whose key is equal to it or collides with it, and `null`
if there is none; where nothing collides, this is the last pair with an equal key. -/
theorem index_ofPairs (id : Identity) (ps : List (Value × Value)) {k : Value}
    (hk : k.isKey = true) :
    (∀ (eval : Evaluator) (scope : ScopeId) (es : List (Expr × Expr)) (m m' : Machine),
      eval.GivesPairs scope es ps m m' → eval.pairs scope ∅ es m = .done (Hash.ofPairs ps) m') ∧
    (hash id (Hash.ofPairs ps)).index k = .ok (lastUnder sameKey k ps) ∧
    ((∀ p ∈ ps, p.1.collides k = false) →
      (hash id (Hash.ofPairs ps)).index k = .ok (lastUnder equal k ps)) := by
  have hindex := index_eq_lastUnder id ps hk
  refine ⟨fun eval scope es m m' h => h.pairs_eq ∅, hindex, fun hfree => ?_⟩
  rw [hindex, lastUnder_congr fun p hp => ?_]
  rw [sameKey, hfree p hp, Bool.or_false]

/-- A pair with a string, one with an integer and one with a boolean, and the first key again. -/
theorem index_ofPairs_repeated : ∃ (es : List (Expr × Expr)) (ps : List (Value × Value)),
    Evaluator.GivesPairs (Expr.eval 1) 0 es ps Machine.initial Machine.initial ∧
    Evaluator.pairs (Expr.eval 1) 0 ∅ es Machine.initial =
      .done (Hash.ofPairs ps) Machine.initial ∧
    (∀ p ∈ ps, p.1.collides (string "one") = false) ∧
    (hash 0 (Hash.ofPairs ps)).index (string "one") = .ok (integer 4) := by
  let t (literal : String) : Token := ⟨.string, literal, Span.empty 0⟩
  let es : List (Expr × Expr) := [(.string (t "one"), .integer (t "1") 1),
    (.integer (t "1") 1, .integer (t "2") 2), (.boolean (t "true") true, .integer (t "3") 3),
    (.string (t "one"), .integer (t "4") 4)]
  let ps : List (Value × Value) := [(string "one", integer 1), (integer 1, integer 2),
    (boolean true, integer 3), (string "one", integer 4)]
  have hgives : Evaluator.GivesPairs (Expr.eval 1) 0 es ps Machine.initial Machine.initial :=
    .cons rfl rfl rfl (.cons rfl rfl rfl (.cons rfl rfl rfl (.cons rfl rfl rfl (.nil _))))
  have hfree : ∀ p ∈ ps, p.1.collides (string "one") = false := by simp [ps, collides]
  obtain ⟨hpairs, -, hindex⟩ := index_ofPairs 0 ps (k := string "one") rfl
  refine ⟨es, ps, hgives, hpairs _ _ _ _ _ hgives, hfree, ?_⟩
  rw [hindex hfree]
  rfl

/-- Two strings of eight bytes share a fingerprint, and so what was filed under the one is found
under the other, though no key is equal to it. -/
theorem index_ofPairs_collision :
    (hash 0 (Hash.ofPairs [(string "Téc6mat", integer 1)])).index (string "øz名GC") =
      .ok (integer 1) ∧
    (hash 0 (Hash.ofPairs [(string "Téc6mat", integer 1)])).index (string "øz名GC") ≠
      .ok (lastUnder equal (string "øz名GC") [(string "Téc6mat", integer 1)]) := by
  have hcollides : (string "Téc6mat").collides (string "øz名GC") = true := by decide +kernel
  have hfound : (hash 0 (Hash.ofPairs [(string "Téc6mat", integer 1)])).index (string "øz名GC") =
      .ok (integer 1) := by
    rw [index_eq_lastUnder _ _ rfl, lastUnder]
    simp [sameKey, hcollides]
  refine ⟨hfound, ?_⟩
  rw [hfound]
  simp [lastUnder, equal]

end Value

end Monkey
