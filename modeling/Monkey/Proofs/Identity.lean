import Monkey.Proofs.Contents
import Monkey.Proofs.HashIndex

/-!
Identities and contents. Two arrays, two hashes or two functions are identical if they have the same
identity; whether they are equal depends on their contents. A value is equal to itself as long as
the index of every hash in it fits the pairs.
-/

namespace Monkey.Value

/-- The identity of a function, an array or a hash; other values have none. -/
def identity? : Value → Option Identity
  | function id _ | array id _ | hash id _ => some id
  | _ => none

variable {v w : Value} {id : Identity}

theorem identity?_of_identical (hv : v.identity? = some id) (h : v.identical w = true) :
    w.identity? = some id := by
  cases v with
  | function i c | array i vs | hash i content =>
    cases w with
    | function j c' | array j vs' | hash j content' => simp_all [identical, identity?]
    | _ => simp [identical] at h
  | _ => cases hv

theorem identical_self (hv : v.identity? = some id) : v.identical v = true := by
  cases v with
  | function i c | array i vs | hash i content => exact beq_self_eq_true i
  | _ => cases hv

/-- If a hash, then one whose index fits its pairs. -/
def Tidy : Value → Prop
  | hash _ h => h.Tidy
  | _ => True

/-- A hash is equal to itself if its keys and values are. -/
theorem equal_self_of_tidy {h : Hash Value} (htidy : h.Tidy)
    (hpairs : ∀ p ∈ h.pairs, p.1.equal p.1 = true ∧ p.2.equal p.2 = true) :
    (hash id h).equal (hash id h) = true := by
  obtain ⟨pairs, index⟩ := h
  simp only [equal, Hash.size, beq_self_eq_true, Bool.true_and, List.all_eq_true]
  intro entry hentry
  obtain ⟨hposition, hlt⟩ := htidy entry hentry
  have hpair : pairs[entry.2]? = some pairs[entry.2] := List.getElem?_eq_getElem hlt
  have hget : Hash.get? ⟨pairs, index⟩ entry.1 = some pairs[entry.2] := by
    rw [Hash.get?, hposition]
    exact hpair
  rw [pairTests_eq_map, List.getElem?_map, hpair, hget]
  exact Bool.and_eq_true_iff.mpr (hpairs _ (List.getElem_mem hlt))

mutual

theorem equal_self : ∀ v : Value, v.All Tidy → v.equal v = true
  | integer _, _ | string _, _ | boolean _, _ | null, _ | error _, _ | function _ _, _
  | builtin _, _ => by simp [equal]
  | returned v, h => equal_self v (all_returned_iff.mp h).2
  | array _ vs, h => equalAll_self vs (all_array_iff.mp h).2
  | hash _ ⟨pairs, _⟩, h =>
    equal_self_of_tidy h.self (equal_self_of_mem pairs (all_hash_iff.mp h).2)

theorem equalAll_self : ∀ vs : List Value, (∀ v ∈ vs, v.All Tidy) → equalAll vs vs = true
  | [], _ => rfl
  | v :: vs, h => by
    obtain ⟨hv, hvs⟩ := List.forall_mem_cons.mp h
    rw [equalAll, equal_self v hv, equalAll_self vs hvs]
    rfl

theorem equal_self_of_mem : ∀ ps : List (Value × Value), (∀ p ∈ ps, p.1.All Tidy ∧ p.2.All Tidy) →
    ∀ p ∈ ps, p.1.equal p.1 = true ∧ p.2.equal p.2 = true
  | [], _ => nofun
  | (key, value) :: ps, h => by
    obtain ⟨⟨hkey, hvalue⟩, hps⟩ := List.forall_mem_cons.mp h
    have hself := equal_self_of_mem ps hps
    exact List.forall_mem_cons.mpr ⟨⟨equal_self key hkey, equal_self value hvalue⟩, hself⟩

end

end Monkey.Value
