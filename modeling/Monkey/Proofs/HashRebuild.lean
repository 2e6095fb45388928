import Monkey.Proofs.HashLookup
import Mathlib.Data.List.Forall2

/-!
Hashes made anew. Inserted one after another, the pairs of a hash make the same hash again, index
and all: each of them has a key of its own, so none takes the place of another. And pairs that are
related one by one, under the same keys, make hashes that are related pair by pair.
-/

namespace Monkey.Hash

variable {α β : Type}

theorem ofInsertions_concat (ops : List (Key × (α × α))) (op : Key × (α × α)) :
    ofInsertions (ops ++ [op]) = (ofInsertions ops).insert op.1 op.2 := by
  rw [ofInsertions, List.foldl_append]
  rfl

theorem nodup_keys_concat {es : List (Key × β)} {e : Key × β} (h : (keys (es ++ [e])).Nodup) :
    (keys es).Nodup ∧ e.1 ∉ keys es := by
  have hkeys : keys (es ++ [e]) = keys es ++ [e.1] := List.map_append
  rw [hkeys, List.nodup_append] at h
  obtain ⟨hes, -, hdisjoint⟩ := h
  exact ⟨hes, fun hmem => hdisjoint e.1 hmem e.1 (List.mem_singleton_self _) rfl⟩

theorem entries_of_nodup {es : List (Key × β)} (h : (keys es).Nodup) : entries es = es := by
  induction es using List.reverseRecOn with
  | nil => rfl
  | append_singleton es e ih =>
    obtain ⟨hes, hnew⟩ := nodup_keys_concat h
    rw [entries_concat, ih hes, put_of_not_mem hnew]

theorem mem_or_eq_of_mem_put {k : Key} {b : β} {e : Key × β} {es : List (Key × β)}
    (h : e ∈ put k b es) : e ∈ es ∨ e = (k, b) := by
  induction es with
  | nil => exact .inr (List.mem_singleton.mp h)
  | cons e' es ih =>
    rw [put] at h
    split at h
    · rcases List.mem_cons.mp h with heq | hmem
      · exact .inr heq
      · exact .inl (List.mem_cons_of_mem _ hmem)
    · rcases List.mem_cons.mp h with rfl | hmem
      · exact .inl List.mem_cons_self
      · exact (ih hmem).imp_left (List.mem_cons_of_mem _)

theorem mem_of_mem_entries {ops : List (Key × β)} {e : Key × β} (h : e ∈ entries ops) :
    e ∈ ops := by
  induction ops using List.reverseRecOn with
  | nil => exact h
  | append_singleton ops op ih =>
    rw [entries_concat] at h
    rcases mem_or_eq_of_mem_put h with hmem | rfl
    · exact List.mem_append_left _ (ih hmem)
    · exact List.mem_append_right _ (List.mem_singleton_self _)

section Distinct

variable {es : List (Key × (α × α))}

theorem position?_of_nodup (h : (keys es).Nodup) (k : Key) :
    (ofInsertions es).position? k = (keys es).idxOf? k := by
  rw [(refines_entries es).position, entries_of_nodup h]

/-- Keys of which none comes twice are filed under their places in the list. -/
theorem ofInsertions_of_nodup (h : (keys es).Nodup) :
    ofInsertions es = ⟨es.map Prod.snd, (keys es).zipIdx.reverse⟩ := by
  induction es using List.reverseRecOn with
  | nil => rfl
  | append_singleton es e ih =>
    obtain ⟨hes, hnew⟩ := nodup_keys_concat h
    have hposition : (ofInsertions es).position? e.1 = none := by
      rw [position?_of_nodup hes]
      simpa using hnew
    rw [ofInsertions_concat, insert_of_none hposition, ih hes]
    simp [keys, size, List.zipIdx_append]

theorem ofInsertions_put (h : (keys es).Nodup) (k : Key) (pair : α × α) :
    ofInsertions (put k pair es) = (ofInsertions es).insert k pair := by
  by_cases hk : k ∈ keys es
  · obtain ⟨i, hi⟩ : ∃ i, (keys es).idxOf? k = some i := by
      rw [← Option.isSome_iff_exists, List.isSome_idxOf?]
      exact hk
    obtain ⟨hkeys, hset⟩ := put_of_idxOf? (b := pair) hi
    have hposition : (ofInsertions es).position? k = some i := by
      rw [position?_of_nodup h, hi]
    rw [insert_of_some hposition, ofInsertions_of_nodup h, ofInsertions_of_nodup (hkeys ▸ h),
      hkeys, hset]
  · rw [put_of_not_mem hk, ofInsertions_concat]

end Distinct

theorem ofInsertions_entries (ops : List (Key × (α × α))) :
    ofInsertions (entries ops) = ofInsertions ops := by
  induction ops using List.reverseRecOn with
  | nil => rfl
  | append_singleton ops op ih =>
    rw [entries_concat, ofInsertions_put (nodup_keys_entries ops), ih, ofInsertions_concat]

section Pairs

variable {ps : List (Value × Value)}

theorem of_mem_filings {e : Key × (Value × Value)} (h : e ∈ filings ps) :
    e.2 ∈ ps ∧ e.2.1.key? = some e.1 := by
  obtain ⟨p, hp, he⟩ := List.mem_filterMap.mp h
  obtain ⟨k, hk, rfl⟩ := Option.map_eq_some_iff.mp he
  exact ⟨hp, hk⟩

theorem filings_map_snd {es : List (Key × (Value × Value))}
    (h : ∀ e ∈ es, e.2.1.key? = some e.1) : filings (es.map Prod.snd) = es := by
  induction es with
  | nil => rfl
  | cons e es ih =>
    obtain ⟨he, hes⟩ := List.forall_mem_cons.mp h
    rw [List.map_cons, filings_cons he, ih hes]

theorem pairs_ofPairs (ps : List (Value × Value)) :
    (ofPairs ps).pairs = (entries (filings ps)).map Prod.snd := (refines_entries _).pairs

theorem mem_of_mem_pairs_ofPairs {p : Value × Value} (h : p ∈ (ofPairs ps).pairs) : p ∈ ps := by
  rw [pairs_ofPairs] at h
  obtain ⟨e, he, rfl⟩ := List.mem_map.mp h
  exact (of_mem_filings (mem_of_mem_entries he)).1

/-- A hash is what its own pairs make, inserted one after another. -/
theorem ofPairs_pairs (ps : List (Value × Value)) : ofPairs (ofPairs ps).pairs = ofPairs ps := by
  have hfilings : filings (ofPairs ps).pairs = entries (filings ps) := by
    rw [pairs_ofPairs]
    exact filings_map_snd fun e he => (of_mem_filings (mem_of_mem_entries he)).2
  rw [ofPairs, hfilings, ofInsertions_entries]
  rfl

end Pairs

/-- The hashes have one index and, position by position, related pairs. -/
structure Related (R : α × α → β × β → Prop) (h : Hash α) (h' : Hash β) : Prop where
  index : h.index = h'.index
  pairs : List.Forall₂ R h.pairs h'.pairs

theorem forall₂_set {R : α → β → Prop} {as : List α} {bs : List β} {a : α} {b : β}
    (h : List.Forall₂ R as bs) (i : Nat) (hab : R a b) :
    List.Forall₂ R (as.set i a) (bs.set i b) := by
  induction h generalizing i with
  | nil => exact .nil
  | cons h hs ih =>
    cases i with
    | zero => exact .cons hab hs
    | succ i => exact .cons h (ih i)

theorem rel_getElem? {R : α → β → Prop} {as : List α} {bs : List β} (h : List.Forall₂ R as bs)
    (i : Nat) : Option.Rel R as[i]? bs[i]? := by
  induction h generalizing i with
  | nil => exact .none
  | cons h hs ih =>
    cases i with
    | zero => exact .some h
    | succ i => exact ih i

namespace Related

variable {R : α × α → β × β → Prop} {h : Hash α} {h' : Hash β}

theorem empty : Related R (∅ : Hash α) (∅ : Hash β) := ⟨rfl, .nil⟩

theorem position?_eq (hr : Related R h h') (k : Key) : h.position? k = h'.position? k := by
  rw [position?, position?, hr.index]

theorem get? (hr : Related R h h') (k : Key) : Option.Rel R (h.get? k) (h'.get? k) := by
  rw [Hash.get?, Hash.get?, hr.position?_eq]
  cases h'.position? k with
  | none => exact .none
  | some i => exact rel_getElem? hr.pairs i

theorem insert (hr : Related R h h') (k : Key) {p : α × α} {q : β × β} (hpq : R p q) :
    Related R (h.insert k p) (h'.insert k q) := by
  have hposition := hr.position?_eq k
  cases hk : h'.position? k with
  | some i =>
    rw [insert_of_some (hposition.trans hk), insert_of_some hk]
    exact ⟨hr.index, forall₂_set hr.pairs i hpq⟩
  | none =>
    rw [insert_of_none (hposition.trans hk), insert_of_none hk]
    refine ⟨?_, List.rel_append hr.pairs (.cons hpq .nil)⟩
    rw [hr.index, size, size, hr.pairs.length_eq]

theorem insertAll {R : Value × Value → Value × Value → Prop} {h h' : Hash Value}
    (hr : Related R h h') {ps qs : List (Value × Value)}
    (hpq : List.Forall₂ (fun p q => p.1.key? = q.1.key? ∧ R p q) ps qs) :
    Related R ((filings ps).foldl (fun h op => h.insert op.1 op.2) h)
      ((filings qs).foldl (fun h op => h.insert op.1 op.2) h') := by
  induction hpq generalizing h h' with
  | nil => exact hr
  | @cons p q ps qs hhead _ ih =>
    obtain ⟨hkey, hpq⟩ := hhead
    cases hk : q.1.key? with
    | none =>
      have hskipped : filings (p :: ps) = filings ps ∧ filings (q :: qs) = filings qs := by
        simp [filings, hkey, hk]
      rw [hskipped.1, hskipped.2]
      exact ih hr
    | some k =>
      rw [filings_cons (hkey.trans hk), filings_cons hk]
      exact ih (hr.insert k hpq)

end Related

theorem related_ofPairs {R : Value × Value → Value × Value → Prop} {ps qs : List (Value × Value)}
    (h : List.Forall₂ (fun p q => p.1.key? = q.1.key? ∧ R p q) ps qs) :
    Related R (ofPairs ps) (ofPairs qs) := Related.empty.insertAll h

end Monkey.Hash
