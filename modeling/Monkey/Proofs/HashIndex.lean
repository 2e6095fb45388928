import Monkey.Value

/-!
The two halves of a hash fit together: its index maps the keys one-to-one onto the positions of the
pairs, and the pair at a position was filed under the key that leads there. Every insertion keeps
this so.
-/

namespace Monkey.Hash

variable {α : Type}

/-- The index maps its keys one-to-one onto the positions of the pairs. -/
structure Coherent (h : Hash α) : Prop where
  lt_size : ∀ {k : Key} {i : Nat}, h.position? k = some i → i < h.size
  injective : ∀ {k k' : Key} {i : Nat}, h.position? k = some i → h.position? k' = some i → k = k'
  surjective : ∀ {i : Nat}, i < h.size → ∃ k, h.position? k = some i

theorem coherent_empty : (∅ : Hash α).Coherent :=
  ⟨nofun, nofun, fun hi => absurd hi (Nat.not_lt_zero _)⟩

theorem insert_of_some {h : Hash α} {k : Key} {i : Nat} (hk : h.position? k = some i)
    (pair : α × α) : h.insert k pair = ⟨h.pairs.set i pair, h.index⟩ := by
  simp only [insert, hk]

theorem insert_of_none {h : Hash α} {k : Key} (hk : h.position? k = none) (pair : α × α) :
    h.insert k pair = ⟨h.pairs ++ [pair], (k, h.size) :: h.index⟩ := by
  simp only [insert, hk, size]

/-- Coherence is about the positions and their number alone. -/
theorem Coherent.of_position?_eq {h h' : Hash α} (hh : h.Coherent)
    (hposition : ∀ k, h'.position? k = h.position? k) (hsize : h'.size = h.size) :
    h'.Coherent := by
  refine ⟨?_, ?_, ?_⟩
  · intro k i hi
    rw [hsize]
    exact hh.lt_size (hposition k ▸ hi)
  · intro k k' i hi hi'
    exact hh.injective (hposition k ▸ hi) (hposition k' ▸ hi')
  · intro i hi
    obtain ⟨k, hk⟩ := hh.surjective (hsize ▸ hi)
    exact ⟨k, (hposition k).trans hk⟩

theorem Coherent.insert {h : Hash α} (hh : h.Coherent) (k : Key) (pair : α × α) :
    (h.insert k pair).Coherent := by
  cases hk : h.position? k with
  | some i =>
    rw [insert_of_some hk]
    exact hh.of_position?_eq (fun _ => rfl) List.length_set
  | none =>
    have hposition : ∀ k', (h.insert k pair).position? k' =
        if k' = k then some h.size else h.position? k' := by
      intro k'
      rw [position?_insert, hk]
      rfl
    have hsize : (h.insert k pair).size = h.size + 1 := by
      rw [insert_of_none hk]
      simp [size]
    refine ⟨?_, ?_, ?_⟩
    · intro k' j hj
      rw [hposition] at hj
      split at hj
      · obtain rfl := Option.some.inj hj
        omega
      · have := hh.lt_size hj
        omega
    · intro k' k'' j hj hj'
      rw [hposition] at hj hj'
      split at hj <;> split at hj'
      · next h' h'' => exact h'.trans h''.symm
      · obtain rfl := Option.some.inj hj
        exact absurd (hh.lt_size hj') (Nat.lt_irrefl _)
      · obtain rfl := Option.some.inj hj'
        exact absurd (hh.lt_size hj) (Nat.lt_irrefl _)
      · exact hh.injective hj hj'
    · intro j hj
      by_cases hlast : j = h.size
      · exact ⟨k, by rw [hposition, if_pos rfl, hlast]⟩
      · obtain ⟨k', hk'⟩ := hh.surjective (i := j) (by omega)
        have hne : k' ≠ k := by
          rintro rfl
          rw [hk] at hk'
          cases hk'
        exact ⟨k', by rw [hposition, if_neg hne, hk']⟩

/-- Every entry of the index is the one that lookup finds for its key, and has a pair. -/
def Tidy (h : Hash α) : Prop :=
  ∀ entry ∈ h.index, h.position? entry.1 = some entry.2 ∧ entry.2 < h.size

theorem tidy_empty : (∅ : Hash α).Tidy := by
  intro entry hentry
  exact absurd hentry List.not_mem_nil

theorem Tidy.insert {h : Hash α} (hh : h.Tidy) (k : Key) (pair : α × α) :
    (h.insert k pair).Tidy := by
  intro entry hentry
  cases hk : h.position? k with
  | some i =>
    rw [insert_of_some hk] at hentry ⊢
    obtain ⟨hposition, hlt⟩ := hh entry hentry
    exact ⟨hposition, Nat.lt_of_lt_of_eq hlt List.length_set.symm⟩
  | none =>
    rw [position?_insert, hk]
    rw [insert_of_none hk] at hentry ⊢
    have hsize : (⟨h.pairs ++ [pair], (k, h.size) :: h.index⟩ : Hash α).size = h.size + 1 := by
      simp [size]
    rw [hsize]
    rcases List.mem_cons.mp hentry with rfl | hentry
    · exact ⟨if_pos rfl, Nat.lt_succ_self _⟩
    · obtain ⟨hposition, hlt⟩ := hh entry hentry
      have hne : entry.1 ≠ k := by
        rintro heq
        rw [heq, hk] at hposition
        cases hposition
      exact ⟨(if_neg hne).trans hposition, Nat.lt_succ_of_lt hlt⟩

/-- The pair at the position of a key has a key object that is filed under this key. -/
def Filed (h : Hash Value) : Prop :=
  ∀ ⦃k : Key⦄ ⦃i : Nat⦄ ⦃p : Value × Value⦄, h.position? k = some i → h.pairs[i]? = some p →
    p.1.key? = some k

theorem filed_empty : Filed ∅ := nofun

theorem Filed.insert {h : Hash Value} (hh : h.Coherent) (hf : h.Filed) {k : Key}
    {key value : Value} (hkey : key.key? = some k) : (h.insert k (key, value)).Filed := by
  intro k' j p hj hp
  cases hk : h.position? k with
  | some i =>
    rw [insert_of_some hk] at hj hp
    have hj' : h.position? k' = some j := hj
    by_cases hij : i = j
    · subst hij
      obtain rfl := hh.injective hk hj'
      rw [List.getElem?_set_self (hh.lt_size hk)] at hp
      obtain rfl := Option.some.inj hp
      exact hkey
    · rw [List.getElem?_set_ne hij] at hp
      exact hf hj' hp
  | none =>
    rw [position?_insert, hk] at hj
    rw [insert_of_none hk] at hp
    simp only at hp
    split at hj
    · next heq =>
      obtain rfl := Option.some.inj hj
      rw [Option.getD_none, size, List.getElem?_concat_length] at hp
      obtain rfl := Option.some.inj hp
      rw [heq]
      exact hkey
    · rw [List.getElem?_append_left (hh.lt_size hj)] at hp
      exact hf hj hp

/-- Only integers, booleans and strings have a key, so only they are key objects. -/
theorem kind_of_filed {h : Hash Value} (hh : h.Coherent) (hf : h.Filed) {p : Value × Value}
    (hp : p ∈ h.pairs) : p.1.kind = .integer ∨ p.1.kind = .boolean ∨ p.1.kind = .string := by
  obtain ⟨i, hi⟩ := List.mem_iff_getElem?.mp hp
  obtain ⟨hlt, -⟩ := List.getElem?_eq_some_iff.mp hi
  obtain ⟨k, hk⟩ := hh.surjective hlt
  have hkey := hf hk hi
  cases hv : p.1 with
  | integer n => exact .inl rfl
  | boolean b => exact .inr (.inl rfl)
  | string s => exact .inr (.inr rfl)
  | _ =>
    rw [hv] at hkey
    cases hkey

end Monkey.Hash
