import Monkey.Proofs.HashIndex
import Monkey.Value.Printer
import Mathlib.Data.List.Induction

/-!
A hash is an association list in insertion order. The list that it stands for has every key once, at
the place where the key first came in, with the pair that came in last; positions are found by the
index of the hash, and by search in the list, and both find the same.
-/

namespace Monkey.Hash

variable {α β : Type}

/-- Files something under a key, which keeps its place if it has one and is last if not. -/
def put (k : Key) (b : β) : List (Key × β) → List (Key × β)
  | [] => [(k, b)]
  | e :: es => if e.1 = k then (k, b) :: es else e :: put k b es

/-- The keys of an association list, from the first to the last. -/
def keys (es : List (Key × β)) : List Key := es.map Prod.fst

section Put

variable {k k' : Key} {b : β} {i : Nat} {e : Key × β} {es : List (Key × β)}

theorem lookup_cons_of_eq (h : e.1 = k) : (e :: es).lookup k = some e.2 := by
  obtain ⟨k', b⟩ := e
  subst h
  simp

theorem lookup_cons_of_ne (h : e.1 ≠ k) : (e :: es).lookup k = es.lookup k := by
  obtain ⟨k', b⟩ := e
  rw [List.lookup_cons, beq_eq_false_iff_ne.mpr (Ne.symm h)]

theorem put_of_not_mem (h : k ∉ keys es) : put k b es = es ++ [(k, b)] := by
  induction es with
  | nil => rfl
  | cons e es ih =>
    have he : e.1 ≠ k := fun heq => h (List.mem_cons.mpr (.inl heq.symm))
    have hes : k ∉ keys es := fun hmem => h (List.mem_cons_of_mem _ hmem)
    rw [put, if_neg he, ih hes, List.cons_append]

/-- A key that is already there is looked up by its place. -/
theorem put_of_idxOf? (h : (keys es).idxOf? k = some i) :
    keys (put k b es) = keys es ∧ (put k b es).map Prod.snd = (es.map Prod.snd).set i b := by
  induction es generalizing i with
  | nil => cases h
  | cons e es ih =>
    by_cases he : e.1 = k
    · obtain rfl : 0 = i := by simpa [keys, List.idxOf?_cons, he] using h
      simp [put, keys, he]
    · have hes : ((keys es).idxOf? k).map (· + 1) = some i := by
        simpa [keys, List.idxOf?_cons, he] using h
      obtain ⟨j, hj, rfl⟩ := Option.map_eq_some_iff.mp hes
      obtain ⟨hkeys, hset⟩ := ih hj
      rw [put, if_neg he]
      exact ⟨congrArg (e.1 :: ·) hkeys, congrArg (e.2 :: ·) hset⟩

theorem lookup_put : (put k b es).lookup k' = if k = k' then some b else es.lookup k' := by
  induction es with
  | nil => by_cases hk : k = k' <;> simp [put, lookup_cons_of_ne, hk]
  | cons e es ih =>
    by_cases he : e.1 = k
    · rw [put, if_pos he]
      by_cases hk : k = k'
      · rw [lookup_cons_of_eq hk, if_pos hk]
      · rw [lookup_cons_of_ne hk, if_neg hk, lookup_cons_of_ne (he ▸ hk)]
    · rw [put, if_neg he]
      by_cases hk : e.1 = k'
      · have hne : k ≠ k' := fun heq => he (hk.trans heq.symm)
        rw [lookup_cons_of_eq hk, if_neg hne, lookup_cons_of_eq hk]
      · rw [lookup_cons_of_ne hk, ih, lookup_cons_of_ne hk]

theorem keys_put : keys (put k b es) = if k ∈ keys es then keys es else keys es ++ [k] := by
  by_cases hk : k ∈ keys es
  · obtain ⟨i, hi⟩ : ∃ i, (keys es).idxOf? k = some i := by
      rw [← Option.isSome_iff_exists, List.isSome_idxOf?]
      exact hk
    rw [if_pos hk, (put_of_idxOf? hi).1]
  · rw [if_neg hk, put_of_not_mem hk]
    exact List.map_append

/-- Where no key comes twice, every entry is the one that is found under its key. -/
theorem map_lookup_keys (h : (keys es).Nodup) :
    (keys es).map (fun k => es.lookup k) = es.map fun e => some e.2 := by
  induction es with
  | nil => rfl
  | cons e es ih =>
    obtain ⟨he, hes⟩ := List.nodup_cons.mp h
    have hrest : (keys es).map (fun k => (e :: es).lookup k) =
        (keys es).map fun k => es.lookup k := by
      refine List.map_congr_left fun k hk => lookup_cons_of_ne ?_
      rintro rfl
      exact he hk
    show (e :: es).lookup e.1 :: (keys es).map (fun k => (e :: es).lookup k) = _
    rw [lookup_cons_of_eq rfl, hrest, ih hes]
    rfl

end Put

/-- The hash holds the entries of the list in their order, and its index says where. -/
structure Refines (h : Hash α) (es : List (Key × (α × α))) : Prop where
  pairs : h.pairs = es.map Prod.snd
  position : ∀ k, h.position? k = (keys es).idxOf? k

theorem refines_empty : Refines (∅ : Hash α) [] := ⟨rfl, fun _ => rfl⟩

namespace Refines

variable {h : Hash α} {es : List (Key × (α × α))}

theorem size_eq (hr : Refines h es) : h.size = (keys es).length := by
  rw [size, hr.pairs, keys, List.length_map, List.length_map]

theorem get?_eq (hr : Refines h es) (k : Key) : h.get? k = es.lookup k := by
  rw [get?, hr.position, hr.pairs]
  clear hr
  induction es with
  | nil => rfl
  | cons e es ih =>
    by_cases he : e.1 = k
    · simp [keys, List.idxOf?_cons, lookup_cons_of_eq he, he]
    · have hindex : (keys (e :: es)).idxOf? k = ((keys es).idxOf? k).map (· + 1) := by
        simp [keys, List.idxOf?_cons, he]
      rw [lookup_cons_of_ne he, ← ih, hindex, Option.bind_map]
      rfl

theorem insert (hr : Refines h es) (k : Key) (pair : α × α) :
    Refines (h.insert k pair) (put k pair es) := by
  have hposition := hr.position k
  cases hi : (keys es).idxOf? k with
  | some i =>
    obtain ⟨hkeys, hset⟩ := put_of_idxOf? (b := pair) hi
    rw [insert_of_some (hposition.trans hi)]
    refine ⟨?_, fun k' => ?_⟩
    · rw [hset, ← hr.pairs]
    · rw [hkeys]
      exact hr.position k'
  | none =>
    have hmem : k ∉ keys es := by simpa using hi
    rw [put_of_not_mem hmem]
    refine ⟨?_, fun k' => ?_⟩
    · rw [insert_of_none (hposition.trans hi), List.map_append, ← hr.pairs]
      rfl
    · -- The index files a new key under the number of pairs so far, which is its place in the list.
      have hkeys : keys (es ++ [(k, pair)]) = keys es ++ [k] := List.map_append
      rw [position?_insert, hposition, hi, hr.position, hr.size_eq, hkeys, Option.getD_none,
        List.idxOf?, List.findIdx?_append]
      by_cases hk : k' = k
      · subst hk
        rw [List.idxOf?] at hi
        simp [hi]
      · simp [hk, Ne.symm hk]

end Refines

/-- The hash that insertions make of the empty one. -/
def ofInsertions (ops : List (Key × (α × α))) : Hash α :=
  ops.foldl (fun h op => h.insert op.1 op.2) ∅

/-- The association list that the same insertions make of the empty one. -/
def entries (ops : List (Key × β)) : List (Key × β) :=
  ops.foldl (fun es op => put op.1 op.2 es) []

theorem refines_entries (ops : List (Key × (α × α))) : Refines (ofInsertions ops) (entries ops) :=
  List.foldl_rel refines_empty fun op _ _ _ hr => hr.insert op.1 op.2

theorem tidy_ofInsertions (ops : List (Key × (α × α))) : (ofInsertions ops).Tidy :=
  List.foldlRecOn ops _ tidy_empty fun _ hh op _ => hh.insert op.1 op.2

section Entries

variable (ops : List (Key × β)) (op : Key × β)

theorem entries_concat : entries (ops ++ [op]) = put op.1 op.2 (entries ops) := by
  rw [entries, List.foldl_append]
  rfl

theorem keys_entries : keys (entries ops) = (keys ops).eraseDups := by
  induction ops using List.reverseRecOn with
  | nil => rfl
  | append_singleton ops op ih =>
    have hkeys : keys (ops ++ [op]) = keys ops ++ [op.1] := List.map_append
    rw [entries_concat, keys_put, ih, hkeys, List.eraseDups_append]
    by_cases hmem : op.1 ∈ keys ops
    · simp [hmem, List.removeAll]
    · simp [hmem, List.removeAll, List.eraseDups_cons]

theorem nodup_keys_entries : (keys (entries ops)).Nodup := by
  induction ops using List.reverseRecOn with
  | nil => exact .nil
  | append_singleton ops op ih =>
    rw [entries_concat, keys_put]
    split
    · exact ih
    · next hmem =>
      refine List.nodup_append.mpr ⟨ih, by simp, fun k hk k' hk' => ?_⟩
      rw [List.mem_singleton.mp hk']
      exact fun heq => hmem (heq ▸ hk)

/-- The pair under a key is the one that came in last. -/
theorem lookup_entries (k : Key) : (entries ops).lookup k = ops.reverse.lookup k := by
  induction ops using List.reverseRecOn with
  | nil => rfl
  | append_singleton ops op ih =>
    rw [entries_concat, lookup_put, List.reverse_concat, ih]
    by_cases hk : op.1 = k
    · rw [if_pos hk, lookup_cons_of_eq hk]
    · rw [if_neg hk, lookup_cons_of_ne hk]

end Entries

/-- What is left of insertions into an empty hash: under each key the pair that was inserted last,
one position for each key, and the pairs in the order in which their keys were first inserted. -/
theorem insertion_order (ops : List (Key × (Value × Value))) :
    (∀ k, (ofInsertions ops).get? k = ops.reverse.lookup k) ∧
    (ofInsertions ops).size = (keys ops).eraseDups.length ∧
    (ofInsertions ops).pairs.map some =
      (keys ops).eraseDups.map (fun k => ops.reverse.lookup k) ∧
    (∀ entry ∈ (ofInsertions ops).index, entry.2 < (ofInsertions ops).pairs.length) ∧
    (ofInsertions ops).inspect =
      "\x7b" ++ ", ".intercalate (((keys ops).eraseDups.filterMap fun k => ops.reverse.lookup k).map
        fun p => p.1.inspect ++ ": " ++ p.2.inspect) ++ "\x7d" := by
  have hr := refines_entries ops
  have hpairs : (ofInsertions ops).pairs.map some =
      (keys ops).eraseDups.map fun k => ops.reverse.lookup k := by
    have hfound := map_lookup_keys (nodup_keys_entries ops)
    simp only [lookup_entries, keys_entries] at hfound
    rw [hfound, hr.pairs, List.map_map]
    rfl
  refine ⟨fun k => ?_, ?_, hpairs, fun entry hentry => ?_, ?_⟩
  · rw [hr.get?_eq, lookup_entries]
  · rw [hr.size_eq, keys_entries]
  · exact (tidy_ofInsertions ops entry hentry).2
  · have hmap := congrArg (List.filterMap id) hpairs
    rw [List.filterMap_map, List.filterMap_map] at hmap
    simp only [Function.comp_def, id, List.filterMap_some] at hmap
    rw [inspect, Value.inspectPairs_eq_map, ← hmap, listing]

example : (ofInsertions [(⟨.string, 7⟩, (.string "b", .integer 1)),
    (⟨.string, 8⟩, (.string "a", .integer 2)),
    (⟨.string, 7⟩, (.string "b", .integer 3))]).inspect = "\x7bb: 3, a: 2\x7d" := by
  decide +kernel

end Monkey.Hash
