import Monkey.Proofs.Identity
import Monkey.Proofs.InsertionOrder
import Mathlib.Data.List.Perm.Subperm

/-!
Equality of contents is an equivalence. The comparison of two hashes goes through the keys of the
first only, and compares the numbers of pairs; as every key has one position, this is enough to
find the same keys in both. So hashes are equal exactly if they hold equal pairs under every key,
in whatever order the pairs were inserted, and whichever of two pairs is compared to the other.
-/

namespace Monkey

namespace Hash

variable {α : Type}

/-- The keys of a hash that insertions made, without repetition. -/
theorem exists_keys (ops : List (Key × (α × α))) : ∃ ks : List Key, ks.Nodup ∧
    (ofInsertions ops).size = ks.length ∧
    ∀ k, k ∈ ks ↔ ((ofInsertions ops).get? k).isSome = true := by
  have hr := refines_entries ops
  refine ⟨keys (entries ops), nodup_keys_entries ops, hr.size_eq, fun k => ?_⟩
  rw [hr.get?_eq, List.lookup_isSome_iff, keys, List.mem_map]
  constructor
  · rintro ⟨e, he, rfl⟩
    exact ⟨e, he, beq_self_eq_true _⟩
  · rintro ⟨e, he, hk⟩
    exact ⟨e, he, (eq_of_beq hk).symm⟩

section Counting

variable {ops ops' : List (Key × (α × α))}

/-- Of two hashes of one size, the keys of the first are those of the second if they are among
them. -/
theorem isSome_get?_of_size_eq (hsize : (ofInsertions ops).size = (ofInsertions ops').size)
    (h : ∀ k, ((ofInsertions ops).get? k).isSome = true →
      ((ofInsertions ops').get? k).isSome = true) {k : Key}
    (hk : ((ofInsertions ops').get? k).isSome = true) :
    ((ofInsertions ops).get? k).isSome = true := by
  obtain ⟨ks, hnodup, hlength, hmem⟩ := exists_keys ops
  obtain ⟨ks', -, hlength', hmem'⟩ := exists_keys ops'
  -- Without repetition, a part of `ks'` that is as long as `ks'` is all of it.
  have hsubset : ks ⊆ ks' := fun k hk => (hmem' k).mpr (h k ((hmem k).mp hk))
  have hperm : ks.Perm ks' := (hnodup.subperm hsubset).perm_of_length_le (by omega)
  exact (hmem k).mp (hperm.mem_iff.mpr ((hmem' k).mpr hk))

theorem size_eq_of_isSome_get? (h : ∀ k, ((ofInsertions ops).get? k).isSome = true ↔
    ((ofInsertions ops').get? k).isSome = true) :
    (ofInsertions ops).size = (ofInsertions ops').size := by
  obtain ⟨ks, hnodup, hlength, hmem⟩ := exists_keys ops
  obtain ⟨ks', hnodup', hlength', hmem'⟩ := exists_keys ops'
  have hperm : ks.Perm ks' := (List.perm_ext_iff_of_nodup hnodup hnodup').mpr fun k => by
    rw [hmem, hmem', h]
  rw [hlength, hlength', hperm.length_eq]

end Counting

/-- The entries of a tidy index are the pairs that can be looked up. -/
theorem Tidy.forall_index_iff {h : Hash α} (hh : h.Tidy) {P : Key → Option (α × α) → Prop} :
    (∀ entry ∈ h.index, P entry.1 h.pairs[entry.2]?) ↔
      ∀ k p, h.get? k = some p → P k (some p) := by
  constructor
  · intro hall k p hp
    obtain ⟨i, hi, hpair⟩ := Option.bind_eq_some_iff.mp hp
    obtain ⟨before, behind, hindex, -⟩ := List.lookup_eq_some_iff.mp hi
    have hentry := hall (k, i) (by rw [hindex]; simp)
    rwa [hpair] at hentry
  · intro hall entry hentry
    obtain ⟨hposition, hlt⟩ := hh entry hentry
    have hpair : h.pairs[entry.2]? = some h.pairs[entry.2] := List.getElem?_eq_getElem hlt
    have hget : h.get? entry.1 = some h.pairs[entry.2] := by
      rw [get?, hposition]
      exact hpair
    rw [hpair]
    exact hall _ _ hget

theorem mem_pairs_of_get? {h : Hash α} {k : Key} {p : α × α} (hp : h.get? k = some p) :
    p ∈ h.pairs := by
  obtain ⟨i, -, hi⟩ := Option.bind_eq_some_iff.mp hp
  exact List.mem_of_getElem? hi

end Hash

section Options

variable {α β γ : Type} {R : α → β → Prop} {a : Option α} {b : Option β}

theorem isSome_eq_of_rel (h : Option.Rel R a b) : a.isSome = b.isSome := by
  cases h <;> rfl

theorem rel_symm {S : β → α → Prop} (h : Option.Rel R a b)
    (hrs : ∀ x ∈ a, ∀ y ∈ b, R x y → S y x) : Option.Rel S b a := by
  cases h with
  | none => exact .none
  | some h => exact .some (hrs _ rfl _ rfl h)

theorem rel_trans {S : β → γ → Prop} {T : α → γ → Prop} {c : Option γ} (h : Option.Rel R a b)
    (h' : Option.Rel S b c) (hrst : ∀ x ∈ a, ∀ y ∈ b, ∀ z ∈ c, R x y → S y z → T x z) :
    Option.Rel T a c := by
  cases h with
  | none =>
    cases h' with
    | none => exact .none
  | some h =>
    cases h' with
    | some h' => exact .some (hrst _ rfl _ rfl _ rfl h h')

end Options

namespace Value

/-- The keys of both pairs are related, and so are the values. -/
def PairRel (R : Value → Value → Prop) (p q : Value × Value) : Prop := R p.1 q.1 ∧ R p.2 q.2

/-- Equal as contents go. -/
def Equal (v w : Value) : Prop := v.equal w = true

theorem equalAll_iff {vs ws : List Value} :
    equalAll vs ws = true ↔ ∀ i : Nat, Option.Rel Equal vs[i]? ws[i]? := by
  induction vs generalizing ws with
  | nil =>
    cases ws with
    | nil => simp [equalAll]
    | cons w ws =>
      constructor
      · intro h
        cases h
      · intro h
        cases h 0
  | cons v vs ih =>
    cases ws with
    | nil =>
      constructor
      · intro h
        cases h
      · intro h
        cases h 0
    | cons w ws =>
      rw [equalAll, Bool.and_eq_true, ih]
      constructor
      · rintro ⟨hv, hvs⟩ i
        cases i with
        | zero => exact .some hv
        | succ i => exact hvs i
      · intro h
        refine ⟨?_, fun i => h (i + 1)⟩
        cases h 0 with
        | some hv => exact hv

/-- Comparing two hashes means to look up every key of the first in the second. -/
theorem equal_hash_iff_of_tidy {i j : Identity} {h h' : Hash Value} (hh : h.Tidy) :
    (hash i h).equal (hash j h') = true ↔ h.size = h'.size ∧
      ∀ k p, h.get? k = some p → ∃ q, h'.get? k = some q ∧ PairRel Equal p q := by
  have hforall := hh.forall_index_iff (P := fun k found => ∃ p q, found = some p ∧
    h'.get? k = some q ∧ PairRel Equal p q)
  have hpairs : (∀ k p, h.get? k = some p → ∃ q, h'.get? k = some q ∧ PairRel Equal p q) ↔
      ∀ entry ∈ h.index, ∃ p q, h.pairs[entry.2]? = some p ∧ h'.get? entry.1 = some q ∧
        PairRel Equal p q := by
    rw [hforall]
    simp
  rw [hpairs]
  obtain ⟨pairs, index⟩ := h
  simp only [equal, Bool.and_eq_true, beq_iff_eq, List.all_eq_true, pairTests_eq_map,
    List.getElem?_map]
  refine and_congr Iff.rfl (forall₂_congr fun entry _ => ?_)
  cases pairs[entry.2]? with
  | none => simp
  | some p =>
    cases h'.get? entry.1 with
    | none => simp
    | some q => simp [PairRel, Equal]

/-- Hashes are equal if they hold equal pairs under every key. -/
theorem equal_hash_iff {i j : Identity} {ops ops' : List (Key × (Value × Value))} :
    (hash i (Hash.ofInsertions ops)).equal (hash j (Hash.ofInsertions ops')) = true ↔
      ∀ k, Option.Rel (PairRel Equal) ((Hash.ofInsertions ops).get? k)
        ((Hash.ofInsertions ops').get? k) := by
  rw [equal_hash_iff_of_tidy (Hash.tidy_ofInsertions ops)]
  constructor
  · rintro ⟨hsize, hpairs⟩ k
    cases hk : (Hash.ofInsertions ops).get? k with
    | some p =>
      obtain ⟨q, hq, hpq⟩ := hpairs k p hk
      rw [hq]
      exact .some hpq
    | none =>
      cases hk' : (Hash.ofInsertions ops').get? k with
      | none => exact .none
      | some q =>
        have hincluded : ∀ k, ((Hash.ofInsertions ops).get? k).isSome = true →
            ((Hash.ofInsertions ops').get? k).isSome = true := by
          intro k hsome
          obtain ⟨p, hp⟩ := Option.isSome_iff_exists.mp hsome
          obtain ⟨q, hq, -⟩ := hpairs k p hp
          rw [hq]
          rfl
        have hsome := Hash.isSome_get?_of_size_eq hsize hincluded (k := k) (by rw [hk']; rfl)
        rw [hk] at hsome
        cases hsome
  · intro hrel
    refine ⟨Hash.size_eq_of_isSome_get? fun k => ?_, fun k p hp => ?_⟩
    · rw [isSome_eq_of_rel (hrel k)]
    · have hk := hrel k
      rw [hp] at hk
      generalize (Hash.ofInsertions ops').get? k = found at hk
      cases hk with
      | some hpq => exact ⟨_, rfl, hpq⟩

/-- Values of one form that differ at most in identities and in related parts. -/
inductive SameForm (R : Value → Value → Prop) : Value → Value → Prop
  | integer (n : Int64) : SameForm R (integer n) (integer n)
  | string (s : String) : SameForm R (string s) (string s)
  | boolean (b : Bool) : SameForm R (boolean b) (boolean b)
  | null : SameForm R null null
  | error (f : Fault) : SameForm R (error f) (error f)
  | builtin (b : Builtin) : SameForm R (builtin b) (builtin b)
  | function (i : Identity) (c c' : Closure) : SameForm R (function i c) (function i c')
  | returned {v w : Value} (h : R v w) : SameForm R (returned v) (returned w)
  | array {i j : Identity} {vs ws : List Value} (h : ∀ n : Nat, Option.Rel R vs[n]? ws[n]?) :
      SameForm R (array i vs) (array j ws)
  | hash {i j : Identity} {content content' : Hash Value}
      (h : ∀ k, Option.Rel (PairRel R) (content.get? k) (content'.get? k)) :
      SameForm R (hash i content) (hash j content')

/-- If a hash, then one that insertions made, under whatever keys. -/
def Assembled : Value → Prop
  | hash _ h => ∃ ops, h = Hash.ofInsertions ops
  | _ => True

/-- Values are equal if they are of one form and their parts are equal. -/
theorem equal_iff_sameForm {v w : Value} (hv : v.Assembled) (hw : w.Assembled) :
    v.equal w = true ↔ SameForm Equal v w := by
  constructor
  · intro h
    have hunfolded := h
    unfold equal at hunfolded
    -- One case for each form that two values can share, the last for values that share none.
    split at hunfolded
    · next a b =>
      obtain rfl := eq_of_beq hunfolded
      exact .integer a
    · next s t =>
      obtain rfl := eq_of_beq hunfolded
      exact .string s
    · next a b =>
      obtain rfl := eq_of_beq hunfolded
      exact .boolean a
    · exact .null
    · next v w => exact .returned hunfolded
    · next e f =>
      obtain rfl := eq_of_beq hunfolded
      exact .error e
    · next i c j c' =>
      obtain rfl := eq_of_beq hunfolded
      exact .function i c c'
    · next a b =>
      obtain rfl := eq_of_beq hunfolded
      exact .builtin a
    · next i vs j ws => exact .array (equalAll_iff.mp hunfolded)
    · next i pairs index j other =>
      obtain ⟨ops, hops⟩ := hv
      obtain ⟨ops', rfl⟩ := hw
      rw [hops] at h ⊢
      exact .hash (equal_hash_iff.mp h)
    · cases hunfolded
  · intro h
    cases h with
    | integer | string | boolean | null | error | builtin | function => simp [equal]
    | returned h =>
      rw [equal]
      exact h
    | array h =>
      rw [equal]
      exact equalAll_iff.mpr h
    | hash h =>
      obtain ⟨ops, rfl⟩ := hv
      obtain ⟨ops', rfl⟩ := hw
      exact equal_hash_iff.mpr h

theorem mem_stored_array {id : Identity} {vs : List Value} {v : Value} (h : v ∈ vs) :
    v ∈ (array id vs).stored :=
  (forall_mem_allStored.mp (fun _ hw => hw) v h).self

theorem mem_stored_hash {id : Identity} {content : Hash Value} {p : Value × Value}
    (h : p ∈ content.pairs) :
    p.1 ∈ (hash id content).stored ∧ p.2 ∈ (hash id content).stored := by
  obtain ⟨pairs, index⟩ := content
  have hall := forall_mem_pairsStored.mp (fun _ hw => hw) p h
  exact ⟨hall.1.self, hall.2.self⟩

theorem All.stored {P : Value → Prop} {v w : Value} (h : v.All P) (hw : w ∈ v.stored) : w.All P :=
  h.part (List.mem_cons_of_mem v hw)

namespace SameForm

variable {R S T : Value → Value → Prop} {u v w : Value}

theorem symm (h : SameForm R v w) (hrs : ∀ a ∈ v.stored, ∀ b ∈ w.stored, R a b → S b a) :
    SameForm S w v := by
  cases h with
  | integer n => exact .integer n
  | string s => exact .string s
  | boolean b => exact .boolean b
  | null => exact .null
  | error f => exact .error f
  | builtin b => exact .builtin b
  | function i c c' => exact .function i c' c
  | returned h => exact .returned (hrs _ List.mem_cons_self _ List.mem_cons_self h)
  | array h =>
    refine .array fun n => rel_symm (h n) fun a ha b hb => ?_
    exact hrs a (mem_stored_array (List.mem_of_getElem? ha)) b
      (mem_stored_array (List.mem_of_getElem? hb))
  | hash h =>
    refine .hash fun k => rel_symm (h k) fun p hp q hq hpq => ?_
    obtain ⟨hkey, hvalue⟩ := mem_stored_hash (Hash.mem_pairs_of_get? hp)
    obtain ⟨hkey', hvalue'⟩ := mem_stored_hash (Hash.mem_pairs_of_get? hq)
    exact ⟨hrs _ hkey _ hkey' hpq.1, hrs _ hvalue _ hvalue' hpq.2⟩

theorem trans (h : SameForm R u v) (h' : SameForm S v w)
    (hrst : ∀ a ∈ u.stored, ∀ b ∈ v.stored, ∀ c ∈ w.stored, R a b → S b c → T a c) :
    SameForm T u w := by
  cases h with
  | integer n =>
    cases h' with
    | integer n => exact .integer n
  | string s =>
    cases h' with
    | string s => exact .string s
  | boolean b =>
    cases h' with
    | boolean b => exact .boolean b
  | null =>
    cases h' with
    | null => exact .null
  | error f =>
    cases h' with
    | error f => exact .error f
  | builtin b =>
    cases h' with
    | builtin b => exact .builtin b
  | function i c c' =>
    cases h' with
    | function _ _ c'' => exact .function i c c''
  | returned h =>
    cases h' with
    | returned h' =>
      exact .returned (hrst _ List.mem_cons_self _ List.mem_cons_self _ List.mem_cons_self h h')
  | array h =>
    cases h' with
    | array h' =>
      refine .array fun n => rel_trans (h n) (h' n) fun a ha b hb c hc => ?_
      exact hrst a (mem_stored_array (List.mem_of_getElem? ha)) b
        (mem_stored_array (List.mem_of_getElem? hb)) c
        (mem_stored_array (List.mem_of_getElem? hc))
  | hash h =>
    cases h' with
    | hash h' =>
      refine .hash fun k => rel_trans (h k) (h' k) fun p hp q hq r hr hpq hqr => ?_
      obtain ⟨hkey, hvalue⟩ := mem_stored_hash (Hash.mem_pairs_of_get? hp)
      obtain ⟨hkey', hvalue'⟩ := mem_stored_hash (Hash.mem_pairs_of_get? hq)
      obtain ⟨hkey'', hvalue''⟩ := mem_stored_hash (Hash.mem_pairs_of_get? hr)
      exact ⟨hrst _ hkey _ hkey' _ hkey'' hpq.1 hqr.1,
        hrst _ hvalue _ hvalue' _ hvalue'' hpq.2 hqr.2⟩

end SameForm

variable {P : Value → Prop}

mutual

/-- What passes from all that is stored in a value to the value holds of every value. -/
theorem all_of_stored (step : ∀ v : Value, (∀ w ∈ v.stored, P w) → P v) : ∀ v : Value, v.All P
  | integer _ | string _ | boolean _ | null | error _ | function _ _ | builtin _ =>
    all_of_stored_eq_nil rfl (step _ nofun)
  | returned v => all_returned_iff.mpr ⟨step _ (all_of_stored step v), all_of_stored step v⟩
  | array _ vs =>
    have hvs := all_of_mem step vs
    all_array_iff.mpr ⟨step _ (forall_mem_allStored.mpr hvs), hvs⟩
  | hash _ ⟨ps, _⟩ =>
    have hps := all_of_mem_pairs step ps
    all_hash_iff.mpr ⟨step _ (forall_mem_pairsStored.mpr hps), hps⟩

theorem all_of_mem (step : ∀ v : Value, (∀ w ∈ v.stored, P w) → P v) :
    ∀ vs : List Value, ∀ v ∈ vs, v.All P
  | [] => List.forall_mem_nil _
  | v :: vs => List.forall_mem_cons.mpr ⟨all_of_stored step v, all_of_mem step vs⟩

theorem all_of_mem_pairs (step : ∀ v : Value, (∀ w ∈ v.stored, P w) → P v) :
    ∀ ps : List (Value × Value), ∀ p ∈ ps, p.1.All P ∧ p.2.All P
  | [] => List.forall_mem_nil _
  | (key, value) :: ps =>
    have hpair := ⟨all_of_stored step key, all_of_stored step value⟩
    List.forall_mem_cons.mpr ⟨hpair, all_of_mem_pairs step ps⟩

end

/-- Induction over what is stored in a value. -/
theorem induct (step : ∀ v : Value, (∀ w ∈ v.stored, P w) → P v) (v : Value) : P v :=
  (all_of_stored step v).self

theorem equal_symm {v w : Value} (hv : v.All Assembled) (hw : w.All Assembled)
    (h : v.equal w = true) : w.equal v = true := by
  -- What is stored in the first value is compared with parts of the second, hence with any value.
  induction v using induct generalizing w with
  | step v ih =>
    rw [equal_iff_sameForm hw.self hv.self]
    exact ((equal_iff_sameForm hv.self hw.self).mp h).symm fun a ha b hb =>
      ih a ha (hv.stored ha) (hw.stored hb)

theorem equal_trans {u v w : Value} (hu : u.All Assembled) (hv : v.All Assembled)
    (hw : w.All Assembled) (h : u.equal v = true) (h' : v.equal w = true) :
    u.equal w = true := by
  induction u using induct generalizing v w with
  | step u ih =>
    rw [equal_iff_sameForm hu.self hw.self]
    have hform := (equal_iff_sameForm hu.self hv.self).mp h
    have hform' := (equal_iff_sameForm hv.self hw.self).mp h'
    exact hform.trans hform' fun a ha b hb c hc =>
      ih a ha (hu.stored ha) (hv.stored hb) (hw.stored hc)

/-- It does not matter which of two pairs under one key is compared to which. -/
theorem equal_hash_iff_swap {i j : Identity} {ops ops' : List (Key × (Value × Value))}
    (h : (hash i (Hash.ofInsertions ops)).All Assembled)
    (h' : (hash j (Hash.ofInsertions ops')).All Assembled) :
    (hash i (Hash.ofInsertions ops)).equal (hash j (Hash.ofInsertions ops')) = true ↔
      (Hash.ofInsertions ops).size = (Hash.ofInsertions ops').size ∧
        ∀ k p, (Hash.ofInsertions ops).get? k = some p →
          ∃ q, (Hash.ofInsertions ops').get? k = some q ∧ PairRel Equal q p := by
  rw [equal_hash_iff_of_tidy (Hash.tidy_ofInsertions ops)]
  refine and_congr_right fun _ => forall₃_congr fun k p hp => exists_congr fun q => ?_
  refine and_congr_right fun hq => ?_
  obtain ⟨hkey, hvalue⟩ := mem_stored_hash (Hash.mem_pairs_of_get? hp)
  obtain ⟨hkey', hvalue'⟩ := mem_stored_hash (Hash.mem_pairs_of_get? hq)
  constructor
  · rintro ⟨hk, hv⟩
    exact ⟨equal_symm (h.stored hkey) (h'.stored hkey') hk,
      equal_symm (h.stored hvalue) (h'.stored hvalue') hv⟩
  · rintro ⟨hk, hv⟩
    exact ⟨equal_symm (h'.stored hkey') (h.stored hkey) hk,
      equal_symm (h'.stored hvalue') (h.stored hvalue) hv⟩

theorem Assembled.tidy {v : Value} (h : v.Assembled) : v.Tidy := by
  cases v with
  | hash id content =>
    obtain ⟨ops, rfl⟩ := h
    exact Hash.tidy_ofInsertions ops
  | _ => trivial

/-- On the values in which insertions made every hash, equality of contents is an equivalence; and
two hashes are equal exactly if under every key both hold nothing or both hold pairs with equal
keys and equal values. -/
theorem equal_equivalence :
    Equivalence (fun v w : {v : Value // v.All Assembled} => v.1.equal w.1 = true) ∧
    ∀ (i j : Identity) (ops ops' : List (Key × (Value × Value))),
      (hash i (Hash.ofInsertions ops)).equal (hash j (Hash.ofInsertions ops')) = true ↔
        ∀ k, Option.Rel (fun p q => p.1.equal q.1 = true ∧ p.2.equal q.2 = true)
          ((Hash.ofInsertions ops).get? k) ((Hash.ofInsertions ops').get? k) := by
  refine ⟨⟨?_, ?_, ?_⟩, fun i j ops ops' => equal_hash_iff⟩
  · intro v
    exact equal_self v.1 (v.2.mono fun _ hw => hw.tidy)
  · intro v w h
    exact equal_symm v.2 w.2 h
  · intro u v w h h'
    exact equal_trans u.2 v.2 w.2 h h'

theorem lenient_assembled : Lenient Assembled where
  integer _ := trivial
  string _ := trivial
  boolean _ := trivial
  null := trivial
  builtin _ := trivial
  array _ _ := trivial

/-- A hash that was made of insertions alone is so throughout if all that was inserted is. -/
theorem all_assembled_hash (i : Identity) {ops : List (Key × (Value × Value))}
    (h : ∀ op ∈ ops, op.2.1.All Assembled ∧ op.2.2.All Assembled) :
    (hash i (Hash.ofInsertions ops)).All Assembled := by
  have hcontents : (Hash.ofInsertions ops).All Assembled :=
    List.foldlRecOn ops _ Hash.all_empty fun _ hh op hop => hh.insert (h op hop).1 (h op hop).2
  exact all_hash_iff.mpr ⟨⟨ops, rfl⟩, hcontents⟩

/-- Three hashes that hold a hash each. The order of insertion does not matter at either level, and
what was overwritten does not either. -/
theorem equal_equivalence_nested :
    let one : Key × (Value × Value) := (⟨.integer, 1⟩, (integer 1, null))
    let no (i : Identity) : Key × (Value × Value) := (⟨.boolean, 0⟩, (boolean false, array i []))
    let old : Key × (Value × Value) := (⟨.boolean, 0⟩, (boolean false, null))
    let within (i : Identity) (ops : List (Key × (Value × Value))) : Key × (Value × Value) :=
      (⟨.string, 5⟩, (string "a", hash i (Hash.ofInsertions ops)))
    let u := hash 0 (Hash.ofInsertions [within 1 [one, no 2], one])
    let v := hash 3 (Hash.ofInsertions [one, within 4 [no 5, one]])
    let w := hash 6 (Hash.ofInsertions [within 7 [], one, within 7 [old, one, no 8]])
    u.All Assembled ∧ v.All Assembled ∧ w.All Assembled ∧ u.equal v = true ∧ v.equal w = true ∧
      u.equal w = true ∧ w.equal u = true := by
  intro one no old within u v w
  have hcompared : u.equal v = true ∧ v.equal w = true := by decide +kernel +revert
  have hone : one.2.1.All Assembled ∧ one.2.2.All Assembled :=
    ⟨lenient_assembled.all_integer 1, lenient_assembled.all_null⟩
  have hno : ∀ i, (no i).2.1.All Assembled ∧ (no i).2.2.All Assembled := fun i =>
    ⟨lenient_assembled.all_boolean false, lenient_assembled.all_array nofun⟩
  have hold : old.2.1.All Assembled ∧ old.2.2.All Assembled :=
    ⟨lenient_assembled.all_boolean false, lenient_assembled.all_null⟩
  have hwithin : ∀ i ops, (∀ op ∈ ops, op.2.1.All Assembled ∧ op.2.2.All Assembled) →
      (within i ops).2.1.All Assembled ∧ (within i ops).2.2.All Assembled := fun i ops h =>
    ⟨lenient_assembled.all_string "a", all_assembled_hash i h⟩
  have hu : u.All Assembled := all_assembled_hash 0
    (List.forall_mem_cons.mpr ⟨hwithin 1 _ (by simp [hone, hno]), by simp [hone]⟩)
  have hv : v.All Assembled := all_assembled_hash 3
    (List.forall_mem_cons.mpr ⟨hone, by simpa using hwithin 4 _ (by simp [hone, hno])⟩)
  have hw : w.All Assembled := all_assembled_hash 6 (List.forall_mem_cons.mpr
    ⟨hwithin 7 _ nofun, by simpa [hone] using hwithin 7 _ (by simp [hone, hno, hold])⟩)
  have hequivalence := equal_equivalence.1
  have huw : u.equal w = true :=
    @Equivalence.trans _ _ hequivalence ⟨u, hu⟩ ⟨v, hv⟩ ⟨w, hw⟩ hcompared.1 hcompared.2
  exact ⟨hu, hv, hw, hcompared.1, hcompared.2, huw,
    @Equivalence.symm _ _ hequivalence ⟨u, hu⟩ ⟨w, hw⟩ huw⟩

end Value

end Monkey
