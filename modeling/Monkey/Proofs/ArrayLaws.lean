import Mathlib.Algebra.Order.Ring.Int
import Monkey.Proofs.IdentityLaws

/-!
Arrays as immutable lists. Indexing and the builtins read an array as the list of its elements, and
what they make of it they make anew: however long values are read, taken apart and put together, an
array that was at hand before is at hand still and has the elements that it had.
-/

namespace Monkey

open Machine Value

section

variable {i n : Int64} {k : Nat}

theorem toInt_add_one (h : i.toInt + 1 < 2 ^ 63) : (i + 1).toInt = i.toInt + 1 := by
  have hlow := i.le_toInt
  rw [Int64.toInt_add, Int64.toInt_one]
  exact Int.bmod_eq_of_le (by omega) (by omega)

theorem toInt_sub_one (h : 0 ≤ n.toInt) : (n - 1).toInt = n.toInt - 1 := by
  have hhigh := n.toInt_lt
  rw [Int64.toInt_sub, Int64.toInt_one]
  exact Int.bmod_eq_of_le (by omega) (by omega)

end

namespace Value

/-- The builtin `len` counts so many elements, in whatever state the machine is. -/
def HasLength (a : Value) (n : Nat) : Prop :=
  ∀ m : Machine, ∃ k : Int64, k.toInt = n ∧ Builtin.len.call [a] m = .done (.integer k) m

variable {id : Identity} {xs : List Value} {v : Value} {i : Int64} {k : Nat}

theorem hasLength_array (h : xs.length < 2 ^ 63) : (array id xs).HasLength xs.length :=
  fun _ => ⟨.ofNat xs.length, Int64.toInt_ofNat_of_lt h, rfl⟩

theorem index_array_of_toInt (h : i.toInt = k) :
    (array id xs).index (.integer i) = .ok (xs[k]?.getD .null) := by
  rw [index, h]
  rfl

theorem index_array_of_neg (h : i.toInt < 0) :
    (array id xs).index (.integer i) = .ok .null := by
  obtain ⟨k, hk⟩ := Int.eq_negSucc_of_lt_zero h
  rw [index, hk]
  rfl

/-- From the second element on an array reads as what `rest` makes of it. -/
theorem index_cons {j : Identity} (hi : 0 ≤ i.toInt) (h : i.toInt + 1 < 2 ^ 63) :
    (array j xs).index (.integer i) = (array id (v :: xs)).index (.integer (i + 1)) := by
  obtain ⟨k, hk⟩ := Int.eq_ofNat_of_zero_le hi
  have hnext : (i + 1).toInt = ((k + 1 : Nat) : Int) := by rw [toInt_add_one h, hk]; rfl
  rw [index_array_of_toInt hk, index_array_of_toInt hnext, List.getElem?_cons_succ]

/-- Up to its end an array reads as what `push` makes of it. -/
theorem index_concat {j : Identity} (hi : 0 ≤ i.toInt) (h : i.toInt < xs.length) :
    (array j (xs ++ [v])).index (.integer i) = (array id xs).index (.integer i) := by
  obtain ⟨k, hk⟩ := Int.eq_ofNat_of_zero_le hi
  rw [index_array_of_toInt hk, index_array_of_toInt hk, List.getElem?_append_left (by omega)]

end Value

/-- What holds of an array with these elements, of another value, and of the state of the machine. -/
structure ArrayLaws (a : Value) (xs : List Value) (v : Value) (m : Machine) : Prop where
  inside : ∀ (i : Int64) (k : Nat) (hk : k < xs.length), i.toInt = k →
    a.index (.integer i) = .ok xs[k]
  outside : ∀ i : Int64, i.toInt < 0 ∨ xs.length ≤ i.toInt → a.index (.integer i) = .ok .null
  length : a.HasLength xs.length
  first : Builtin.first.call [a] m = Eval.ofExcept (a.index (.integer 0)) m
  last : ∀ n : Int64, n.toInt = xs.length →
    Builtin.last.call [a] m = Eval.ofExcept (a.index (.integer (n - 1))) m
  empty : xs = [] → Builtin.first.call [a] m = .done .null m ∧
    Builtin.last.call [a] m = .done .null m ∧ Builtin.rest.call [a] m = .done .null m
  rest : xs ≠ [] → ∃ b m', Builtin.rest.call [a] m = .done b m' ∧ b.kind = .array ∧
    b.HasLength (xs.length - 1) ∧ ∀ i : Int64, 0 ≤ i.toInt → i.toInt < (xs.length - 1 : Nat) →
      b.index (.integer i) = a.index (.integer (i + 1))
  push : ∃ c m', Builtin.push.call [a, v] m = .done c m' ∧ c.kind = .array ∧
    c.HasLength (xs.length + 1) ∧
    (∀ n : Int64, n.toInt = xs.length → c.index (.integer n) = .ok v) ∧
    ∀ i : Int64, 0 ≤ i.toInt → i.toInt < xs.length →
      c.index (.integer i) = a.index (.integer i)
  /-- It does not matter whether the first element is dropped before or after the value is added. -/
  exchange : xs ≠ [] → ∀ m' : Machine, ∃ j k ys m₁ m₂,
    (Builtin.push.call [a, v] >>= fun c => Builtin.rest.call [c]) m = .done (.array j ys) m₁ ∧
    (Builtin.rest.call [a] >>= fun b => Builtin.push.call [b, v]) m' = .done (.array k ys) m₂ ∧
    ((∀ u ∈ v :: xs, u.All Tidy) → (array j ys).equal (array k ys) = true)

section

variable {xs : List Value}

theorem first_call (id : Identity) (m : Machine) : Builtin.first.call [array id xs] m =
    Eval.ofExcept ((array id xs).index (.integer 0)) m := by
  have hzero : (0 : Int64).toInt = (0 : Nat) := rfl
  rw [index_array_of_toInt hzero, ← List.head?_eq_getElem?]
  rfl

theorem last_call {n : Int64} (hn : n.toInt = xs.length) (id : Identity) (m : Machine) :
    Builtin.last.call [array id xs] m =
      Eval.ofExcept ((array id xs).index (.integer (n - 1))) m := by
  have hlast : (n - 1).toInt = (xs.length : Int) - 1 := by
    rw [toInt_sub_one (by omega), hn]
  have hindex : (array id xs).index (.integer (n - 1)) = .ok (xs.getLast?.getD .null) := by
    cases xs with
    | nil => exact index_array_of_neg (by rw [hlast]; decide)
    | cons x xs =>
      have hplace : (n - 1).toInt = (((x :: xs).length - 1 : Nat) : Int) := by
        rw [hlast, List.length_cons, Nat.add_sub_cancel]
        omega
      rw [index_array_of_toInt hplace, ← List.getLast?_eq_getElem?]
  rw [hindex]
  rfl

theorem arrayLaws (h : xs.length < 2 ^ 63 - 1) (id : Identity) (v : Value) (m : Machine) :
    ArrayLaws (.array id xs) xs v m where
  inside i k hk hi := by
    rw [index_array_of_toInt hi, List.getElem?_eq_getElem hk]
    rfl
  outside i hi := by
    rcases hi with hneg | hbehind
    · exact index_array_of_neg hneg
    · obtain ⟨k, hk⟩ := Int.eq_ofNat_of_zero_le (Int.le_trans (Int.natCast_nonneg _) hbehind)
      rw [index_array_of_toInt hk, List.getElem?_eq_none (by omega)]
      rfl
  length := hasLength_array (by omega)
  first := first_call id m
  last n hn := last_call hn id m
  empty hxs := by
    subst hxs
    exact ⟨rfl, rfl, rfl⟩
  rest hxs := by
    obtain ⟨x, xs, rfl⟩ := List.exists_cons_of_ne_nil hxs
    rw [List.length_cons] at h
    refine ⟨.array m.nextIdentity xs, m.newIdentity.2, rfl, rfl, hasLength_array (by omega), ?_⟩
    intro i hi hlt
    rw [List.length_cons, Nat.add_sub_cancel] at hlt
    exact index_cons hi (by omega)
  push := by
    have hlength : (xs ++ [v]).length = xs.length + 1 := by simp
    refine ⟨.array m.nextIdentity (xs ++ [v]), m.newIdentity.2, rfl, rfl, ?_, fun n hn => ?_,
      fun i hi hlt => index_concat hi hlt⟩
    · rw [← hlength]
      exact hasLength_array (by omega)
    · rw [index_array_of_toInt hn, List.getElem?_concat_length]
      rfl
  exchange hxs m' := by
    obtain ⟨x, xs, rfl⟩ := List.exists_cons_of_ne_nil hxs
    refine ⟨_, _, xs ++ [v], _, _, rfl, rfl, fun htidy => ?_⟩
    rw [equal]
    refine equalAll_self _ fun u hu => htidy u ?_
    rcases List.mem_append.mp hu with hu | hu
    · exact List.mem_cons_of_mem v (List.mem_cons_of_mem x hu)
    · exact List.mem_singleton.mp hu ▸ List.mem_cons_self

end

/-- A machine, and the values that are at hand. -/
structure Stock where
  machine : Machine
  values : List Value

namespace Stock

/-- An element of a value at hand is read, or a builtin is called with values at hand; what comes of
it is at hand from then on. -/
inductive Access : Stock → Stock → Prop
  | index {m : Machine} {vs : List Value} {collection position v : Value}
      (hc : collection ∈ vs) (h : collection.index position = .ok v) :
      Access ⟨m, vs⟩ ⟨m, vs ++ [v]⟩
  | call {m m' : Machine} {vs args : List Value} {b : Builtin} {v : Value}
      (hargs : ∀ u ∈ args, u ∈ vs) (h : b.call args m = .done v m') :
      Access ⟨m, vs⟩ ⟨m', vs ++ [v]⟩
  | fault {m m' : Machine} {vs args : List Value} {b : Builtin} {f : Fault}
      (hargs : ∀ u ∈ args, u ∈ vs) (h : b.call args m = .failed f m') : Access ⟨m, vs⟩ ⟨m', vs⟩

inductive Accesses (s : Stock) : Stock → Prop
  | refl : Accesses s s
  | step {s₁ s₂ : Stock} (h : Accesses s s₁) (hstep : Access s₁ s₂) : Accesses s s₂

/-- The value is at hand, or stored in one that is. -/
def Has (s : Stock) (v : Value) : Prop := ∃ w ∈ s.values, v ∈ w.parts

/-- A ledger of the machine that lists the values at hand: each of them was made once, under an
identity of its own. -/
structure Ledgered (ledger : List Value) (s : Stock) : Prop where
  machine : s.machine.Ledgered ledger
  values : ∀ v ∈ s.values, v.Listed ledger

variable {ledger : List Value} {s s' : Stock}

/-- Whatever was run before, there is a ledger for the values that a machine holds. -/
theorem ledgered_of_reached {m : Machine} {vs : List Value} (hm : m.Reached)
    (hvs : ∀ v ∈ vs, m.Holds v) : ∃ ledger, Ledgered ledger ⟨m, vs⟩ := by
  obtain ⟨ledger, hledger⟩ := hm.ledgered
  exact ⟨ledger, hledger, fun v hv => hledger.listed_of_holds (hvs v hv)⟩

theorem Ledgered.has (h : s.Ledgered ledger) {v : Value} (hv : s.Has v) : v.Listed ledger := by
  obtain ⟨w, hw, hv⟩ := hv
  exact (h.values w hw).part hv

/-- With what an access gives the ledger goes on. -/
theorem Ledgered.access (h : s.Ledgered ledger) (ha : s.Access s') :
    ∃ longer, ledger <+: longer ∧ s'.Ledgered longer := by
  obtain ⟨hm, hvs⟩ := h
  cases ha with
  | index hc hv =>
    have hlisted := Value.all_of_index (plain_entered ledger) (hvs _ hc) hv
    refine ⟨ledger, List.prefix_rfl, hm, fun w hw => ?_⟩
    exact (List.mem_append.mp hw).elim (hvs w) fun hw => List.mem_singleton.mp hw ▸ hlisted
  | call hargs hv =>
    obtain ⟨longer, hl, hm', hlisted⟩ :=
      (Builtin.call_records _ fun u hu => hvs u (hargs u hu)).result hm hv
    refine ⟨longer, hl, hm', fun w hw => ?_⟩
    exact (List.mem_append.mp hw).elim (fun hw => (hvs w hw).mono hl)
      fun hw => List.mem_singleton.mp hw ▸ hlisted
  | @fault m m' vs args b f hargs hf =>
    have hends := Builtin.call_records b (fun u hu => hvs u (hargs u hu)) hm
    rw [hf] at hends
    cases hends with
    | failed hl hm' => exact ⟨_, hl, hm', fun w hw => (hvs w hw).mono hl⟩

theorem Ledgered.accesses (h : s.Ledgered ledger) (ha : s.Accesses s') :
    ∃ longer, ledger <+: longer ∧ s'.Ledgered longer := by
  induction ha with
  | refl => exact ⟨ledger, List.prefix_rfl, h⟩
  | step _ hstep ih =>
    obtain ⟨longer, hl, h⟩ := ih
    obtain ⟨longest, hl', h⟩ := h.access hstep
    exact ⟨longest, hl.trans hl', h⟩

/-- Values stay at hand, and nothing is bound. -/
theorem Access.stays (h : s.Access s') :
    s.values <+: s'.values ∧ s.machine.SameScopes s'.machine := by
  cases h with
  | index => exact ⟨List.prefix_append _ _, rfl⟩
  | call _ h => exact ⟨List.prefix_append _ _, Builtin.call_sameScopes _ _ (.of_done h)⟩
  | @fault m m' vs args b f _ h =>
    exact ⟨List.prefix_rfl, b.call_sameScopes args (h ▸ .failed f m')⟩

theorem Accesses.stays (h : s.Accesses s') :
    s.values <+: s'.values ∧ s.machine.SameScopes s'.machine := by
  induction h with
  | refl => exact ⟨List.prefix_rfl, rfl⟩
  | step _ hstep ih =>
    exact ⟨ih.1.trans hstep.stays.1, Machine.sameScopes_accumulates.trans ih.2 hstep.stays.2⟩

end Stock

/-- An array that is not too long to be counted is read and taken apart as an immutable list, and
once it is at hand it stays there with its elements, whatever accesses follow. -/
theorem array_refines_list {xs : List Value} (hlength : xs.length < 2 ^ 63 - 1) (id : Identity)
    (v : Value) (m : Machine) : ArrayLaws (.array id xs) xs v m ∧
    ∀ {ledger : List Value} {s s₁ s₂ : Stock}, s.Ledgered ledger → s.Accesses s₁ →
      s₁.Has (.array id xs) → s₁.Accesses s₂ →
      s₂.Has (.array id xs) ∧ (∀ ys, s₂.Has (.array id ys) → ys = xs) ∧
        s₁.values <+: s₂.values ∧ s₁.machine.SameScopes s₂.machine := by
  refine ⟨arrayLaws hlength id v m, fun {ledger s s₁ s₂} hs hbefore hhas hafter => ?_⟩
  obtain ⟨hvalues, hscopes⟩ := hafter.stays
  obtain ⟨longer, -, hs₁⟩ := hs.accesses hbefore
  obtain ⟨longest, -, hs₂⟩ := hs₁.accesses hafter
  have hstill : s₂.Has (.array id xs) := by
    obtain ⟨w, hw, hpart⟩ := hhas
    exact ⟨w, hvalues.subset hw, hpart⟩
  refine ⟨hstill, fun ys hys => ?_, hvalues, hscopes⟩
  have hentry := (hs₂.has hstill).self.1 id rfl
  have hentry' := (hs₂.has hys).self.1 id rfl
  exact (Value.array.inj (Option.some.inj (hentry'.symm.trans hentry))).2

section

variable {v : Value} {vs ws : List Value} {n : Int64}

theorem eq_integer_of_equal (h : v.equal (.integer n) = true) : v = .integer n := by
  cases v with
  | integer k =>
    rw [equal, beq_iff_eq] at h
    rw [h]
  | _ => simp [equal] at h

theorem exists_array_of_equal {j : Identity} (h : v.equal (.array j ws) = true) :
    ∃ id vs, v = .array id vs ∧ equalAll vs ws = true := by
  cases v with
  | array id vs =>
    rw [equal] at h
    exact ⟨id, vs, rfl, h⟩
  | _ => simp [equal] at h

theorem eq_integers_of_equalAll {ns : List Int64} (h : equalAll vs (ns.map .integer) = true) :
    vs = ns.map .integer := by
  induction ns generalizing vs with
  | nil =>
    cases vs with
    | nil => rfl
    | cons v vs => cases h
  | cons n ns ih =>
    cases vs with
    | nil => cases h
    | cons v vs =>
      rw [List.map_cons, equalAll, Bool.and_eq_true] at h
      rw [List.map_cons, eq_integer_of_equal h.1, ih h.2]

end

/-- An array that a program bound: its rest, and the rest with the array itself at the end, are at
hand beside it, and it has the two elements that it had. -/
theorem array_refines_list_pair : ∃ (m : Machine) (id : Identity) (s : Stock),
    let a : Value := .array id [.integer 7, .integer 8]
    m.Reached ∧ m.Holds a ∧ ArrayLaws a [.integer 7, .integer 8] .null m ∧
      Stock.Accesses ⟨m, [a]⟩ s ∧
      s.values = [a, .array m.nextIdentity [.integer 8],
        .array (m.nextIdentity + 1) [.integer 8, a]] ∧
      ∀ ys, s.Has (.array id ys) → ys = [.integer 7, .integer 8] := by
  have hbound : ((run 4 globalScope "let a = [7, 8];" initial).bind fun reply =>
      reply.2.scopes[globalScope]?.bind fun s => (s.bindings.lookup "a").map fun v =>
        v.equal (.array 0 ([7, 8].map .integer))) = some true := by decide +kernel
  obtain ⟨⟨reply, m⟩, hrun, hlookup⟩ := Option.bind_eq_some_iff.mp hbound
  obtain ⟨s, hs, hlookup⟩ := Option.bind_eq_some_iff.mp hlookup
  obtain ⟨v, hv, hequal⟩ := Option.map_eq_some_iff.mp hlookup
  obtain ⟨id, vs, rfl, helements⟩ := exists_array_of_equal hequal
  obtain rfl := eq_integers_of_equalAll helements
  have hreached : m.Reached := .run .initial hrun
  have hholds : m.Holds (.array id [.integer 7, .integer 8]) :=
    ⟨globalScope, s, "a", _, hs, hv, List.mem_cons_self⟩
  obtain ⟨ledger, hstock⟩ :=
    Stock.ledgered_of_reached hreached (List.forall_mem_singleton.mpr hholds)
  have hlaws := @array_refines_list [.integer 7, .integer 8] (by decide) id .null m
  let a : Value := .array id [.integer 7, .integer 8]
  let b : Value := .array m.nextIdentity [.integer 8]
  have hrest : Builtin.rest.call [a] m = .done b m.newIdentity.2 := rfl
  have hpush : Builtin.push.call [b, a] m.newIdentity.2 =
      .done (.array (m.nextIdentity + 1) [.integer 8, a]) m.newIdentity.2.newIdentity.2 := rfl
  have haccesses : Stock.Accesses ⟨m, [a]⟩ _ :=
    (Stock.Accesses.refl.step (.call (fun u hu => hu) hrest)).step (.call (by simp) hpush)
  obtain ⟨-, hkept, -⟩ :=
    hlaws.2 hstock .refl ⟨a, List.mem_cons_self, List.mem_cons_self⟩ haccesses
  exact ⟨m, id, _, hreached, hholds, hlaws.1, haccesses, rfl, hkept⟩

end Monkey
