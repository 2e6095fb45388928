import Monkey.Proofs.LedgeredRun

/-!
What identities tell. Values that are identical have the same contents, wherever and however much
later they are found. What a literal, a `push` or a `rest` makes is not identical to anything that
was there before, whereas binding, passing, looking up and taking out of a collection leave a value
what it is.
-/

namespace Monkey

open Machine Value

/-- What makes a value with an identity: literals and the actions that they come down to, and the
builtins that give new arrays. -/
inductive Action.Makes : Action → Prop
  | array : Makes (.expression scope (.array t es))
  | hash : Makes (.expression scope (.hash t ps))
  | function : Makes (.expression scope (.function t parameters body))
  | newArray : Makes (.newArray vs)
  | newHash : Makes (.newHash content)
  | push : Makes (.builtin .push args)
  | rest : Makes (.builtin .rest [.array i (v :: vs)])

namespace Activity

/-- The activity has this result and ends in this machine. -/
def Gives (a : Activity) (v : Value) (m' : Machine) : Prop :=
  match a.action with
  | .expression scope e => e.eval a.depth scope a.machine = .done v m'
  | .statement scope s => Evaluator.statement (Expr.eval a.depth) scope s a.machine = .done v m'
  | .statements scope last ss =>
    Evaluator.statements (Expr.eval a.depth) scope last ss a.machine = .done v m'
  | .resolve scope x => x.resolve scope a.machine = .done v m'
  | .unary op u => Eval.ofExcept (op.apply u) a.machine = .done v m'
  | .binary op u w => Eval.ofExcept (op.apply u w) a.machine = .done v m'
  | .index u w => Eval.ofExcept (u.index w) a.machine = .done v m'
  | .call f vs => Evaluator.apply (Expr.eval a.depth) f vs a.machine = .done v m'
  | .builtin b vs => b.call vs a.machine = .done v m'
  | .newArray vs => Eval.newArray vs a.machine = .done v m'
  | .newHash content => Eval.newHash content a.machine = .done v m'
  | .expressions _ _ | .pairs _ _ _ | .choose _ | .bind _ _ _ | .wrap _ | .file _ => False

/-- The value is there when the activity begins: bound, or given to it, or part of such a value. -/
def Meets (a : Activity) (v : Value) : Prop :=
  a.machine.Holds v ∨ ∃ w ∈ a.action.given, v ∈ w.parts

/-- The activity looks a value up: under a name, or in a collection at this place. -/
inductive Fetches : Activity → Value → Prop
  | name {d : Nat} {m : Machine} {scope : ScopeId} {x : Name} {v : Value}
      (h : m.lookup scope x.text = some v) : Fetches ⟨d, .resolve scope x, m⟩ v
  | element {d : Nat} {m : Machine} {id : Identity} {vs : List Value} {i : Int64} {n : Nat}
      {v : Value} (hi : i.toInt = n) (h : vs[n]? = some v) :
      Fetches ⟨d, .index (.array id vs) (.integer i), m⟩ v
  | pair {d : Nat} {m : Machine} {id : Identity} {content : Hash Value} {k key v : Value}
      {filed : Key} (hk : k.key? = some filed) (h : content.get? filed = some (key, v)) :
      Fetches ⟨d, .index (.hash id content) k, m⟩ v
  | first {d : Nat} {m : Machine} {id : Identity} {vs : List Value} {v : Value}
      (h : vs.head? = some v) : Fetches ⟨d, .builtin .first [.array id vs], m⟩ v
  | last {d : Nat} {m : Machine} {id : Identity} {vs : List Value} {v : Value}
      (h : vs.getLast? = some v) : Fetches ⟨d, .builtin .last [.array id vs], m⟩ v

end Activity

variable {ledger longer : List Value} {m m' : Machine} {v w : Value}

namespace Value

/-- The very same value: identical, if it has an identity at all. -/
def Same (v w : Value) : Prop := v = w ∧ (v.identity?.isSome → v.identical w = true)

theorem same_refl (v : Value) : v.Same v := by
  refine ⟨rfl, fun hv => ?_⟩
  obtain ⟨id, hid⟩ := Option.isSome_iff_exists.mp hv
  exact identical_self hid

/-- Two values that can be told apart neither by identity nor by contents. -/
structure Alike (v w : Value) : Prop where
  eq : v = w
  equal : v.equal w = true
  inspect : v.inspect = w.inspect

theorem Listed.alike (hv : v.Listed ledger) (hw : w.Listed ledger) (hid : v.identity?.isSome)
    (h : v.identical w = true) : v.Alike w := by
  obtain ⟨id, hid⟩ := Option.isSome_iff_exists.mp hid
  obtain rfl := hv.eq_of_identical hw hid h
  exact ⟨rfl, hv.equal_self, rfl⟩

end Value

namespace Machine

/-- All identities in the value were given before. -/
def Knows (m : Machine) (v : Value) : Prop :=
  v.All fun w => ∀ id, w.identity? = some id → id < m.nextIdentity

/-- A value with an identity, and not identical to any that the machine knows. -/
def New (m : Machine) (v : Value) : Prop :=
  v.identity?.isSome ∧ ∀ w, m.Knows w → v.identical w = false

theorem Knows.mono (h : m.Knows v) (hle : m.nextIdentity ≤ m'.nextIdentity) : m'.Knows v :=
  All.mono h fun _ hw id hid => Nat.lt_of_lt_of_le (hw id hid) hle

theorem Ledgered.knows (hm : m.Ledgered ledger) (hv : v.Listed ledger) : m.Knows v := by
  refine All.mono hv fun w hw id hid => ?_
  obtain ⟨hlt, -⟩ := List.getElem?_eq_some_iff.mp (hw.1 id hid)
  exact hm.length ▸ hlt

theorem new_of_le {id : Identity} (hid : v.identity? = some id) (hle : m.nextIdentity ≤ id) :
    m.New v := by
  refine ⟨Option.isSome_iff_exists.mpr ⟨id, hid⟩, fun w hw => Bool.eq_false_iff.mpr fun h => ?_⟩
  have hlt : id < m.nextIdentity := hw.self id (identity?_of_identical hid h)
  exact absurd hlt (Nat.not_lt.mpr hle)

theorem Ledgered.nextIdentity_le (hm : m.Ledgered ledger) (hm' : m'.Ledgered longer)
    (hl : ledger <+: longer) : m.nextIdentity ≤ m'.nextIdentity := by
  rw [← hm.length, ← hm'.length]
  exact hl.length_le

theorem Ledgered.listed_of_holds (hm : m.Ledgered ledger) (hv : m.Holds v) : v.Listed ledger := by
  obtain ⟨i, s, x, w, hs, hw, hv⟩ := hv
  exact (hm.bound hs hw).part hv

theorem lookup_of_bound? {scope : ScopeId} {x : String} (h : m.bound? scope x = some v) :
    m.lookup scope x = some v := by
  obtain ⟨s, hs, hv⟩ := Option.bind_eq_some_iff.mp h
  exact lookup_of_bound hs hv

end Machine

/-- The last of the names that is this one and has a value decides what is found. -/
theorem lookup_reverse_zip {xs : List String} {vs : List Value} {i : Nat} {x : String}
    (hx : xs[i]? = some x) (hv : vs[i]? = some v)
    (hlast : ∀ j, i < j → j < vs.length → xs[j]? ≠ some x) :
    (xs.zip vs).reverse.lookup x = some v := by
  have hzip : (xs.zip vs)[i]? = some (x, v) := List.getElem?_zip_eq_some.mpr ⟨hx, hv⟩
  obtain ⟨hlt, hget⟩ := List.getElem?_eq_some_iff.mp hzip
  refine List.lookup_eq_some_iff.mpr
    ⟨((xs.zip vs).drop (i + 1)).reverse, ((xs.zip vs).take i).reverse, ?_, ?_⟩
  · have hsplit : xs.zip vs = (xs.zip vs).take i ++ (x, v) :: (xs.zip vs).drop (i + 1) := by
      rw [← hget, ← List.drop_eq_getElem_cons, List.take_append_drop]
    have hreverse := congrArg List.reverse hsplit
    rw [List.reverse_append, List.reverse_cons, List.append_assoc] at hreverse
    exact hreverse
  · intro p hp
    obtain ⟨k, hk⟩ := List.mem_iff_getElem?.mp (List.mem_reverse.mp hp)
    rw [List.getElem?_drop] at hk
    obtain ⟨hname, hvalue⟩ := List.getElem?_zip_eq_some.mp hk
    obtain ⟨hj, -⟩ := List.getElem?_eq_some_iff.mp hvalue
    refine bne_iff_ne.mpr fun heq => ?_
    rw [← heq] at hname
    exact hlast (i + 1 + k) (by omega) hj hname

namespace Activity

variable {a b : Activity}

theorem Ledgered.listed_of_meets (h : a.Ledgered ledger) (hv : a.Meets v) : v.Listed ledger := by
  rcases hv with hv | ⟨w, hw, hv⟩
  · exact h.machine.listed_of_holds hv
  · exact (h.action.given w hw).part hv

theorem Ledgered.result (h : a.Ledgered ledger) (hv : a.Gives v m') :
    ∃ longer, ledger <+: longer ∧ m'.Ledgered longer ∧ v.Listed longer := by
  obtain ⟨d, action, m⟩ := a
  obtain ⟨haction, hm⟩ := h
  have heval : Evaluator.Recording (Expr.eval d) := Expr.eval_recording d
  have hplain : Plain (Entered ledger) := plain_entered ledger
  cases action with
  | expression scope e => exact (heval ledger scope e).result hm hv
  | statement scope s => exact (heval.statement scope s).result hm hv
  | statements scope last ss =>
    exact (heval.statements scope ss (List.forall_mem_singleton.mp haction)).result hm hv
  | resolve scope x => exact (x.resolve_records scope).result hm hv
  | unary op u =>
    exact (Eval.records_ofExcept fun hw => UnaryOp.all_of_apply hplain hw).result hm hv
  | binary op u w =>
    exact (Eval.records_ofExcept fun hw => BinaryOp.all_of_apply hplain hw).result hm hv
  | index u w =>
    have hu : u.Listed ledger := haction u List.mem_cons_self
    exact (Eval.records_ofExcept fun hw => Value.all_of_index hplain hu hw).result hm hv
  | call f vs =>
    obtain ⟨hf, hvs⟩ := List.forall_mem_cons.mp haction
    exact (heval.apply hf hvs).result hm hv
  | builtin b vs => exact (b.call_records haction).result hm hv
  | newArray vs => exact (Eval.records_newArray haction).result hm hv
  | newHash content => exact (Eval.records_newHash haction).result hm hv
  | expressions | pairs | choose | bind | wrap | file => exact hv.elim

/-- The result of an activity that makes something is not identical to anything known before. -/
theorem Ledgered.new (h : a.Ledgered ledger) (hmakes : a.action.Makes) (hv : a.Gives v m') :
    a.machine.New v := by
  obtain ⟨d, action, m⟩ := a
  obtain ⟨-, hm⟩ := h
  have heval : ∀ d, Evaluator.Recording (Expr.eval d) := Expr.eval_recording
  cases hmakes with
  | array =>
    cases d with
    | zero => cases hv
    | succ d =>
      obtain ⟨vs, m₁, hvs, hnew⟩ := Eval.exists_of_bind_eq_done hv
      obtain ⟨longer, hl, hm₁, -⟩ := ((heval d).expressions _ _).result hm hvs
      cases hnew
      exact new_of_le rfl (hm.nextIdentity_le hm₁ hl)
  | hash =>
    cases d with
    | zero => cases hv
    | succ d =>
      obtain ⟨content, m₁, hcontent, hnew⟩ := Eval.exists_of_bind_eq_done hv
      obtain ⟨longer, hl, hm₁, -⟩ :=
        ((heval d).pairs _ _ (Hash.listed_empty ledger)).result hm hcontent
      cases hnew
      exact new_of_le rfl (hm.nextIdentity_le hm₁ hl)
  | function =>
    cases d with
    | zero => cases hv
    | succ d =>
      cases hv
      exact new_of_le rfl (Nat.le_refl _)
  | newArray | newHash | rest =>
    cases hv
    exact new_of_le rfl (Nat.le_refl _)
  | push =>
    simp only [Gives, Builtin.call] at hv
    split at hv
    · obtain ⟨vs, -, hnew⟩ := Eval.exists_of_ofExcept_bind_eq_done hv
      cases hnew
      exact new_of_le rfl (Nat.le_refl _)
    · cases hv

theorem Fetches.gives (h : a.Fetches v) : a.Gives v a.machine := by
  cases h with
  | @name d m scope x _ h =>
    show x.resolve scope m = .done v m
    rw [Name.resolve, Eval.bind_apply]
    simp only [Eval.lookup, Eval.update, h]
    rfl
  | @element d m id vs i n _ hi h =>
    have hindex : (Value.array id vs).index (.integer i) = .ok v := by
      rw [Value.index, hi]
      show Except.ok (vs[n]?.getD .null) = .ok v
      rw [h]
      rfl
    show Eval.ofExcept _ _ = _
    rw [hindex]
    rfl
  | @pair d m id content k key _ filed hk h =>
    have hindex : (Value.hash id content).index k = .ok v := by
      simp [Value.index, hk, h]
    show Eval.ofExcept _ _ = _
    rw [hindex]
    rfl
  | @first d m id vs _ h =>
    show Outcome.done (vs.head?.getD .null) m = _
    rw [h]
    rfl
  | @last d m id vs _ h =>
    show Outcome.done (vs.getLast?.getD .null) m = _
    rw [h]
    rfl

/-- The result of a `let` is what its name is bound to. -/
theorem lookup_of_let {d : Nat} {scope : ScopeId} {t : Token} {x : Name} {e : Expr}
    (hscope : scope < m.scopes.size)
    (h : Evaluator.statement (Expr.eval d) scope (.bind t x e) m = .done v m') :
    m'.lookup scope x.text = some v := by
  obtain ⟨u, m₁, hu, hrest⟩ := Eval.exists_of_bind_eq_done h
  have hpreserves : m.Preserves m₁ := Expr.eval_leading preserves_stepwise d scope e (.of_done hu)
  cases hrest
  have hlt : scope < m₁.scopes.size := Nat.lt_of_lt_of_le hscope hpreserves.grows
  exact lookup_of_bound? (bound?_assign_self m₁ hlt x.text v)

/-- Where the body of a function begins, a parameter is bound to its argument, unless a later
parameter with an argument has the same name. -/
theorem lookup_of_body {d : Nat} {id : Identity} {c : Closure} {vs : List Value}
    (hb : Part ⟨d, .call (.function id c) vs, m⟩ b) {i : Nat} {x : Name}
    (hx : c.parameters[i]? = some x) (hv : vs[i]? = some v)
    (hlast : ∀ j y, i < j → j < vs.length → c.parameters[j]? = some y → y.text ≠ x.text) :
    b.machine.lookup m.scopes.size x.text = some v := by
  cases hb with
  | body =>
    have hscope : (m.openScope (some c.scope)
        ((c.parameters.map Name.text).zip vs).reverse).2.scopes[m.scopes.size]? =
        some ⟨((c.parameters.map Name.text).zip vs).reverse, some c.scope⟩ := by
      rw [openScope, Array.getElem?_push, if_pos rfl]
    refine lookup_of_bound hscope (lookup_reverse_zip ?_ hv ?_)
    · rw [List.getElem?_map, hx]
      rfl
    · intro j hij hj hname
      rw [List.getElem?_map] at hname
      obtain ⟨y, hy, hname⟩ := Option.map_eq_some_iff.mp hname
      exact hlast j y hij hj hy hname

/-- What holds of the identities that an activity has to do with: of the values that it meets or
gives, and of the activities within it. -/
structure IdentityLaws (a : Activity) : Prop where
  /-- Identical values are alike, also if one is met later than the other. -/
  alike : ∀ {b : Activity} {v w : Value}, a.Within b → a.Meets v → b.Meets w →
    v.identity?.isSome → v.identical w = true → v.Alike w
  known : ∀ {v : Value}, a.Meets v → a.machine.Knows v
  /-- What is known stays so, and results are known from then on. -/
  later : ∀ {b : Activity} {v : Value}, a.Within b → a.machine.Knows v → b.machine.Knows v
  result : ∀ {v w : Value} {m' : Machine}, a.Gives v m' → m'.Knows v ∧
    (a.machine.Knows w → m'.Knows w)
  new : ∀ {v : Value} {m' : Machine}, a.action.Makes → a.Gives v m' → a.machine.New v
  fetched : ∀ {w : Value}, a.Fetches w → ∃ v, a.Gives v a.machine ∧ v.Same w
  bound : ∀ {scope : ScopeId} {t : Token} {x : Name} {e : Expr} {v : Value} {m' : Machine},
    a.action = .statement scope (.bind t x e) → a.Gives v m' →
    ∃ w, m'.lookup scope x.text = some w ∧ v.Same w
  passed : ∀ {b : Activity} {id : Identity} {c : Closure} {vs : List Value} {i : Nat} {x : Name}
    {v : Value}, a.action = .call (.function id c) vs → a.Part b → c.parameters[i]? = some x →
    vs[i]? = some v →
    (∀ j y, i < j → j < vs.length → c.parameters[j]? = some y → y.text ≠ x.text) →
    ∃ w, b.machine.lookup a.machine.scopes.size x.text = some w ∧ v.Same w

theorem Ledgered.identityLaws (h : a.Ledgered ledger) (hplaced : a.Placed) : a.IdentityLaws where
  alike hb hv hw hid hsame := by
    obtain ⟨longer, hl, hb⟩ := h.within hb
    have hv' := (h.listed_of_meets hv).mono hl
    exact hv'.alike (hb.listed_of_meets hw) hid hsame
  known hv := h.machine.knows (h.listed_of_meets hv)
  later hb hv := by
    obtain ⟨longer, hl, hb⟩ := h.within hb
    exact hv.mono (h.machine.nextIdentity_le hb.machine hl)
  result hv := by
    obtain ⟨longer, hl, hm', hlisted⟩ := h.result hv
    exact ⟨hm'.knows hlisted, fun hw => hw.mono (h.machine.nextIdentity_le hm' hl)⟩
  new hmakes hv := h.new hmakes hv
  fetched hw := ⟨_, hw.gives, same_refl _⟩
  bound ha hv := by
    obtain ⟨d, action, m⟩ := a
    cases ha
    exact ⟨_, lookup_of_let (hplaced _ rfl) hv, same_refl _⟩
  passed ha hb hx hv hlast := by
    obtain ⟨d, action, m⟩ := a
    cases ha
    exact ⟨_, lookup_of_body hb hx hv hlast, same_refl _⟩

end Activity

/-- In whatever state a session is, values that it holds then or later and that are identical are
alike, and the laws of identity hold of all that is carried out when a program is run. -/
theorem identity_laws {m : Machine} (hm : m.Reached) :
    (∀ {m' : Machine} {v w : Value}, m.Later m' → m.Holds v → m'.Holds w → v.identity?.isSome →
      v.identical w = true → v.Alike w) ∧
    ∀ {depth : Nat} {p : Program} {a : Activity},
      (Activity.ofProgram depth globalScope p m).Within a → a.IdentityLaws := by
  obtain ⟨ledger, hledger⟩ := hm.ledgered
  refine ⟨?_, ?_⟩
  · intro m' v w hlater hv hw hid hsame
    obtain ⟨longer, hl, hm'⟩ := hlater.ledgered hledger
    have hv' := (hledger.listed_of_holds hv).mono hl
    exact hv'.alike (hm'.listed_of_holds hw) hid hsame
  · intro depth p a ha
    have hroot := Activity.ledgered_ofProgram hledger depth globalScope p
    obtain ⟨longer, -, hledgered⟩ := hroot.within ha
    have hplaced : (Activity.ofProgram depth globalScope p m).Placed := by
      intro scope hscope
      obtain rfl := Option.some.inj hscope
      exact hm.wellFormed.2
    exact hledgered.identityLaws (hplaced.within ha)

/-- Two names for one array, and a function literal that is evaluated after the names are bound. -/
theorem identity_laws_shared_array : ∃ (m m' : Machine) (v w u : Value),
    m.Reached ∧ m.Holds v ∧ m.Holds w ∧ v.identical w = true ∧ v.Alike w ∧
    Expr.eval 1 globalScope (.function (Token.endOfInput 0) [] (.mk (Token.endOfInput 0) [])) m =
      .done u m' ∧ m.New u ∧ u.identical v = false := by
  have hbound : ((run 4 globalScope "let a = [1]; let b = a;" initial).bind fun reply =>
      reply.2.scopes[globalScope]?.bind fun s => (s.bindings.lookup "a").bind fun v =>
        (s.bindings.lookup "b").map fun w => (v.identity?.isSome, v.identical w)) =
      some (true, true) := by decide +kernel
  obtain ⟨⟨reply, m⟩, hrun, hlookup⟩ := Option.bind_eq_some_iff.mp hbound
  obtain ⟨s, hs, hlookup⟩ := Option.bind_eq_some_iff.mp hlookup
  obtain ⟨v, hv, hlookup⟩ := Option.bind_eq_some_iff.mp hlookup
  obtain ⟨w, hw, hsame⟩ := Option.map_eq_some_iff.mp hlookup
  obtain ⟨hid, hidentical⟩ := Prod.mk.inj hsame
  have hreached : m.Reached := .run .initial hrun
  have hholds : m.Holds v := ⟨globalScope, s, "a", v, hs, hv, List.mem_cons_self⟩
  have hholds' : m.Holds w := ⟨globalScope, s, "b", w, hs, hw, List.mem_cons_self⟩
  have halike := (identity_laws hreached).1 .refl hholds hholds' hid hidentical
  let t := Token.endOfInput 0
  let e : Expr := .function t [] (.mk t [])
  have hwithin : (Activity.ofProgram 1 globalScope ⟨[.expr t e]⟩ m).Within
      ⟨1, .expression globalScope e, m⟩ := .part (.part .self .statement) .expression
  have hlaws := (identity_laws hreached).2 hwithin
  have hnew : m.New (.function m.nextIdentity ⟨[], .mk t [], globalScope⟩) :=
    hlaws.new .function rfl
  exact ⟨m, _, v, w, _, hreached, hholds, hholds', hidentical, halike, rfl, hnew,
    hnew.2 v (hlaws.known (.inl hholds))⟩

end Monkey
