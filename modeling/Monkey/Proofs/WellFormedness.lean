import Monkey.Proofs.HashIndex
import Monkey.Proofs.Logic
import Monkey.Proofs.Reachability
import Monkey.Session

/-!
What holds of the machine at every point of a session. Each link leads from a scope to an older one,
a function was made in a scope that exists, no fault is kept in a value, and the index of every hash
fits its pairs. An evaluation that starts in such a machine ends in such a machine, be it with a
result or a fault, and what it gives may be bound there.
-/

namespace Monkey

namespace Value

/-- Not a fault, and if a hash, then one whose index and keys fit its pairs. -/
def Intact : Value → Prop
  | .error _ => False
  | .hash _ h => h.Coherent ∧ h.Filed
  | _ => True

theorem lenient_intact : Lenient Intact where
  integer _ := trivial
  string _ := trivial
  boolean _ := trivial
  null := trivial
  builtin _ := trivial
  array _ _ := trivial

/-- A value that may be bound where there are this many scopes: all of it is intact, and its
functions were made in these scopes. -/
def Sound (n : Nat) (v : Value) : Prop := v.All (Resident (· < n) Intact)

theorem lenient_sound (n : Nat) : Lenient (Resident (· < n) Intact) := lenient_intact.resident _

theorem Resident.mono {P : Value → Prop} {n k : Nat} {v : Value} (h : v.Resident (· < n) P)
    (hn : n ≤ k) : v.Resident (· < k) P :=
  ⟨h.1, fun id c hv => Nat.lt_of_lt_of_le (h.2 id c hv) hn⟩

variable {n k : Nat} {v : Value}

theorem Sound.mono (h : v.Sound n) (hn : n ≤ k) : v.Sound k := All.mono h fun _ hw => hw.mono hn

end Value

open Value

/-- The contents of a hash are sound, and its index and keys fit them. -/
structure Hash.Sound (n : Nat) (h : Hash Value) : Prop where
  contents : h.All (Resident (· < n) Intact)
  coherent : h.Coherent
  filed : h.Filed

namespace Hash

variable {n k : Nat} {h : Hash Value}

theorem sound_empty (n : Nat) : Hash.Sound n ∅ := ⟨all_empty, coherent_empty, filed_empty⟩

theorem Sound.mono (hh : h.Sound n) (hn : n ≤ k) : h.Sound k where
  contents p hp :=
    ⟨Value.Sound.mono (hh.contents p hp).1 hn, Value.Sound.mono (hh.contents p hp).2 hn⟩
  coherent := hh.coherent
  filed := hh.filed

theorem Sound.insert {filed : Key} {key value : Value} (hh : h.Sound n) (hk : key.key? = some filed)
    (hkey : key.Sound n) (hvalue : value.Sound n) : (h.insert filed (key, value)).Sound n where
  contents := hh.contents.insert hkey hvalue
  coherent := hh.coherent.insert filed (key, value)
  filed := hh.filed.insert hh.coherent hk

end Hash

namespace Machine

/-- Links lead to older scopes, and the values that are bound are sound. -/
structure WellFormed (m : Machine) : Prop where
  older : ∀ {i o : ScopeId} {s : Scope}, m.scopes[i]? = some s → s.outer = some o → o < i
  sound : ∀ ⦃i : ScopeId⦄ ⦃s : Scope⦄ ⦃x : String⦄ ⦃v : Value⦄, m.scopes[i]? = some s →
    s.bindings.lookup x = some v → v.Sound m.scopes.size

variable {m m' : Machine}

/-- Where every scope may be reached, only the property of the bound values is left of
confinement. -/
theorem confined_everywhere_iff {P : Value → Prop} :
    Confined (fun _ => True) P m ↔
      ∀ ⦃i : ScopeId⦄ ⦃s : Scope⦄ ⦃x : String⦄ ⦃v : Value⦄, m.scopes[i]? = some s →
        s.bindings.lookup x = some v → v.All P := by
  constructor
  · intro h i s x v hs hv
    exact (h.bound trivial hs hv).mono fun _ hw => hw.1
  · intro h
    refine ⟨fun _ _ => trivial, fun _ _ _ => trivial, fun _ hs hv => ?_⟩
    exact (h hs hv).mono fun _ hw => ⟨hw, fun _ _ _ => trivial⟩

theorem WellFormed.confined (hm : m.WellFormed) :
    Confined (fun _ => True) (Resident (· < m.scopes.size) Intact) m :=
  confined_everywhere_iff.mpr hm.sound

theorem WellFormed.of_sameScopes (hm : m.WellFormed) (h : SameScopes m m') : m'.WellFormed := by
  have heq : m'.scopes = m.scopes := h
  refine ⟨fun hs ho => hm.older (heq ▸ hs) ho, fun i s x v hs hv => ?_⟩
  rw [heq] at hs ⊢
  exact hm.sound hs hv

theorem WellFormed.assign (hm : m.WellFormed) {v : Value} (hv : v.Sound m.scopes.size)
    (scope : ScopeId) (x : String) : (m.assign scope x v).WellFormed := by
  refine ⟨?_, ?_⟩
  · intro i o s hs ho
    rw [getElem?_scopes_assign] at hs
    split at hs
    · obtain ⟨s₀, hs₀, rfl⟩ := Option.map_eq_some_iff.mp hs
      exact hm.older hs₀ ho
    · exact hm.older hs ho
  · have hall : v.All (Resident (fun _ => True) (Resident (· < m.scopes.size) Intact)) :=
      All.mono hv fun _ hw => ⟨hw, fun _ _ _ => trivial⟩
    rw [size_scopes_assign]
    exact confined_everywhere_iff.mp (hm.confined.assign hall scope x)

theorem WellFormed.openScope (hm : m.WellFormed) {outer : ScopeId}
    {bindings : List (String × Value)} (ho : outer < m.scopes.size)
    (hb : ∀ b ∈ bindings, b.2.Sound m.scopes.size) :
    (m.openScope (some outer) bindings).2.WellFormed := by
  refine ⟨?_, ?_⟩
  · intro i o s hs hso
    rw [Machine.openScope, Array.getElem?_push] at hs
    split at hs
    · next hi =>
      obtain rfl := Option.some.inj hs
      obtain rfl := Option.some.inj hso
      exact hi ▸ ho
    · exact hm.older hs hso
  · have hall : ∀ b ∈ bindings,
        b.2.All (Resident (fun _ => True) (Resident (· < m.scopes.size) Intact)) :=
      fun b hmem => All.mono (hb b hmem) fun _ hw => ⟨hw, fun _ _ _ => trivial⟩
    have hconfined : Confined (fun _ => True) (Resident (· < m.scopes.size) Intact)
        (m.openScope (some outer) bindings).2 := hm.confined.openScope trivial hall
    intro i s x v hs hv
    rw [size_scopes_openScope]
    exact Value.Sound.mono (confined_everywhere_iff.mp hconfined hs hv) (Nat.le_succ _)

theorem wellFormed_initial : initial.WellFormed := by
  have hscope : ∀ {i : ScopeId} {s : Scope}, initial.scopes[i]? = some s → s = ⟨[], none⟩ := by
    intro i s hs
    exact List.mem_singleton.mp (Array.mem_toList_iff.mpr (Array.mem_of_getElem? hs))
  refine ⟨?_, ?_⟩
  · intro i o s hs ho
    rw [hscope hs] at ho
    cases ho
  · intro i s x v hs hv
    rw [hscope hs] at hv
    cases hv

end Machine

open Machine

/-- The machine is well-formed at the end and has no fewer scopes than `n`; a result has a property
that may depend on the number of scopes. -/
inductive Outcome.Keeps {α : Type} (n : Nat) (Q : Nat → α → Prop) : Outcome α → Prop
  | done {a : α} {m : Machine} (hm : m.WellFormed) (hn : n ≤ m.scopes.size)
      (ha : Q m.scopes.size a) : Keeps n Q (.done a m)
  | failed {f : Fault} {m : Machine} (hm : m.WellFormed) (hn : n ≤ m.scopes.size) :
      Keeps n Q (.failed f m)
  | unfinished : Keeps n Q .unfinished

/-- From a well-formed machine with at least `n` scopes the evaluation keeps it well-formed and
gives a result with a property. -/
def Eval.Keeps {α : Type} (n : Nat) (Q : Nat → α → Prop) (x : Eval α) : Prop :=
  ∀ ⦃m : Machine⦄, m.WellFormed → n ≤ m.scopes.size → (x m).Keeps n Q

variable {α β : Type} {n : Nat} {Q : Nat → α → Prop} {R : Nat → β → Prop}

theorem Outcome.Keeps.mono {k : Nat} {o : Outcome α} (h : o.Keeps k Q) (hn : n ≤ k) :
    o.Keeps n Q := by
  cases h with
  | done hm hk ha => exact .done hm (Nat.le_trans hn hk) ha
  | failed hm hk => exact .failed hm (Nat.le_trans hn hk)
  | unfinished => exact .unfinished

theorem Outcome.Keeps.wellFormed {o : Outcome α} {m : Machine} (h : o.Keeps n Q)
    (hm : o.EndsIn m) : m.WellFormed ∧ n ≤ m.scopes.size := by
  cases h with
  | done hm' hn ha =>
    cases hm
    exact ⟨hm', hn⟩
  | failed hm' hn =>
    cases hm
    exact ⟨hm', hn⟩
  | unfinished => cases hm

namespace Eval

theorem keeps_pure {a : α} (ha : ∀ k, n ≤ k → Q k a) : (pure a : Eval α).Keeps n Q :=
  fun _ hm hn => .done hm hn (ha _ hn)

theorem keeps_fail (f : Fault) : (fail f : Eval α).Keeps n Q := fun _ hm hn => .failed hm hn

theorem Keeps.bind {x : Eval α} {f : α → Eval β} (hx : x.Keeps n Q)
    (hf : ∀ k a, n ≤ k → Q k a → (f a).Keeps k R) : (x >>= f).Keeps n R := by
  intro m hm hn
  rw [bind_apply]
  have hxm := hx hm hn
  generalize x m = o at hxm
  cases hxm with
  | done hm' hn' ha => exact (hf _ _ hn' ha hm' (Nat.le_refl _)).mono hn'
  | failed hm' hn' => exact .failed hm' hn'
  | unfinished => exact .unfinished

/-- An evaluation that neither opens a scope nor binds a name has only its result to answer for. -/
theorem keeps_of_sameScopes {x : Eval α} (hx : x.Leads SameScopes)
    (hQ : ∀ {m a m'}, m.WellFormed → n ≤ m.scopes.size → x m = .done a m' → Q m.scopes.size a) :
    x.Keeps n Q := by
  intro m hm hn
  cases hxm : x m with
  | done a m' =>
    have hsame : m'.scopes = m.scopes := hx (.of_done hxm)
    refine .done (hm.of_sameScopes hsame) (hsame ▸ hn) ?_
    rw [hsame]
    exact hQ hm hn hxm
  | failed f m' =>
    have hsame : m'.scopes = m.scopes := hx (hxm ▸ .failed f m')
    exact .failed (hm.of_sameScopes hsame) (hsame ▸ hn)
  | unfinished => exact .unfinished

theorem keeps_assign {scope : ScopeId} {x : String} {v : Value} (hv : v.Sound n) :
    (assign scope x v).Keeps n fun _ _ => True := by
  intro m hm hn
  refine .done (hm.assign (hv.mono hn) scope x) ?_ trivial
  rw [size_scopes_assign]
  exact hn

theorem keeps_openScope {outer : ScopeId} {bindings : List (String × Value)} (ho : outer < n)
    (hb : ∀ b ∈ bindings, b.2.Sound n) :
    (openScope (some outer) bindings).Keeps n fun k scope => scope < k := by
  intro m hm hn
  have hsize := m.size_scopes_openScope (some outer) bindings
  refine .done (hm.openScope (Nat.lt_of_lt_of_le ho hn) fun b hmem => (hb b hmem).mono hn) ?_ ?_
  · exact hsize ▸ Nat.le_succ_of_le hn
  · exact hsize ▸ Nat.lt_succ_self _

theorem keeps_lookup (scope : ScopeId) (x : String) :
    (lookup scope x).Keeps n fun k found => ∀ v ∈ found, v.Sound k :=
  fun _ hm hn => .done hm hn fun _ hv => (hm.confined.lookup trivial hv).mono fun _ hw => hw.1

theorem keeps_print (line : String) : (print line).Keeps n fun _ _ => True :=
  fun _ hm hn => .done (hm.of_sameScopes rfl) hn trivial

theorem keeps_newArray {vs : List Value} (hvs : ∀ v ∈ vs, v.Sound n) :
    (newArray vs).Keeps n Value.Sound :=
  keeps_of_sameScopes (newArray_sameScopes vs) fun _ hn hx =>
    Builtin.all_of_newArray (lenient_sound _) (fun v hv => (hvs v hv).mono hn) hx

theorem keeps_newHash {h : Hash Value} (hh : h.Sound n) : (newHash h).Keeps n Value.Sound := by
  refine keeps_of_sameScopes (newHash_sameScopes h) fun _ hn hx => ?_
  cases hx
  exact all_resident_hash ⟨hh.coherent, hh.filed⟩ (hh.mono hn).contents

theorem keeps_newFunction {c : Closure} (hscope : c.scope < n) :
    (newFunction c).Keeps n Value.Sound := by
  refine keeps_of_sameScopes (newFunction_sameScopes c) fun _ hn hx => ?_
  cases hx
  exact all_resident_function trivial (Nat.lt_of_lt_of_le hscope hn)

end Eval

/-- Of a well-formed machine the number of scopes is known, which only grows. -/
def Logic.soundness : Logic Nat where
  Later n k := n ≤ k
  Fit n := Resident (· < n) Intact
  FitHash := Hash.Sound
  Place n scope := scope < n
  Usable _ := True
  Holds n Q x := x.Keeps n Q
  refl := Nat.le_refl
  trans := Nat.le_trans
  fit_mono hn hv := hv.mono hn
  fitHash_mono hn hh := hh.mono hn
  place_mono hn hscope := Nat.lt_of_lt_of_le hscope hn
  plain n := (lenient_sound n).plain
  fit_returned _ _ := resident_returned trivial
  fit_function hc := ⟨hc.2 _ _ rfl, fun _ _ => trivial⟩
  fitHash_empty := Hash.sound_empty
  fitHash_insert hh hk hkey hvalue := hh.insert hk hkey hvalue
  holds_pure := Eval.keeps_pure
  holds_fail := Eval.keeps_fail
  holds_unfinished _ _ := .unfinished
  holds_bind := Eval.Keeps.bind
  holds_print := Eval.keeps_print
  holds_newArray := Eval.keeps_newArray
  holds_newHash := Eval.keeps_newHash
  holds_newFunction hscope _ := Eval.keeps_newFunction hscope
  holds_lookup _ _ := Eval.keeps_lookup _ _
  holds_assign _ _ hv := Eval.keeps_assign hv
  holds_openScope ho _ hb := Eval.keeps_openScope ho hb

theorem Program.eval_keeps (depth : Nat) {scope : ScopeId} (hscope : scope < n) (p : Program) :
    (p.eval depth scope).Keeps n Value.Sound :=
  Logic.soundness.holds_program n depth hscope fun _ _ => trivial

/-- A text that was run left the machine as it was, or in the state that its program ended in. -/
theorem endsIn_of_run {depth : Nat} {scope : ScopeId} {source : String} {m m' : Machine}
    {reply : Reply} (h : run depth scope source m = some (reply, m')) :
    m' = m ∨ ∃ p m₁, Program.parse source = .ok p ∧ (p.eval depth scope m).EndsIn m₁ ∧
      m' = m₁.takePrinted.2 := by
  unfold run at h
  split at h
  · cases h
    exact .inl rfl
  · next p hp =>
    obtain ⟨⟨v, m₁⟩, hrun, heq⟩ := Option.map_eq_some_iff.mp h
    cases heq
    refine .inr ⟨p, m₁, hp, ?_, rfl⟩
    unfold Program.run at hrun
    split at hrun
    · next hdone =>
      cases hrun
      exact hdone ▸ .done _ _
    · next hfailed =>
      cases hrun
      exact hfailed ▸ .failed _ _
    · cases hrun

/-- A text that is run in a scope of a well-formed machine leaves it well-formed, whatever becomes
of the text. -/
theorem wellFormed_of_run {depth : Nat} {scope : ScopeId} {source : String} {m m' : Machine}
    {reply : Reply} (hm : m.WellFormed) (hscope : scope < m.scopes.size)
    (h : run depth scope source m = some (reply, m')) :
    m'.WellFormed ∧ m.scopes.size ≤ m'.scopes.size := by
  rcases endsIn_of_run h with rfl | ⟨p, m₁, -, hends, rfl⟩
  · exact ⟨hm, Nat.le_refl _⟩
  · have hkeeps := Program.eval_keeps depth hscope p hm (Nat.le_refl _)
    obtain ⟨hm₁, hsize⟩ := hkeeps.wellFormed hends
    exact ⟨hm₁.of_sameScopes rfl, hsize⟩

namespace Machine

/-- The machines that a session can come to: texts are run one after another in the global scope of
a machine in which nothing is bound. -/
inductive Reached : Machine → Prop
  | initial : Reached initial
  | run {depth : Nat} {source : String} {m m' : Machine} {reply : Reply} (hm : Reached m)
      (h : run depth globalScope source m = some (reply, m')) : Reached m'

theorem Reached.wellFormed {m : Machine} (h : m.Reached) :
    m.WellFormed ∧ globalScope < m.scopes.size := by
  induction h with
  | initial => exact ⟨wellFormed_initial, Nat.one_pos⟩
  | run hm hrun ih =>
    obtain ⟨hm, hglobal⟩ := ih
    obtain ⟨hm', hsize⟩ := wellFormed_of_run hm hglobal hrun
    exact ⟨hm', Nat.lt_of_lt_of_le hglobal hsize⟩

/-- The links lead from a scope to older ones, and at last to one without a link. -/
inductive Ends (m : Machine) : ScopeId → Prop
  | global {i : ScopeId} {s : Scope} (hs : m.scopes[i]? = some s) (ho : s.outer = none) : Ends m i
  | inner {i o : ScopeId} {s : Scope} (hs : m.scopes[i]? = some s) (ho : s.outer = some o)
      (hlt : o < i) (h : Ends m o) : Ends m i

theorem WellFormed.ends {m : Machine} (hm : m.WellFormed) {i : ScopeId} (hi : i < m.scopes.size) :
    m.Ends i := by
  induction i using Nat.strongRecOn with
  | ind i ih =>
    have hs : m.scopes[i]? = some m.scopes[i] := Array.getElem?_eq_getElem hi
    cases ho : m.scopes[i].outer with
    | none => exact .global hs ho
    | some o =>
      have hlt : o < i := hm.older hs ho
      exact .inner hs ho hlt (ih o hlt (Nat.lt_trans hlt hi))

/-- A name is looked up along all links. -/
theorem WellFormed.lookup_eq {m : Machine} (hm : m.WellFormed) {i : ScopeId} {s : Scope}
    (hs : m.scopes[i]? = some s) (x : String) :
    m.lookup i x = (s.bindings.lookup x).or (s.outer.bind (m.lookup · x)) := by
  cases hx : s.bindings.lookup x with
  | some v => exact lookup_of_bound hs hx
  | none =>
    cases ho : s.outer with
    | none =>
      rw [Machine.lookup, hs]
      simp only [hx, ho]
      rfl
    | some o => exact lookup_of_unbound hs hx ho (hm.older hs ho)

/-- A value that is bound in some scope, or part of a value that is. -/
def Holds (m : Machine) (w : Value) : Prop :=
  ∃ (i : ScopeId) (s : Scope) (x : String) (v : Value),
    m.scopes[i]? = some s ∧ s.bindings.lookup x = some v ∧ w ∈ v.parts

/-- What a session can rely on between its texts: no fault is kept, hashes are indexed by the keys
of their pairs, and lookup follows links that lead to older scopes only and come to an end. -/
structure InOrder (m : Machine) : Prop where
  faultless : ∀ {v : Value}, m.Holds v → v.kind ≠ .error
  coherent : ∀ {id : Identity} {h : Hash Value}, m.Holds (.hash id h) → h.Coherent
  filed : ∀ {id : Identity} {h : Hash Value}, m.Holds (.hash id h) → h.Filed
  keys : ∀ {id : Identity} {h : Hash Value}, m.Holds (.hash id h) → ∀ p ∈ h.pairs,
    p.1.kind = .integer ∨ p.1.kind = .boolean ∨ p.1.kind = .string
  ends : ∀ {i : ScopeId}, i < m.scopes.size → m.Ends i
  captured : ∀ {id : Identity} {c : Closure}, m.Holds (.function id c) → m.Ends c.scope
  resolved : ∀ {i : ScopeId} {s : Scope}, m.scopes[i]? = some s → ∀ x,
    m.lookup i x = (s.bindings.lookup x).or (s.outer.bind (m.lookup · x))

theorem WellFormed.inOrder {m : Machine} (hm : m.WellFormed) : m.InOrder := by
  have hheld : ∀ {w : Value}, m.Holds w → w.Resident (· < m.scopes.size) Intact := by
    rintro w ⟨i, s, x, v, hs, hv, hw⟩
    exact hm.sound hs hv w hw
  refine ⟨?_, ?_, ?_, ?_, hm.ends, ?_, hm.lookup_eq⟩
  · intro v hv hkind
    have hintact := (hheld hv).1
    cases v with
    | error f => exact hintact
    | _ => cases hkind
  · intro id h hh
    exact (hheld hh).1.1
  · intro id h hh
    exact (hheld hh).1.2
  · intro id h hh p hp
    obtain ⟨hcoherent, hfiled⟩ := (hheld hh).1
    exact Hash.kind_of_filed hcoherent hfiled hp
  · intro id c hc
    exact hm.ends ((hheld hc).2 id c rfl)

/-- Every machine that a session comes to is in order. -/
theorem inOrder_of_reached {m : Machine} (h : m.Reached) : m.InOrder := h.wellFormed.1.inOrder

/-- After a text that binds a hash the session holds one, and its index fits its pairs. -/
theorem inOrder_of_reached_hash : ∃ (m : Machine) (id : Identity) (h : Hash Value),
    m.Reached ∧ m.Holds (.hash id h) ∧ h.Coherent ∧ h.Filed ∧ m.Ends globalScope := by
  have hbound : ((run 4 globalScope "let h = \x7b1: [true], \"one\": fn(x) \x7b x \x7d\x7d;"
      initial).bind fun reply => reply.2.scopes[globalScope]?.bind fun s =>
        (s.bindings.lookup "h").map Value.kind) = some .hash := by decide +kernel
  obtain ⟨⟨reply, m⟩, hrun, hlookup⟩ := Option.bind_eq_some_iff.mp hbound
  obtain ⟨s, hs, hkind⟩ := Option.bind_eq_some_iff.mp hlookup
  obtain ⟨v, hv, hhash⟩ := Option.map_eq_some_iff.mp hkind
  have hreached : m.Reached := .run .initial hrun
  have horder := inOrder_of_reached hreached
  cases v with
  | hash id h =>
    have hholds : m.Holds (.hash id h) := ⟨globalScope, s, "h", _, hs, hv, List.mem_cons_self⟩
    exact ⟨m, id, h, hreached, hholds, horder.coherent hholds, horder.filed hholds,
      horder.ends (lt_size_of_getElem? hs)⟩
  | _ => cases hhash

end Machine

end Monkey
