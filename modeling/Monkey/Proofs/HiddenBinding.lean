import Monkey.Proofs.Logic
import Monkey.Proofs.Reachability

/-!
Bindings that nothing mentions. Where a name occurs neither in a program nor in the literal of any
function that the program can come across, the program does the same whatever the name is bound to
in the scope that it is run in: the binding is not read, and not changed either. To see this, one
takes the binding out of the machine and compares the run with the run without it.
-/

namespace Monkey

def Scope.without (x : String) (s : Scope) : Scope :=
  { s with bindings := s.bindings.filter (·.1 != x) }

theorem Scope.lookup_without (x : String) (s : Scope) (y : String) :
    (s.without x).bindings.lookup y = if y = x then none else s.bindings.lookup y := by
  obtain ⟨bindings, outer⟩ := s
  simp only [Scope.without]
  induction bindings with
  | nil => simp
  | cons b bindings ih =>
    obtain ⟨z, v⟩ := b
    by_cases hz : z = x
    · subst hz
      rw [List.filter_cons_of_neg (by simp), ih, List.lookup_cons]
      by_cases hy : y = z
      · simp [hy]
      · simp [hy, beq_eq_false_iff_ne.mpr hy]
    · rw [List.filter_cons_of_pos (by simpa using hz), List.lookup_cons, List.lookup_cons, ih]
      by_cases hy : y = z
      · simp [hy, hz]
      · simp [beq_eq_false_iff_ne.mpr hy]

theorem Scope.without_cons_self (x : String) (v : Value) (s : Scope) :
    Scope.without x { s with bindings := (x, v) :: s.bindings } = s.without x := by
  simp [Scope.without]

theorem Scope.without_cons_of_ne {x y : String} (h : y ≠ x) (v : Value) (s : Scope) :
    Scope.without x { s with bindings := (y, v) :: s.bindings } =
      { s.without x with bindings := (y, v) :: (s.without x).bindings } := by
  simp [Scope.without, h]

theorem Scope.without_eq_self {x : String} {s : Scope} (h : ∀ b ∈ s.bindings, b.1 ≠ x) :
    s.without x = s := by
  have hfilter : s.bindings.filter (·.1 != x) = s.bindings :=
    List.filter_eq_self.mpr fun b hb => by simpa using h b hb
  rw [Scope.without, hfilter]

namespace Machine

/-- The machine in which a name is not bound in this one scope. -/
def without (home : ScopeId) (x : String) (m : Machine) : Machine :=
  { m with scopes := m.scopes.modify home (Scope.without x) }

variable {home : ScopeId} {x : String}

@[simp] theorem size_scopes_without (m : Machine) :
    (m.without home x).scopes.size = m.scopes.size := by
  simp [without]

theorem getElem?_scopes_without (m : Machine) (i : ScopeId) :
    (m.without home x).scopes[i]? =
      if home = i then m.scopes[i]?.map (Scope.without x) else m.scopes[i]? := by
  simp only [without, Array.getElem?_modify]

/-- What is left of a scope. -/
theorem exists_of_getElem?_without {m : Machine} {i : ScopeId} {s : Scope}
    (h : (m.without home x).scopes[i]? = some s) :
    ∃ s₀, m.scopes[i]? = some s₀ ∧ s.outer = s₀.outer ∧
      ∀ {y v}, s.bindings.lookup y = some v → s₀.bindings.lookup y = some v := by
  rw [getElem?_scopes_without] at h
  split at h
  · obtain ⟨s₀, hs₀, rfl⟩ := Option.map_eq_some_iff.mp h
    refine ⟨s₀, hs₀, rfl, fun {y v} hv => ?_⟩
    rw [Scope.lookup_without] at hv
    split at hv
    · cases hv
    · exact hv
  · exact ⟨s, h, rfl, fun hv => hv⟩

theorem getElem?_scopes_without_eq_some (home : ScopeId) {y : String} (h : y ≠ x) {m : Machine}
    {i : ScopeId} {s : Scope} (hs : m.scopes[i]? = some s) :
    ∃ s', (m.without home x).scopes[i]? = some s' ∧ s'.outer = s.outer ∧
      s'.bindings.lookup y = s.bindings.lookup y := by
  rw [getElem?_scopes_without, hs]
  split
  · exact ⟨s.without x, rfl, rfl, by rw [Scope.lookup_without, if_neg h]⟩
  · exact ⟨s, rfl, rfl, rfl⟩

theorem lookup_without {y : String} (h : y ≠ x) (m : Machine) (scope : ScopeId) :
    (m.without home x).lookup scope y = m.lookup scope y := by
  induction scope using Nat.strongRecOn with
  | ind scope ih =>
    cases hs : m.scopes[scope]? with
    | none =>
      rw [lookup, lookup, getElem?_scopes_without, hs]
      simp
    | some s =>
      obtain ⟨s', hs', ho, hb⟩ := getElem?_scopes_without_eq_some home h hs
      rw [lookup, lookup, hs, hs']
      simp only [ho, hb]
      cases s.bindings.lookup y with
      | some v => rfl
      | none =>
        cases s.outer with
        | none => rfl
        | some outer =>
          simp only
          split
          · next hlt => exact ih outer hlt
          · rfl

theorem assign_without {y : String} (h : y ≠ x) (m : Machine) (scope : ScopeId) (v : Value) :
    (m.without home x).assign scope y v = (m.assign scope y v).without home x := by
  simp only [assign, without, mk.injEq, and_true]
  apply Array.ext_getElem?
  intro i
  simp only [Array.getElem?_modify]
  cases m.scopes[i]? with
  | none => simp
  | some s =>
    by_cases hs : scope = i <;> by_cases hi : home = i <;>
      simp only [hs, hi, if_true, if_false, Option.map_some, Scope.without_cons_of_ne h]

/-- The value that is bound does not matter once the binding is taken out. -/
theorem without_assign_self (m : Machine) (v : Value) :
    (m.assign home x v).without home x = m.without home x := by
  simp only [assign, without, mk.injEq, and_true]
  apply Array.ext_getElem?
  intro i
  simp only [Array.getElem?_modify]
  cases m.scopes[i]? with
  | none => simp
  | some s =>
    by_cases hi : home = i <;>
      simp only [hi, if_true, if_false, Option.map_some, Scope.without_cons_self]

theorem openScope_without {bindings : List (String × Value)} (h : ∀ b ∈ bindings, b.1 ≠ x)
    (m : Machine) (outer : Option ScopeId) : (m.without home x).openScope outer bindings =
      ((m.openScope outer bindings).1, (m.openScope outer bindings).2.without home x) := by
  have hnew : Scope.without x ⟨bindings, outer⟩ = ⟨bindings, outer⟩ := Scope.without_eq_self h
  simp only [openScope, without, Array.size_modify, Prod.mk.injEq, mk.injEq, and_true, true_and]
  apply Array.ext_getElem?
  intro i
  simp only [Array.getElem?_push, Array.getElem?_modify, Array.size_modify]
  by_cases hi : i = m.scopes.size
  · by_cases hhome : home = i <;> simp [hi, hnew]
  · simp [hi]

end Machine


/-- Not a function whose literal mentions the name. -/
def Value.Unaware (x : String) : Value → Prop
  | .function _ c => x ∉ c.names
  | _ => True

open Machine Value

theorem Value.lenient_unaware (x : String) : Lenient (Unaware x) where
  integer _ := trivial
  string _ := trivial
  boolean _ := trivial
  null := trivial
  builtin _ := trivial
  array _ _ := trivial

section

variable (home : ScopeId) (x : String) (S : ScopeId → Prop)

/-- Without the binding, these scopes hold no function that mentions the name. -/
def Machine.Oblivious (m : Machine) : Prop := Confined S (Unaware x) (m.without home x)

/-- The second outcome is the first without the binding; where both are a result, it has a property
and the machine is oblivious. -/
inductive Outcome.Hides {α : Type} (Q : α → Prop) : Outcome α → Outcome α → Prop
  | done {a : α} {m : Machine} (ha : Q a) (hm : m.Oblivious home x S) :
      Hides Q (.done a m) (.done a (m.without home x))
  | failed (f : Fault) (m : Machine) : Hides Q (.failed f m) (.failed f (m.without home x))
  | unfinished : Hides Q .unfinished .unfinished

/-- From an oblivious machine the evaluation does the same without the binding. -/
def Eval.Ignores {α : Type} (Q : α → Prop) (y : Eval α) : Prop :=
  ∀ m, m.Oblivious home x S → Outcome.Hides home x S Q (y m) (y (m.without home x))

end

variable {home : ScopeId} {x : String} {S : ScopeId → Prop}

namespace Eval

variable {α β : Type} {Q Q' : α → Prop} {R : β → Prop}

theorem ignores_pure {a : α} (ha : Q a) : (pure a : Eval α).Ignores home x S Q :=
  fun _ hm => .done ha hm

theorem ignores_fail (f : Fault) : (fail f : Eval α).Ignores home x S Q := fun m _ => .failed f m

theorem Ignores.bind {y : Eval α} {f : α → Eval β} (hy : y.Ignores home x S Q)
    (hf : ∀ a, Q a → (f a).Ignores home x S R) : (y >>= f).Ignores home x S R := by
  intro m hm
  rw [bind_apply, bind_apply]
  have hboth := hy m hm
  generalize y m = o at hboth
  generalize y (m.without home x) = o' at hboth
  cases hboth with
  | done ha hm' => exact hf _ ha _ hm'
  | failed f m' => exact .failed f m'
  | unfinished => exact .unfinished

theorem ignores_update {f : Machine → α × Machine}
    (hf : ∀ m, f (m.without home x) = ((f m).1, (f m).2.without home x))
    (hQ : ∀ m, m.Oblivious home x S → Q (f m).1 ∧ (f m).2.Oblivious home x S) :
    (update f).Ignores home x S Q := by
  intro m hm
  obtain ⟨ha, hm'⟩ := hQ m hm
  have hboth : Outcome.Hides home x S Q (.done (f m).1 (f m).2)
      (.done (f m).1 ((f m).2.without home x)) := .done ha hm'
  show Outcome.Hides home x S Q (.done (f m).1 (f m).2)
    (.done (f (m.without home x)).1 (f (m.without home x)).2)
  rw [hf m]
  exact hboth

theorem ignores_newIdentity : newIdentity.Ignores home x S fun _ => True :=
  ignores_update (fun _ => rfl) fun _ hm => ⟨trivial, hm.of_sameScopes rfl⟩

theorem ignores_print (line : String) : (print line).Ignores home x S fun _ => True :=
  ignores_update (fun _ => rfl) fun _ hm => ⟨trivial, hm.of_sameScopes rfl⟩

theorem ignores_lookup {scope : ScopeId} (hscope : S scope) {y : String} (hy : y ≠ x) :
    (lookup scope y).Ignores home x S fun found =>
      ∀ v ∈ found, v.All (Resident S (Unaware x)) := by
  refine ignores_update (fun m => by rw [lookup_without hy]) fun m hm => ⟨fun v hv => ?_, hm⟩
  exact Confined.lookup hm hscope ((lookup_without hy m scope).trans hv)

theorem ignores_assign {scope : ScopeId} {y : String} {v : Value} (hy : y ≠ x)
    (hv : v.All (Resident S (Unaware x))) :
    (assign scope y v).Ignores home x S fun _ => True := by
  refine ignores_update (fun m => by rw [assign_without hy]) fun m hm => ⟨trivial, ?_⟩
  rw [Oblivious, ← assign_without hy]
  exact Confined.assign hm hv scope y

theorem ignores_openScope {outer : ScopeId} {bindings : List (String × Value)} (ho : S outer)
    (hx : ∀ b ∈ bindings, b.1 ≠ x) (hb : ∀ b ∈ bindings, b.2.All (Resident S (Unaware x))) :
    (openScope (some outer) bindings).Ignores home x S S := by
  refine ignores_update (fun m => openScope_without hx m (some outer)) fun m hm => ⟨?_, ?_⟩
  · exact hm.fresh m.scopes.size (Nat.le_of_eq (size_scopes_without m))
  · have hopened := Confined.openScope hm ho hb
    rw [openScope_without hx] at hopened
    exact hopened

theorem ignores_newArray {vs : List Value} (hvs : ∀ v ∈ vs, v.All (Resident S (Unaware x))) :
    (newArray vs).Ignores home x S (Value.All (Resident S (Unaware x))) :=
  ignores_newIdentity.bind fun _ _ =>
    ignores_pure (((lenient_unaware x).resident S).all_array hvs)

theorem ignores_newHash {h : Hash Value} (hh : h.All (Resident S (Unaware x))) :
    (newHash h).Ignores home x S (Value.All (Resident S (Unaware x))) :=
  ignores_newIdentity.bind fun _ _ => ignores_pure (all_resident_hash trivial hh)

theorem ignores_newFunction {c : Closure} (hscope : S c.scope) (hx : x ∉ c.names) :
    (newFunction c).Ignores home x S (Value.All (Resident S (Unaware x))) :=
  ignores_newIdentity.bind fun _ _ => ignores_pure (all_resident_function hx hscope)

end Eval

variable (home x S) in
/-- Nothing more is known of an oblivious machine, and code that mentions the name is not run. -/
def Logic.hiding : Logic Unit where
  Later _ _ := True
  Fit _ := Resident S (Unaware x)
  FitHash _ := Hash.All (Resident S (Unaware x))
  Place _ := S
  Usable y := y ≠ x
  Holds _ Q y := y.Ignores home x S (Q ())
  refl _ := trivial
  trans _ _ := trivial
  fit_mono _ hv := hv
  fitHash_mono _ hh := hh
  place_mono _ hscope := hscope
  plain _ := ((lenient_unaware x).resident S).plain
  fit_returned _ _ := resident_returned trivial
  fit_function hc := ⟨hc.2 _ _ rfl, List.forall_mem_ne'.mpr hc.1⟩
  fitHash_empty _ := Hash.all_empty
  fitHash_insert hh _ hkey hvalue := hh.insert hkey hvalue
  holds_pure ha := Eval.ignores_pure (ha () trivial)
  holds_fail := Eval.ignores_fail
  holds_unfinished _ _ := .unfinished
  holds_bind hy hf := hy.bind fun a ha => hf () a trivial ha
  holds_print := Eval.ignores_print
  holds_newArray := Eval.ignores_newArray
  holds_newHash := Eval.ignores_newHash
  holds_newFunction hscope hnames :=
    Eval.ignores_newFunction hscope (List.forall_mem_ne'.mp hnames)
  holds_lookup hscope hy := Eval.ignores_lookup hscope hy
  holds_assign _ := Eval.ignores_assign
  holds_openScope := Eval.ignores_openScope

/-- Where no function mentions the name, a program that does not mention it ignores the binding. -/
theorem Program.eval_ignores {p : Program} {scope : ScopeId} (depth : Nat) (hscope : S scope)
    (hx : x ∉ p.names) :
    (p.eval depth scope).Ignores home x S (Value.All (Resident S (Unaware x))) :=
  (Logic.hiding home x S).holds_program () depth hscope (List.forall_mem_ne'.mpr hx)

end Monkey
