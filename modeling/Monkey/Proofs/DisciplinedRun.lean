import Monkey.Proofs.Activity
import Monkey.Proofs.CleanReturn

/-!
Runs of disciplined programs. Every activity within such a run is given clean values only, whether
they are bound, passed, stored, operated on or returned, and begins in a machine in which only clean
values are bound; so the run is the one that the reference semantics describes.
-/

namespace Monkey

open Machine Value Reference

namespace Action

/-- An action on disciplined code, in a scope of the set and with clean values. -/
def Proper (S : ScopeId → Prop) : Action → Prop
  | expression scope e => S scope ∧ ∃ whole, e.disciplined whole = true
  | expressions scope es => S scope ∧ Expr.allDisciplined es = true
  | pairs scope content ps => S scope ∧ Expr.pairsDisciplined ps = true ∧
      content.All (Resident S Disciplined)
  | statement scope s => S scope ∧ s.disciplined = true
  | statements scope last ss => S scope ∧ Stmt.allDisciplined ss = true ∧ last.Clean S
  | resolve scope _ => S scope
  | a => ∀ v ∈ a.given, v.Clean S

variable {S : ScopeId → Prop}

theorem Proper.given {a : Action} (h : a.Proper S) : ∀ v ∈ a.given, v.Clean S := by
  cases a with
  | expression | expressions | statement | resolve => exact nofun
  | pairs => exact forall_mem_contents.mpr h.2.2
  | statements => exact List.forall_mem_singleton.mpr h.2.2
  | _ => exact h

end Action

namespace Activity

open Monkey.Action

/-- A proper action begun in an orderly machine. -/
structure Proper (S : ScopeId → Prop) (a : Activity) : Prop where
  action : a.action.Proper S
  machine : Orderly S a.machine

variable {S : ScopeId → Prop}

variable {d : Nat} {scope : ScopeId} {m m' : Machine}

theorem clean_of_eval {e : Expr} {v : Value} (hscope : S scope) (he : e.disciplined false = true)
    (hm : Orderly S m) (h : e.eval d scope m = .done v m') : v.Clean S ∧ Orderly S m' :=
  ((faithful_eval S d).value hscope he).result hm h

theorem clean_of_expressions {es : List Expr} {vs : List Value} (hscope : S scope)
    (hes : Expr.allDisciplined es = true) (hm : Orderly S m)
    (h : Evaluator.expressions (Expr.eval d) scope es m = .done vs m') :
    (∀ v ∈ vs, v.Clean S) ∧ Orderly S m' :=
  ((faithful_eval S d).expressions hscope hes).result hm h

theorem clean_of_pairs {ps : List (Expr × Expr)} {content : Hash Value} (hscope : S scope)
    (hps : Expr.pairsDisciplined ps = true) (hm : Orderly S m)
    (h : Evaluator.pairs (Expr.eval d) scope ∅ ps m = .done content m') :
    content.All (Resident S Disciplined) ∧ Orderly S m' :=
  ((faithful_eval S d).pairs hscope Hash.all_empty hps).result hm h

theorem Proper.part_of_expression {e : Expr} {a : Activity}
    (h : Proper S ⟨d, .expression scope e, m⟩) (ha : Part ⟨d, .expression scope e, m⟩ a) :
    a.Proper S := by
  obtain ⟨⟨hscope, whole, he⟩, hm⟩ := h
  cases e with
  | integer | string | boolean | function => cases ha
  | name x =>
    cases ha with
    | resolve => exact ⟨hscope, hm⟩
  | array t elements =>
    cases ha with
    | elements => exact ⟨⟨hscope, he⟩, hm⟩
    | newArray hdone =>
      obtain ⟨hvs, hm₁⟩ := clean_of_expressions hscope he hm hdone
      exact ⟨hvs, hm₁⟩
  | hash t ps =>
    cases ha with
    | pairs => exact ⟨⟨hscope, he, Hash.all_empty⟩, hm⟩
    | newHash hdone =>
      obtain ⟨hcontent, hm₁⟩ := clean_of_pairs hscope he hm hdone
      exact ⟨forall_mem_contents.mpr hcontent, hm₁⟩
  | unary t op operand =>
    cases ha with
    | operand => exact ⟨⟨hscope, false, he⟩, hm⟩
    | unary hdone =>
      obtain ⟨hv, hm₁⟩ := clean_of_eval hscope he hm hdone
      exact ⟨List.forall_mem_singleton.mpr hv, hm₁⟩
  | binary t op left right =>
    obtain ⟨hleft, hright⟩ := Bool.and_eq_true_iff.mp he
    cases ha with
    | left => exact ⟨⟨hscope, false, hleft⟩, hm⟩
    | right hdone =>
      obtain ⟨-, hm₁⟩ := clean_of_eval hscope hleft hm hdone
      exact ⟨⟨hscope, false, hright⟩, hm₁⟩
    | binary hdone₁ hdone₂ =>
      obtain ⟨hv, hm₁⟩ := clean_of_eval hscope hleft hm hdone₁
      obtain ⟨hw, hm₂⟩ := clean_of_eval hscope hright hm₁ hdone₂
      exact ⟨List.forall_mem_cons.mpr ⟨hv, List.forall_mem_singleton.mpr hw⟩, hm₂⟩
  | cond t condition consequence alternative =>
    obtain ⟨hcondition, hconsequence, halternative⟩ := Expr.disciplined_of_cond he
    have hnull : Value.null.Clean S := (lenient_clean S).all_null
    cases ha with
    | condition => exact ⟨⟨hscope, false, hcondition⟩, hm⟩
    | choose hdone =>
      obtain ⟨hv, hm₁⟩ := clean_of_eval hscope hcondition hm hdone
      exact ⟨List.forall_mem_singleton.mpr hv, hm₁⟩
    | consequence hdone _ =>
      obtain ⟨-, hm₁⟩ := clean_of_eval hscope hcondition hm hdone
      rw [Block.disciplined_eq] at hconsequence
      exact ⟨⟨hscope, hconsequence, hnull⟩, hm₁⟩
    | alternative hdone _ =>
      obtain ⟨-, hm₁⟩ := clean_of_eval hscope hcondition hm hdone
      have hblock := halternative _ rfl
      rw [Block.disciplined_eq] at hblock
      exact ⟨⟨hscope, hblock, hnull⟩, hm₁⟩
  | call t callee arguments =>
    obtain ⟨hcallee, harguments⟩ := Bool.and_eq_true_iff.mp he
    cases ha with
    | callee => exact ⟨⟨hscope, false, hcallee⟩, hm⟩
    | arguments hdone =>
      obtain ⟨-, hm₁⟩ := clean_of_eval hscope hcallee hm hdone
      exact ⟨⟨hscope, harguments⟩, hm₁⟩
    | call hdone₁ hdone₂ =>
      obtain ⟨hf, hm₁⟩ := clean_of_eval hscope hcallee hm hdone₁
      obtain ⟨hvs, hm₂⟩ := clean_of_expressions hscope harguments hm₁ hdone₂
      exact ⟨List.forall_mem_cons.mpr ⟨hf, hvs⟩, hm₂⟩
  | index t collection position =>
    obtain ⟨hcollection, hposition⟩ := Bool.and_eq_true_iff.mp he
    cases ha with
    | collection => exact ⟨⟨hscope, false, hcollection⟩, hm⟩
    | position hdone =>
      obtain ⟨-, hm₁⟩ := clean_of_eval hscope hcollection hm hdone
      exact ⟨⟨hscope, false, hposition⟩, hm₁⟩
    | index hdone₁ hdone₂ =>
      obtain ⟨hv, hm₁⟩ := clean_of_eval hscope hcollection hm hdone₁
      obtain ⟨hw, hm₂⟩ := clean_of_eval hscope hposition hm₁ hdone₂
      exact ⟨List.forall_mem_cons.mpr ⟨hv, List.forall_mem_singleton.mpr hw⟩, hm₂⟩

theorem Proper.part_of_expressions {es : List Expr} {a : Activity}
    (h : Proper S ⟨d, .expressions scope es, m⟩) (ha : Part ⟨d, .expressions scope es, m⟩ a) :
    a.Proper S := by
  obtain ⟨⟨hscope, hes⟩, hm⟩ := h
  cases es with
  | nil => cases ha
  | cons e es =>
    obtain ⟨he, hes⟩ := Bool.and_eq_true_iff.mp hes
    cases ha with
    | first => exact ⟨⟨hscope, false, he⟩, hm⟩
    | others hdone =>
      obtain ⟨-, hm₁⟩ := clean_of_eval hscope he hm hdone
      exact ⟨⟨hscope, hes⟩, hm₁⟩

theorem Proper.part_of_pairs {content : Hash Value} {ps : List (Expr × Expr)} {a : Activity}
    (h : Proper S ⟨d, .pairs scope content ps, m⟩) (ha : Part ⟨d, .pairs scope content ps, m⟩ a) :
    a.Proper S := by
  obtain ⟨⟨hscope, hps, hcontent⟩, hm⟩ := h
  cases ps with
  | nil => cases ha
  | cons p ps =>
    obtain ⟨key, value⟩ := p
    obtain ⟨hp, hps⟩ := Bool.and_eq_true_iff.mp hps
    obtain ⟨hkey, hvalue⟩ := Bool.and_eq_true_iff.mp hp
    cases ha with
    | key => exact ⟨⟨hscope, false, hkey⟩, hm⟩
    | file hdone =>
      obtain ⟨hk, hm₁⟩ := clean_of_eval hscope hkey hm hdone
      exact ⟨List.forall_mem_singleton.mpr hk, hm₁⟩
    | value hdone _ =>
      obtain ⟨-, hm₁⟩ := clean_of_eval hscope hkey hm hdone
      exact ⟨⟨hscope, false, hvalue⟩, hm₁⟩
    | otherPairs hdone₁ _ hdone₂ =>
      obtain ⟨hk, hm₁⟩ := clean_of_eval hscope hkey hm hdone₁
      obtain ⟨hv, hm₂⟩ := clean_of_eval hscope hvalue hm₁ hdone₂
      exact ⟨⟨hscope, hps, hcontent.insert hk hv⟩, hm₂⟩

theorem Proper.part_of_statement {s : Stmt} {a : Activity}
    (h : Proper S ⟨d, .statement scope s, m⟩) (ha : Part ⟨d, .statement scope s, m⟩ a) :
    a.Proper S := by
  obtain ⟨⟨hscope, hs⟩, hm⟩ := h
  cases ha with
  | bound | returned => exact ⟨⟨hscope, false, hs⟩, hm⟩
  | bind hdone | wrap hdone =>
    obtain ⟨hv, hm₁⟩ := clean_of_eval hscope hs hm hdone
    exact ⟨List.forall_mem_singleton.mpr hv, hm₁⟩
  | expression => exact ⟨⟨hscope, true, hs⟩, hm⟩

theorem Proper.part_of_statements {last : Value} {ss : List Stmt} {a : Activity}
    (h : Proper S ⟨d, .statements scope last ss, m⟩)
    (ha : Part ⟨d, .statements scope last ss, m⟩ a) : a.Proper S := by
  obtain ⟨⟨hscope, hss, -⟩, hm⟩ := h
  cases ss with
  | nil => cases ha
  | cons s ss =>
    obtain ⟨hs, hss⟩ := Bool.and_eq_true_iff.mp hss
    cases ha with
    | statement => exact ⟨⟨hscope, hs⟩, hm⟩
    | statements hdone hv =>
      obtain ⟨hhanded, hm₁⟩ := ((faithful_eval S d).statement hscope hs).result hm hdone
      rcases hhanded with hclean | ⟨-, w, heq, -⟩
      · exact ⟨⟨hscope, hss, hclean⟩, hm₁⟩
      · exact absurd heq (hv w)

theorem Proper.part_of_call {f : Value} {vs : List Value} {a : Activity}
    (h : Proper S ⟨d, .call f vs, m⟩) (ha : Part ⟨d, .call f vs, m⟩ a) : a.Proper S := by
  obtain ⟨hgiven, hm⟩ := h
  obtain ⟨hf, hvs⟩ := List.forall_mem_cons.mp hgiven
  cases ha with
  | @body _ _ _ id c =>
    obtain ⟨hbody, hmade⟩ := hf.self
    have hss : Stmt.allDisciplined c.body.statements = true := c.body.disciplined_eq ▸ hbody
    have hnew : S m.scopes.size := hm.fresh _ (Nat.le_refl _)
    have hcaptured : S c.scope := hmade id c rfl
    refine ⟨⟨hnew, hss, (lenient_clean S).all_null⟩, ?_⟩
    exact hm.openScope hcaptured (all_of_mem_zip hvs)
  | builtin => exact ⟨hvs, hm⟩

/-- The parts of a proper activity are proper. -/
theorem Proper.part {a b : Activity} (h : a.Proper S) (hb : Part a b) : b.Proper S := by
  obtain ⟨d, action, m⟩ := a
  cases action with
  | expression => exact h.part_of_expression hb
  | expressions => exact h.part_of_expressions hb
  | pairs => exact h.part_of_pairs hb
  | statement => exact h.part_of_statement hb
  | statements => exact h.part_of_statements hb
  | call => exact h.part_of_call hb
  | _ => cases hb

theorem Proper.within {a b : Activity} (h : a.Proper S) (hb : Within a b) : b.Proper S :=
  hb.induct Proper.part h

end Activity

/-- Nothing in a value is on its way out of a call. -/
def Value.Settled (v : Value) : Prop := v.All fun w => w.kind ≠ .returned

/-- Whatever is bound in the second machine, in a scope that was reachable in the first or is newer,
is settled. -/
def Machine.Settles (m : Machine) (scope : ScopeId) (m' : Machine) : Prop :=
  ∀ i s x v, m.Ahead scope i → m'.scopes[i]? = some s → s.bindings.lookup x = some v → v.Settled

theorem Value.Clean.settled {S : ScopeId → Prop} {v : Value} (h : v.Clean S) : v.Settled := by
  refine h.mono fun w hw => ?_
  cases w with
  | returned u => exact absurd hw.1 id
  | _ => exact nofun

theorem Machine.Confined.settles {m m' : Machine} {scope : ScopeId}
    (h : Orderly (m.Ahead scope) m') : m.Settles scope m' := by
  intro i s x v hi hs hv
  have hclean : v.Clean (m.Ahead scope) := h.bound hi hs hv
  exact hclean.settled

/-- A disciplined program gives clean results and does what the reference semantics says. -/
theorem tracks_program {S : ScopeId → Prop} {scope : ScopeId} {p : Program} (depth : Nat)
    (hscope : S scope) (hp : p.disciplined = true) :
    Tracks (Orderly S) (Clean S) .ok (p.eval depth scope)
      (ExceptT.lift (Reference.program depth scope p)) :=
  ((faithful_eval S depth).statements hscope hp (lenient_clean S).all_null).catchReturn

/-- A disciplined program, run where everything reachable is disciplined, has the outcome of the
reference semantics; in its course nothing that is on its way out of a call is bound, passed,
stored, operated on or returned, and none is in its result. -/
theorem disciplined_return (depth : Nat) (scope : ScopeId) (p : Program) (m : Machine)
    (hp : p.disciplined = true) (hreachable : ∀ v, m.ReachableValue scope v → v.Disciplined) :
    p.eval depth scope m = Reference.program depth scope p m ∧
    (∀ a, (Activity.ofProgram depth scope p m).Within a →
      (∀ v ∈ a.action.given, v.Settled) ∧ m.Settles scope a.machine) ∧
    (∀ m', (p.eval depth scope m).EndsIn m' → m.Settles scope m') ∧
    ∀ v m', p.eval depth scope m = .done v m' → v.Settled := by
  have hm : Orderly (m.Ahead scope) m := confined_ahead hreachable
  have hscope : m.Ahead scope scope := .inl .self
  have htracks := tracks_program depth hscope hp
  refine ⟨htracks.eq_of_lift hm, ?_, ?_, ?_⟩
  · intro a ha
    have hall : (Activity.ofProgram depth scope p m).Proper (m.Ahead scope) :=
      ⟨⟨hscope, hp, (lenient_clean _).all_null⟩, hm⟩
    obtain ⟨haction, hmachine⟩ := hall.within ha
    exact ⟨fun v hv => (haction.given v hv).settled, hmachine.settles⟩
  · intro m' hends
    have hm' : Orderly (m.Ahead scope) m' := htracks.leads hends hm
    exact hm'.settles
  · intro v m' hdone
    exact (htracks.result hm hdone).1.settled

/-- The program `fn() { if (true) { return 1; } 2 }()` in a new machine. -/
theorem disciplined_return_early : ∃ p : Program, ∃ m' : Machine,
    p.eval 5 0 initial = .done (.integer 1) m' ∧
    p.eval 5 0 initial = Reference.program 5 0 p initial ∧ initial.Settles 0 m' := by
  let t := Token.endOfInput 0
  let early : Expr := .cond t (.boolean t true) (.mk t [.return t (.integer t 1)]) none
  let body : Block := .mk t [.expr t early, .expr t (.integer t 2)]
  let p : Program := ⟨[.expr t (.call t (.function t [] body) [])]⟩
  have h := disciplined_return 5 0 p initial rfl fun v hv =>
    absurd hv (not_reachableValue_initial 0 v)
  exact ⟨p, _, rfl, h.1, h.2.2.1 _ (.of_done rfl)⟩

end Monkey
