import Monkey.Proofs.Course
import Monkey.Proofs.Ledger

/-!
Ledgers in the course of a run. Every activity begins in a machine with a ledger that continues that
of the activities around it, and is given listed values only.
-/

namespace Monkey

open Machine Value

variable {ledger longer : List Value}

/-- An action on listed values. -/
def Action.Listed (ledger : List Value) : Action → Prop
  | .pairs _ content _ | .newHash content => content.Listed ledger
  | a => ∀ v ∈ a.given, v.Listed ledger

theorem Action.Listed.given {a : Action} (h : a.Listed ledger) :
    ∀ v ∈ a.given, v.Listed ledger := by
  cases a with
  | pairs | newHash => exact forall_mem_contents.mpr h.contents
  | _ => exact h

namespace Activity

/-- An action on listed values in a machine with this ledger. -/
structure Ledgered (ledger : List Value) (a : Activity) : Prop where
  action : a.action.Listed ledger
  machine : a.machine.Ledgered ledger

variable {a b : Activity}

/-- The ledger of an activity is continued by its parts. -/
theorem Ledgered.part (h : a.Ledgered ledger) (hb : Part a b) :
    ∃ longer, ledger <+: longer ∧ b.Ledgered longer := by
  have heval : ∀ d, Evaluator.Recording (Expr.eval d) := Expr.eval_recording
  obtain ⟨haction, hm⟩ := h
  cases hb with
  | resolve | elements | operand | left | condition | callee | collection | first | key | bound
    | returned | expression | statement =>
    exact ⟨ledger, List.prefix_rfl, nofun, hm⟩
  | pairs => exact ⟨ledger, List.prefix_rfl, Hash.listed_empty ledger, hm⟩
  | right h | arguments h | position h | others h | value h _ =>
    obtain ⟨longer, hl, hm₁, -⟩ := (heval _ _ _ _).result hm h
    exact ⟨longer, hl, nofun, hm₁⟩
  | consequence h _ | alternative h _ =>
    obtain ⟨longer, hl, hm₁, -⟩ := (heval _ _ _ _).result hm h
    exact ⟨longer, hl, List.forall_mem_singleton.mpr (plain_entered longer).all_null, hm₁⟩
  | unary h | choose h | bind h | wrap h | file h =>
    obtain ⟨longer, hl, hm₁, hv⟩ := (heval _ _ _ _).result hm h
    exact ⟨longer, hl, List.forall_mem_singleton.mpr hv, hm₁⟩
  | binary h₁ h₂ | index h₁ h₂ =>
    obtain ⟨l₁, hl₁, hm₁, hv⟩ := (heval _ _ _ _).result hm h₁
    obtain ⟨l₂, hl₂, hm₂, hw⟩ := (heval _ _ _ _).result hm₁ h₂
    have hboth := List.forall_mem_cons.mpr ⟨hv.mono hl₂, List.forall_mem_singleton.mpr hw⟩
    exact ⟨l₂, hl₁.trans hl₂, hboth, hm₂⟩
  | newArray h =>
    obtain ⟨longer, hl, hm₁, hvs⟩ := ((heval _).expressions _ _).result hm h
    exact ⟨longer, hl, hvs, hm₁⟩
  | newHash h =>
    obtain ⟨longer, hl, hm₁, hcontent⟩ :=
      ((heval _).pairs _ _ (Hash.listed_empty ledger)).result hm h
    exact ⟨longer, hl, hcontent, hm₁⟩
  | call h₁ h₂ =>
    obtain ⟨l₁, hl₁, hm₁, hf⟩ := (heval _ _ _ _).result hm h₁
    obtain ⟨l₂, hl₂, hm₂, hvs⟩ := ((heval _).expressions _ _).result hm₁ h₂
    exact ⟨l₂, hl₁.trans hl₂, List.forall_mem_cons.mpr ⟨hf.mono hl₂, hvs⟩, hm₂⟩
  | otherPairs h₁ _ h₂ =>
    obtain ⟨l₁, hl₁, hm₁, hk⟩ := (heval _ _ _ _).result hm h₁
    obtain ⟨l₂, hl₂, hm₂, hv⟩ := (heval _ _ _ _).result hm₁ h₂
    have hcontent := Hash.Listed.mono haction (hl₁.trans hl₂)
    exact ⟨l₂, hl₁.trans hl₂, hcontent.insert (hk.mono hl₂) hv, hm₂⟩
  | statements h _ =>
    obtain ⟨longer, hl, hm₁, hv⟩ := ((heval _).statement _ _).result hm h
    exact ⟨longer, hl, List.forall_mem_singleton.mpr hv, hm₁⟩
  | body =>
    obtain ⟨-, hvs⟩ := List.forall_mem_cons.mp haction
    have hnull := List.forall_mem_singleton.mpr (plain_entered ledger).all_null
    exact ⟨ledger, List.prefix_rfl, hnull, hm.openScope (all_of_mem_zip hvs)⟩
  | builtin =>
    obtain ⟨-, hvs⟩ := List.forall_mem_cons.mp haction
    exact ⟨ledger, List.prefix_rfl, hvs, hm⟩

theorem Ledgered.within (h : a.Ledgered ledger) (hb : a.Within b) :
    ∃ longer, ledger <+: longer ∧ b.Ledgered longer := by
  induction hb with
  | self => exact ⟨ledger, List.prefix_rfl, h⟩
  | part _ hc ih =>
    obtain ⟨l₁, h₁, hb⟩ := ih
    obtain ⟨l₂, h₂, hc⟩ := hb.part hc
    exact ⟨l₂, h₁.trans h₂, hc⟩

theorem ledgered_ofProgram {m : Machine} (hm : m.Ledgered ledger) (depth : Nat) (scope : ScopeId)
    (p : Program) : (ofProgram depth scope p m).Ledgered ledger :=
  ⟨List.forall_mem_singleton.mpr (plain_entered ledger).all_null, hm⟩

end Activity

end Monkey
