import Monkey.Proofs.Identity
import Monkey.Proofs.WellFormedness

/-!
The ledger of a run: all values that were given an identity, in the order in which they were made,
so that the identity of a value is its place. No part of the machine is like it; that it can be kept
is what holds of identities. Every evaluation goes on with the ledger that it finds, and whatever it
gives or binds consists of values that are listed as they are.
-/

namespace Monkey

variable {ledger longer : List Value}

namespace Value

/-- In its place in the ledger, if it has an identity. -/
def Entered (ledger : List Value) (v : Value) : Prop :=
  (∀ id, v.identity? = some id → ledger[id]? = some v) ∧ v.Tidy

/-- A value all parts of which are in their places. -/
def Listed (ledger : List Value) (v : Value) : Prop := v.All (Entered ledger)

theorem plain_entered (ledger : List Value) : Plain (Entered ledger) where
  integer _ := ⟨nofun, trivial⟩
  string _ := ⟨nofun, trivial⟩
  boolean _ := ⟨nofun, trivial⟩
  null := ⟨nofun, trivial⟩
  builtin _ := ⟨nofun, trivial⟩

theorem Entered.mono {v : Value} (h : v.Entered ledger) (hl : ledger <+: longer) :
    v.Entered longer := by
  obtain ⟨entries, rfl⟩ := hl
  refine ⟨fun id hid => ?_, h.2⟩
  have hentry := h.1 id hid
  obtain ⟨hlt, -⟩ := List.getElem?_eq_some_iff.mp hentry
  rw [List.getElem?_append_left hlt]
  exact hentry

variable {v w : Value}

theorem Listed.mono (h : v.Listed ledger) (hl : ledger <+: longer) : v.Listed longer :=
  All.mono h fun _ hw => hw.mono hl

/-- Two listed values with one identity are one and the same. -/
theorem Listed.eq_of_identical {id : Identity} (hv : v.Listed ledger) (hw : w.Listed ledger)
    (hid : v.identity? = some id) (h : v.identical w = true) : v = w := by
  have hv' : ledger[id]? = some v := hv.self.1 id hid
  have hw' : ledger[id]? = some w := hw.self.1 id (identity?_of_identical hid h)
  exact Option.some.inj (hv'.symm.trans hw')

theorem Listed.equal_self (h : v.Listed ledger) : v.equal v = true :=
  Value.equal_self v (All.mono h fun _ hw => hw.2)

end Value

open Value

/-- The contents of a hash are listed, and its index fits them. -/
structure Hash.Listed (ledger : List Value) (h : Hash Value) : Prop where
  contents : h.All (Entered ledger)
  tidy : h.Tidy

namespace Hash

variable {h : Hash Value}

theorem listed_empty (ledger : List Value) : Hash.Listed ledger ∅ := ⟨all_empty, tidy_empty⟩

theorem Listed.mono (hh : h.Listed ledger) (hl : ledger <+: longer) : h.Listed longer where
  contents p hp :=
    ⟨Value.Listed.mono (hh.contents p hp).1 hl, Value.Listed.mono (hh.contents p hp).2 hl⟩
  tidy := hh.tidy

theorem Listed.insert {k : Key} {key value : Value} (hh : h.Listed ledger)
    (hkey : key.Listed ledger) (hvalue : value.Listed ledger) :
    (h.insert k (key, value)).Listed ledger :=
  ⟨hh.contents.insert hkey hvalue, hh.tidy.insert k (key, value)⟩

end Hash

namespace Machine

/-- A ledger for this machine: it is as long as there are identities given, and lists whatever is
bound. -/
structure Ledgered (ledger : List Value) (m : Machine) : Prop where
  length : ledger.length = m.nextIdentity
  bound : ∀ ⦃i : ScopeId⦄ ⦃s : Scope⦄ ⦃x : String⦄ ⦃v : Value⦄, m.scopes[i]? = some s →
    s.bindings.lookup x = some v → v.Listed ledger

variable {m m' : Machine}

theorem Ledgered.confined (hm : m.Ledgered ledger) :
    Confined (fun _ => True) (Entered ledger) m := confined_everywhere_iff.mpr hm.bound

theorem Ledgered.of_confined (h : Confined (fun _ => True) (Entered ledger) m)
    (hlength : ledger.length = m.nextIdentity) : m.Ledgered ledger :=
  ⟨hlength, confined_everywhere_iff.mp h⟩

theorem Ledgered.assign (hm : m.Ledgered ledger) {v : Value} (hv : v.Listed ledger)
    (scope : ScopeId) (x : String) : (m.assign scope x v).Ledgered ledger := by
  have hall : v.All (Resident (fun _ => True) (Entered ledger)) :=
    All.mono hv fun _ hw => ⟨hw, fun _ _ _ => trivial⟩
  exact .of_confined (hm.confined.assign hall scope x) hm.length

theorem Ledgered.openScope (hm : m.Ledgered ledger) {outer : ScopeId}
    {bindings : List (String × Value)} (hb : ∀ b ∈ bindings, b.2.Listed ledger) :
    (m.openScope (some outer) bindings).2.Ledgered ledger := by
  have hall : ∀ b ∈ bindings, b.2.All (Resident (fun _ => True) (Entered ledger)) :=
    fun b hmem => All.mono (hb b hmem) fun _ hw => ⟨hw, fun _ _ _ => trivial⟩
  exact .of_confined (hm.confined.openScope trivial hall) hm.length

theorem Ledgered.lookup (hm : m.Ledgered ledger) {scope : ScopeId} {x : String} {v : Value}
    (hv : m.lookup scope x = some v) : v.Listed ledger :=
  (hm.confined.lookup trivial hv).mono fun _ hw => hw.1

theorem ledgered_initial : initial.Ledgered [] := by
  refine ⟨rfl, fun i s x v hs hv => ?_⟩
  obtain rfl : s = ⟨[], none⟩ :=
    List.mem_singleton.mp (Array.mem_toList_iff.mpr (Array.mem_of_getElem? hs))
  cases hv

end Machine

open Machine

variable {α β : Type} {Q : List Value → α → Prop} {R : List Value → β → Prop}

/-- The machine at the end has a ledger that continues this one; a result has a property that may
depend on the ledger. -/
inductive Outcome.Records (ledger : List Value) (Q : List Value → α → Prop) : Outcome α → Prop
  | done {longer : List Value} {a : α} {m : Machine} (hl : ledger <+: longer)
      (hm : m.Ledgered longer) (ha : Q longer a) : Records ledger Q (.done a m)
  | failed {longer : List Value} {f : Fault} {m : Machine} (hl : ledger <+: longer)
      (hm : m.Ledgered longer) : Records ledger Q (.failed f m)
  | unfinished : Records ledger Q .unfinished

/-- The evaluation continues this ledger wherever it fits, and gives results with a property. -/
def Eval.Records (ledger : List Value) (Q : List Value → α → Prop) (x : Eval α) : Prop :=
  ∀ ⦃m : Machine⦄, m.Ledgered ledger → (x m).Records ledger Q

theorem Outcome.Records.mono {o : Outcome α} (h : o.Records longer Q) (hl : ledger <+: longer) :
    o.Records ledger Q := by
  cases h with
  | done hl' hm ha => exact .done (hl.trans hl') hm ha
  | failed hl' hm => exact .failed (hl.trans hl') hm
  | unfinished => exact .unfinished

namespace Eval

theorem records_pure {a : α} (ha : Q ledger a) : (pure a : Eval α).Records ledger Q :=
  fun _ hm => .done List.prefix_rfl hm ha

theorem records_fail (f : Fault) : (fail f : Eval α).Records ledger Q :=
  fun _ hm => .failed List.prefix_rfl hm

theorem records_ofExcept {r : Except Fault α} (hr : ∀ {a}, r = .ok a → Q ledger a) :
    (ofExcept r).Records ledger Q := by
  cases r with
  | ok a => exact records_pure (hr rfl)
  | error f => exact records_fail f

theorem Records.bind {x : Eval α} {f : α → Eval β} (hx : x.Records ledger Q)
    (hf : ∀ longer a, ledger <+: longer → Q longer a → (f a).Records longer R) :
    (x >>= f).Records ledger R := by
  intro m hm
  rw [bind_apply]
  have hxm := hx hm
  generalize x m = o at hxm
  cases hxm with
  | done hl hm' ha => exact (hf _ _ hl ha hm').mono hl
  | failed hl hm' => exact .failed hl hm'
  | unfinished => exact .unfinished

theorem Records.result {x : Eval α} {m m' : Machine} {a : α} (hx : x.Records ledger Q)
    (hm : m.Ledgered ledger) (h : x m = .done a m') :
    ∃ longer, ledger <+: longer ∧ m'.Ledgered longer ∧ Q longer a := by
  have hxm := hx hm
  rw [h] at hxm
  cases hxm with
  | done hl hm' ha => exact ⟨_, hl, hm', ha⟩

/-- What is made with a new identity is entered at the end of the ledger. -/
theorem records_make {make : Identity → Value}
    (hmake : ∀ longer, ledger <+: longer → longer[ledger.length]? = some (make ledger.length) →
      (make ledger.length).Listed longer) :
    (newIdentity >>= fun id => pure (make id)).Records ledger Value.Listed := by
  intro m hm
  have hl : ledger <+: ledger ++ [make ledger.length] := List.prefix_append _ _
  have hlisted := hmake _ hl List.getElem?_concat_length
  have hm' : m.newIdentity.2.Ledgered (ledger ++ [make ledger.length]) := by
    refine ⟨?_, fun i s x v hs hv => (hm.bound hs hv).mono hl⟩
    rw [List.length_append, hm.length]
    rfl
  show Outcome.Records ledger Value.Listed (.done (make m.nextIdentity) m.newIdentity.2)
  rw [← hm.length]
  exact .done hl hm' hlisted

theorem records_newArray {vs : List Value} (hvs : ∀ v ∈ vs, v.Listed ledger) :
    (newArray vs).Records ledger Value.Listed := by
  refine records_make fun longer hl hentry => all_array_iff.mpr ⟨⟨?_, trivial⟩, ?_⟩
  · intro id hid
    cases hid
    exact hentry
  · exact fun v hv => (hvs v hv).mono hl

theorem records_newHash {content : Hash Value} (h : content.Listed ledger) :
    (newHash content).Records ledger Value.Listed := by
  refine records_make fun longer hl hentry => all_hash_iff.mpr ⟨⟨?_, h.tidy⟩, ?_⟩
  · intro id hid
    cases hid
    exact hentry
  · exact (h.mono hl).contents

theorem records_newFunction (c : Closure) :
    (newFunction c).Records ledger Value.Listed := by
  refine records_make fun longer hl hentry => all_of_stored_eq_nil rfl ⟨?_, trivial⟩
  intro id hid
  cases hid
  exact hentry

theorem records_assign {scope : ScopeId} {x : String} {v : Value} (hv : v.Listed ledger) :
    (assign scope x v).Records ledger fun _ _ => True :=
  fun _ hm => .done List.prefix_rfl (hm.assign hv scope x) trivial

theorem records_openScope {outer : ScopeId} {bindings : List (String × Value)}
    (hb : ∀ b ∈ bindings, b.2.Listed ledger) :
    (openScope (some outer) bindings).Records ledger fun _ _ => True :=
  fun _ hm => .done List.prefix_rfl (hm.openScope hb) trivial

theorem records_print (line : String) : (print line).Records ledger fun _ _ => True :=
  fun _ hm => .done List.prefix_rfl ⟨hm.length, hm.bound⟩ trivial

theorem records_lookup (scope : ScopeId) (x : String) :
    (lookup scope x).Records ledger fun ledger found => ∀ v ∈ found, v.Listed ledger :=
  fun _ hm => .done List.prefix_rfl hm fun _ hv => hm.lookup hv

end Eval

/-- A ledger is known, which is continued. -/
def Logic.ledgers : Logic (List Value) where
  Later ledger longer := ledger <+: longer
  Fit := Entered
  FitHash := Hash.Listed
  Place _ _ := True
  Usable _ := True
  Holds ledger Q x := x.Records ledger Q
  refl _ := List.prefix_rfl
  trans := List.IsPrefix.trans
  fit_mono hl hv := hv.mono hl
  fitHash_mono hl hh := hh.mono hl
  place_mono _ _ := trivial
  plain := plain_entered
  fit_returned _ _ := ⟨nofun, trivial⟩
  fit_function _ := ⟨trivial, fun _ _ => trivial⟩
  fitHash_empty := Hash.listed_empty
  fitHash_insert hh _ hkey hvalue := hh.insert hkey hvalue
  holds_pure ha := Eval.records_pure (ha _ List.prefix_rfl)
  holds_fail := Eval.records_fail
  holds_unfinished _ := .unfinished
  holds_bind := Eval.Records.bind
  holds_print := Eval.records_print
  holds_newArray := Eval.records_newArray
  holds_newHash := Eval.records_newHash
  holds_newFunction _ _ := Eval.records_newFunction _
  holds_lookup _ _ := Eval.records_lookup _ _
  holds_assign _ _ hv := Eval.records_assign hv
  holds_openScope _ _ hb := Eval.records_openScope hb

theorem Name.resolve_records (x : Name) (scope : ScopeId) :
    (x.resolve scope).Records ledger Value.Listed :=
  Logic.ledgers.holds_resolve trivial trivial

theorem Builtin.call_records (b : Builtin) {args : List Value}
    (hargs : ∀ v ∈ args, v.Listed ledger) : (b.call args).Records ledger Value.Listed :=
  Logic.ledgers.holds_builtin hargs b

namespace Evaluator

/-- An evaluator that goes on with every ledger and gives listed values. -/
def Recording (eval : Evaluator) : Prop :=
  ∀ ledger scope e, (eval scope e).Records ledger Value.Listed

namespace Recording

variable {eval : Evaluator} (h : Recording eval)

include h

theorem judges : Logic.ledgers.Judges eval := fun ledger scope e _ _ => h ledger scope e

theorem expressions (scope : ScopeId) (es : List Expr) :
    (eval.expressions scope es).Records ledger fun ledger vs => ∀ v ∈ vs, v.Listed ledger :=
  h.judges.expressions trivial fun _ _ => trivial

theorem pairs (scope : ScopeId) (ps : List (Expr × Expr)) {content : Hash Value}
    (hcontent : content.Listed ledger) :
    (eval.pairs scope content ps).Records ledger Hash.Listed :=
  h.judges.pairs trivial hcontent fun _ _ => trivial

theorem statement (scope : ScopeId) (s : Stmt) :
    (eval.statement scope s).Records ledger Value.Listed :=
  h.judges.statement trivial fun _ _ => trivial

theorem statements (scope : ScopeId) (ss : List Stmt) {last : Value} (hlast : last.Listed ledger) :
    (eval.statements scope last ss).Records ledger Value.Listed :=
  h.judges.statements trivial hlast fun _ _ => trivial

theorem apply {callee : Value} {args : List Value} (hcallee : callee.Listed ledger)
    (hargs : ∀ v ∈ args, v.Listed ledger) :
    (eval.apply callee args).Records ledger Value.Listed :=
  h.judges.apply hcallee hargs

end Recording

end Evaluator

theorem Expr.eval_recording (depth : Nat) : Evaluator.Recording (Expr.eval depth) :=
  fun _ _ _ => Logic.ledgers.judges_eval depth trivial fun _ _ => trivial

theorem Program.eval_records (depth : Nat) (scope : ScopeId) (p : Program) :
    (p.eval depth scope).Records ledger Value.Listed :=
  Logic.ledgers.holds_program ledger depth trivial fun _ _ => trivial

theorem Outcome.Records.ledgered {o : Outcome α} {m : Machine} (h : o.Records ledger Q)
    (hm : o.EndsIn m) : ∃ longer, ledger <+: longer ∧ m.Ledgered longer := by
  cases h with
  | done hl hm' ha =>
    cases hm
    exact ⟨_, hl, hm'⟩
  | failed hl hm' =>
    cases hm
    exact ⟨_, hl, hm'⟩
  | unfinished => cases hm

/-- A text that is run continues the ledger, whatever becomes of it. -/
theorem ledgered_of_run {depth : Nat} {scope : ScopeId} {source : String} {m m' : Machine}
    {reply : Reply} (hm : m.Ledgered ledger) (h : run depth scope source m = some (reply, m')) :
    ∃ longer, ledger <+: longer ∧ m'.Ledgered longer := by
  rcases endsIn_of_run h with rfl | ⟨p, m₁, -, hends, rfl⟩
  · exact ⟨ledger, List.prefix_rfl, hm⟩
  · obtain ⟨longer, hl, hm₁⟩ := (p.eval_records depth scope hm).ledgered hends
    exact ⟨longer, hl, ⟨hm₁.length, hm₁.bound⟩⟩

namespace Machine

/-- The machines that the session can come to from this one. -/
inductive Later (m : Machine) : Machine → Prop
  | refl : Later m m
  | run {depth : Nat} {source : String} {m' m'' : Machine} {reply : Reply} (h : Later m m')
      (hrun : run depth globalScope source m' = some (reply, m'')) : Later m m''

variable {m m' : Machine}

theorem Later.ledgered (h : m.Later m') (hm : m.Ledgered ledger) :
    ∃ longer, ledger <+: longer ∧ m'.Ledgered longer := by
  induction h with
  | refl => exact ⟨ledger, List.prefix_rfl, hm⟩
  | run _ hrun ih =>
    obtain ⟨l₁, h₁, hm₁⟩ := ih
    obtain ⟨l₂, h₂, hm₂⟩ := ledgered_of_run hm₁ hrun
    exact ⟨l₂, h₁.trans h₂, hm₂⟩

theorem Reached.ledgered (h : m.Reached) : ∃ ledger, m.Ledgered ledger := by
  induction h with
  | initial => exact ⟨[], ledgered_initial⟩
  | run _ hrun ih =>
    obtain ⟨ledger, hm⟩ := ih
    obtain ⟨longer, -, hm'⟩ := ledgered_of_run hm hrun
    exact ⟨longer, hm'⟩

end Machine

end Monkey
