import Monkey.Proofs.Contents
import Monkey.Proofs.Mention

/-!
Logics of evaluations. Of a machine something is known, and a judgement on an evaluation says what
will be known of its result, where more may be known then than at first. A logic has a rule for each
single step of the machine and one for sequences. That is enough for every evaluation: the rules of
the language are gone through once, for all logics.
-/

namespace Monkey

open Value

/-- A logic of evaluations, where `W` is what can be known of a machine. -/
structure Logic (W : Type) where
  Later : W → W → Prop
  /-- What is true of all values that there are, and of what is stored in them. -/
  Fit : W → Value → Prop
  /-- What is true of a hash while pairs are added to it. -/
  FitHash : W → Hash Value → Prop
  /-- The scopes that something may be evaluated in. -/
  Place : W → ScopeId → Prop
  /-- The names that code may mention. -/
  Usable : String → Prop
  /-- The evaluation conforms to what is known, and its result has a property that may depend on
  what is known then. -/
  Holds {α : Type} : W → (W → α → Prop) → Eval α → Prop
  -- More may come to be known, and what was true stays true then.
  refl (w : W) : Later w w
  trans {w₁ w₂ w₃ : W} : Later w₁ w₂ → Later w₂ w₃ → Later w₁ w₃
  fit_mono {w w' : W} {v : Value} : Later w w' → Fit w v → Fit w' v
  fitHash_mono {w w' : W} {h : Hash Value} : Later w w' → FitHash w h → FitHash w' h
  place_mono {w w' : W} {scope : ScopeId} : Later w w' → Place w scope → Place w' scope
  -- Values that are made without looking at the machine, and what a function gives access to.
  plain (w : W) : Plain (Fit w)
  fit_returned (w : W) (v : Value) : Fit w (.returned v)
  fit_function {w : W} {id : Identity} {c : Closure} :
    Fit w (.function id c) → Place w c.scope ∧ ∀ y ∈ c.names, Usable y
  fitHash_empty (w : W) : FitHash w ∅
  fitHash_insert {w : W} {h : Hash Value} {filed : Key} {k v : Value} :
    FitHash w h → k.key? = some filed → k.All (Fit w) → v.All (Fit w) →
      FitHash w (h.insert filed (k, v))
  -- The rules for sequences and for the single steps of the machine.
  holds_pure {α : Type} {w : W} {Q : W → α → Prop} {a : α} :
    (∀ w', Later w w' → Q w' a) → Holds w Q (pure a)
  holds_fail {α : Type} {w : W} {Q : W → α → Prop} (f : Fault) : Holds w Q (.fail f)
  holds_unfinished {α : Type} {w : W} {Q : W → α → Prop} : Holds w Q .unfinished
  holds_bind {α β : Type} {w : W} {Q : W → α → Prop} {R : W → β → Prop} {x : Eval α}
    {f : α → Eval β} : Holds w Q x → (∀ w' a, Later w w' → Q w' a → Holds w' R (f a)) →
      Holds w R (x >>= f)
  holds_print {w : W} (line : String) : Holds w (fun _ _ => True) (.print line)
  holds_newArray {w : W} {vs : List Value} :
    (∀ v ∈ vs, v.All (Fit w)) → Holds w (fun w v => v.All (Fit w)) (.newArray vs)
  holds_newHash {w : W} {h : Hash Value} :
    FitHash w h → Holds w (fun w v => v.All (Fit w)) (.newHash h)
  holds_newFunction {w : W} {c : Closure} : Place w c.scope → (∀ y ∈ c.names, Usable y) →
    Holds w (fun w v => v.All (Fit w)) (.newFunction c)
  holds_lookup {w : W} {scope : ScopeId} {y : String} : Place w scope → Usable y →
    Holds w (fun w found => ∀ v ∈ found, v.All (Fit w)) (.lookup scope y)
  holds_assign {w : W} {scope : ScopeId} {y : String} {v : Value} : Place w scope → Usable y →
    v.All (Fit w) → Holds w (fun _ _ => True) (.assign scope y v)
  holds_openScope {w : W} {outer : ScopeId} {bindings : List (String × Value)} :
    Place w outer → (∀ b ∈ bindings, Usable b.1) → (∀ b ∈ bindings, b.2.All (Fit w)) →
      Holds w Place (.openScope (some outer) bindings)

namespace Logic

variable {W : Type} (L : Logic W)

/-- A value all parts of which are fit. -/
def Good (w : W) (v : Value) : Prop := v.All (L.Fit w)

variable {L} {w w' : W} {v : Value}

theorem Good.mono (h : L.Good w v) (hl : L.Later w w') : L.Good w' v :=
  All.mono h fun _ hu => L.fit_mono hl hu

theorem Good.returned (h : L.Good w v) : L.Good w (.returned v) :=
  all_returned_iff.mpr ⟨L.fit_returned w v, h⟩

theorem Good.unwrap (h : L.Good w v) : L.Good w v.unwrap := by
  cases v with
  | returned u => exact (all_returned_iff.mp h).2
  | _ => exact h

variable (L)

theorem holds_ofExcept {α : Type} {Q : W → α → Prop} {r : Except Fault α}
    (hr : ∀ {a}, r = .ok a → ∀ w', L.Later w w' → Q w' a) : L.Holds w Q (.ofExcept r) := by
  cases r with
  | ok a => exact L.holds_pure (hr rfl)
  | error f => exact L.holds_fail f

/-- An operation the results of which are good whatever is known. -/
theorem holds_operation {r : Except Fault Value} (hr : ∀ {v w'}, r = .ok v → L.Good w' v) :
    L.Holds w L.Good (.ofExcept r) := L.holds_ofExcept fun hv _ _ => hr hv

theorem holds_resolve {scope : ScopeId} (hscope : L.Place w scope) {x : Name}
    (hx : L.Usable x.text) : L.Holds w L.Good (x.resolve scope) := by
  refine L.holds_bind (L.holds_lookup hscope hx) fun w₁ found _ hfound => ?_
  cases found with
  | some v =>
    have hv : L.Good w₁ v := hfound v rfl
    exact L.holds_pure fun _ hl => hv.mono hl
  | none =>
    cases Builtin.ofName? x.text with
    | some b => exact L.holds_pure fun w₂ _ => (L.plain w₂).all_builtin b
    | none => exact L.holds_fail _

section

variable {args : List Value} (hargs : ∀ v ∈ args, L.Good w v)

theorem holds_printAll (vs : List Value) : L.Holds w (fun _ _ => True) (Builtin.printAll vs) := by
  induction vs generalizing w with
  | nil => exact L.holds_pure fun _ _ => trivial
  | cons v vs ih => exact L.holds_bind (L.holds_print v.inspect) fun _ _ _ _ => ih

include hargs

theorem holds_elements (b : Builtin) :
    L.Holds w (fun w vs => ∀ v ∈ vs, L.Good w v)
      (.ofExcept (Builtin.single args >>= Builtin.elements b)) := by
  refine L.holds_ofExcept fun hvs _ hl v hv => ?_
  have hgood : L.Good w v := Builtin.all_of_single_elements hargs hvs v hv
  exact hgood.mono hl

theorem holds_builtin (b : Builtin) : L.Holds w L.Good (b.call args) := by
  cases b with
  | len =>
    refine L.holds_operation fun {v w₁} hlen => ?_
    unfold Builtin.single at hlen
    split at hlen
    · exact Builtin.all_of_length (L.plain w₁) hlen
    · cases hlen
  | first =>
    refine L.holds_bind (L.holds_elements hargs .first) fun w₁ vs _ hvs => ?_
    have hfound : L.Good w₁ (vs.head?.getD .null) :=
      (L.plain w₁).all_getD fun v hv => hvs v (List.mem_of_head? hv)
    exact L.holds_pure fun _ hl => hfound.mono hl
  | last =>
    refine L.holds_bind (L.holds_elements hargs .last) fun w₁ vs _ hvs => ?_
    have hfound : L.Good w₁ (vs.getLast?.getD .null) :=
      (L.plain w₁).all_getD fun v hv => hvs v (List.mem_of_getLast? hv)
    exact L.holds_pure fun _ hl => hfound.mono hl
  | rest =>
    refine L.holds_bind (L.holds_elements hargs .rest) fun w₁ vs _ hvs => ?_
    cases vs with
    | nil => exact L.holds_pure fun w₂ _ => (L.plain w₂).all_null
    | cons v vs => exact L.holds_newArray fun u hu => hvs u (List.mem_cons_of_mem v hu)
  | push =>
    simp only [Builtin.call]
    split
    · next array v =>
      obtain ⟨harray, hv⟩ := List.forall_mem_cons.mp hargs
      have helements : L.Holds w (fun w vs => ∀ v ∈ vs, L.Good w v)
          (.ofExcept (Builtin.elements .push array)) := by
        refine L.holds_ofExcept fun hvs _ hl u hu => ?_
        have hgood : L.Good w u := Builtin.all_of_elements harray hvs u hu
        exact hgood.mono hl
      refine L.holds_bind helements fun w₁ vs hl hvs => L.holds_newArray fun u hu => ?_
      rcases List.mem_append.mp hu with hu | hu
      · exact hvs u hu
      · exact (hv u hu : L.Good w u).mono hl
    · exact L.holds_fail _
  | puts =>
    refine L.holds_bind (L.holds_printAll args) fun _ _ _ _ => ?_
    exact L.holds_pure fun w₁ _ => (L.plain w₁).all_null

end

/-- An evaluator that gives good values, for code that mentions usable names only. -/
def Judges (eval : Evaluator) : Prop := ∀ ⦃w : W⦄ ⦃scope : ScopeId⦄ ⦃e : Expr⦄, L.Place w scope →
  (∀ y ∈ e.names, L.Usable y) → L.Holds w L.Good (eval scope e)

variable {L}

namespace Judges

variable {eval : Evaluator} (h : L.Judges eval) {scope : ScopeId} (hscope : L.Place w scope)

include h hscope

theorem expressions {es : List Expr} (hes : ∀ y ∈ Expr.allNames es, L.Usable y) :
    L.Holds w (fun w vs => ∀ v ∈ vs, L.Good w v) (eval.expressions scope es) := by
  induction es generalizing w with
  | nil => exact L.holds_pure fun _ _ => nofun
  | cons e es ih =>
    obtain ⟨he, hes⟩ := List.forall_mem_append.mp hes
    refine L.holds_bind (h hscope he) fun w₁ v h₁ hv => ?_
    refine L.holds_bind (ih (L.place_mono h₁ hscope) hes) fun w₂ vs h₂ hvs => ?_
    refine L.holds_pure fun w₃ h₃ => List.forall_mem_cons.mpr ⟨?_, fun u hu => (hvs u hu).mono h₃⟩
    exact hv.mono (L.trans h₂ h₃)

theorem pairs {ps : List (Expr × Expr)} {content : Hash Value} (hcontent : L.FitHash w content)
    (hps : ∀ y ∈ Expr.pairNames ps, L.Usable y) :
    L.Holds w L.FitHash (eval.pairs scope content ps) := by
  induction ps generalizing w content with
  | nil => exact L.holds_pure fun _ hl => L.fitHash_mono hl hcontent
  | cons p ps ih =>
    obtain ⟨key, value⟩ := p
    obtain ⟨hkey, hps⟩ := List.forall_mem_append.mp hps
    obtain ⟨hvalue, hps⟩ := List.forall_mem_append.mp hps
    refine L.holds_bind (h hscope hkey) fun w₁ k h₁ hk => ?_
    have hscope₁ : L.Place w₁ scope := L.place_mono h₁ hscope
    cases hfiled : k.key? with
    | none => exact L.holds_fail _
    | some filed =>
      refine L.holds_bind (h hscope₁ hvalue) fun w₂ v h₂ hv => ?_
      have hcontent' := L.fitHash_mono (L.trans h₁ h₂) hcontent
      have hinsert := L.fitHash_insert hcontent' hfiled (hk.mono h₂) hv
      exact ih (L.place_mono h₂ hscope₁) hinsert hps

theorem statement {s : Stmt} (hs : ∀ y ∈ s.names, L.Usable y) :
    L.Holds w L.Good (eval.statement scope s) := by
  cases s with
  | bind t x e =>
    obtain ⟨hx, he⟩ := List.forall_mem_cons.mp hs
    refine L.holds_bind (h hscope he) fun w₁ v h₁ hv => ?_
    refine L.holds_bind (L.holds_assign (L.place_mono h₁ hscope) hx hv) fun w₂ _ h₂ _ => ?_
    exact L.holds_pure fun _ h₃ => hv.mono (L.trans h₂ h₃)
  | «return» t e =>
    refine L.holds_bind (h hscope hs) fun w₁ v _ hv => ?_
    exact L.holds_pure fun _ hl => (hv.mono hl).returned
  | expr t e => exact h hscope hs

theorem statements {ss : List Stmt} {last : Value} (hlast : L.Good w last)
    (hss : ∀ y ∈ Stmt.allNames ss, L.Usable y) :
    L.Holds w L.Good (eval.statements scope last ss) := by
  induction ss generalizing w last with
  | nil => exact L.holds_pure fun _ hl => hlast.mono hl
  | cons s ss ih =>
    obtain ⟨hs, hss⟩ := List.forall_mem_append.mp hss
    refine L.holds_bind (h.statement hscope hs) fun w₁ v h₁ hv => ?_
    split
    · exact L.holds_pure fun _ hl => hv.mono hl
    · exact ih (L.place_mono h₁ hscope) hv hss

theorem block {b : Block} (hb : ∀ y ∈ b.names, L.Usable y) :
    L.Holds w L.Good (eval.block scope b) := by
  rw [b.names_eq] at hb
  exact h.statements hscope (L.plain w).all_null hb

omit hscope in
theorem apply {callee : Value} {args : List Value} (hcallee : L.Good w callee)
    (hargs : ∀ v ∈ args, L.Good w v) : L.Holds w L.Good (eval.apply callee args) := by
  cases callee with
  | function id c =>
    obtain ⟨hmade, hnames⟩ := L.fit_function hcallee.self
    obtain ⟨hparameters, hbody⟩ := List.forall_mem_append.mp hnames
    have hbound : ∀ b ∈ ((c.parameters.map Name.text).zip args).reverse, L.Usable b.1 :=
      fun b hb => hparameters b.1 (List.of_mem_zip (List.mem_reverse.mp hb)).1
    have hopen := L.holds_openScope hmade hbound (all_of_mem_zip hargs)
    refine L.holds_bind hopen fun w₁ scope _ hscope => ?_
    refine L.holds_bind (h.block hscope hbody) fun w₂ v _ hv => ?_
    exact L.holds_pure fun _ hl => (hv.mono hl).unwrap
  | builtin b => exact L.holds_builtin hargs b
  | _ => exact L.holds_fail _

end Judges

/-- A logic that judges the evaluator for the level below judges one layer of evaluation. -/
theorem Judges.layer {eval : Evaluator} (h : L.Judges eval) : L.Judges eval.layer := by
  intro w scope e hscope he
  have hmono : ∀ {w'}, L.Later w w' → L.Place w' scope := fun hl => L.place_mono hl hscope
  cases e with
  | name x => exact L.holds_resolve hscope (he _ List.mem_cons_self)
  | integer t n => exact L.holds_pure fun w₁ _ => (L.plain w₁).all_integer n
  | string t => exact L.holds_pure fun w₁ _ => (L.plain w₁).all_string _
  | boolean t b => exact L.holds_pure fun w₁ _ => (L.plain w₁).all_boolean b
  | function t parameters body => exact L.holds_newFunction hscope he
  | array t elements =>
    exact L.holds_bind (h.expressions hscope he) fun _ vs _ hvs => L.holds_newArray hvs
  | hash t ps =>
    exact L.holds_bind (h.pairs hscope (L.fitHash_empty w) he) fun _ content _ hcontent =>
      L.holds_newHash hcontent
  | unary t op operand =>
    have hoperand : ∀ y ∈ operand.names, L.Usable y := he
    refine L.holds_bind (h hscope hoperand) fun w₁ v _ _ => ?_
    exact L.holds_operation fun hu => UnaryOp.all_of_apply (L.plain _) hu
  | binary t op left right =>
    obtain ⟨hleft, hright⟩ := List.forall_mem_append.mp he
    refine L.holds_bind (h hscope hleft) fun w₁ v h₁ _ => ?_
    refine L.holds_bind (h (hmono h₁) hright) fun w₂ u _ _ => ?_
    exact L.holds_operation fun hr => BinaryOp.all_of_apply (L.plain _) hr
  | cond t condition consequence alternative =>
    obtain ⟨hcondition, hconsequence, halternative⟩ := Expr.forall_mem_names_cond_iff.mp he
    rw [Evaluator.layer_cond]
    refine L.holds_bind (h hscope hcondition) fun w₁ v h₁ _ => ?_
    split
    · exact h.block (hmono h₁) hconsequence
    · cases alternative with
      | none => exact L.holds_pure fun w₂ _ => (L.plain w₂).all_null
      | some b => exact h.block (hmono h₁) (halternative b rfl)
  | call t callee arguments =>
    obtain ⟨hcallee, harguments⟩ := List.forall_mem_append.mp he
    refine L.holds_bind (h hscope hcallee) fun w₁ f h₁ hf => ?_
    refine L.holds_bind (h.expressions (hmono h₁) harguments) fun w₂ vs h₂ hvs => ?_
    exact h.apply (hf.mono h₂) hvs
  | index t collection position =>
    obtain ⟨hcollection, hposition⟩ := List.forall_mem_append.mp he
    refine L.holds_bind (h hscope hcollection) fun w₁ v h₁ hv => ?_
    refine L.holds_bind (h (hmono h₁) hposition) fun w₂ u h₂ _ => ?_
    refine L.holds_ofExcept fun hr w₃ h₃ => ?_
    exact Value.all_of_index (L.plain w₃) (hv.mono (L.trans h₂ h₃)) hr

variable (L)

/-- A logic judges evaluations of any depth. -/
theorem judges_eval (depth : Nat) : L.Judges (Expr.eval depth) := by
  induction depth with
  | zero => exact fun _ _ _ _ _ => L.holds_unfinished
  | succ depth ih => exact ih.layer

theorem holds_program (w : W) (depth : Nat) {scope : ScopeId} (hscope : L.Place w scope)
    {p : Program} (hp : ∀ y ∈ p.names, L.Usable y) : L.Holds w L.Good (p.eval depth scope) := by
  have hstatements := (L.judges_eval depth).statements hscope (L.plain w).all_null hp
  exact L.holds_bind hstatements fun _ _ _ hv => L.holds_pure fun _ hl => (hv.mono hl).unwrap

end Logic

end Monkey
