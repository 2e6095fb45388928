import Monkey.Proofs.Discipline
import Monkey.Proofs.Reachability
import Monkey.Proofs.Tracking

/-!
Disciplined code returns cleanly. What stands anywhere but as a statement of its own never gives a
value on its way out of a call, so such a value is found nowhere but between the `return` and the
call or program that it leaves, and the wrapping of values and the separate outcome of `return`
are two descriptions of one evaluation.
-/

namespace Monkey

/-- Nothing on its way out of a call, and no function but of disciplined code. -/
def Value.Disciplined : Value → Prop
  | .returned _ => False
  | .function _ c => c.body.disciplined = true
  | _ => True

namespace Value

theorem lenient_disciplined : Lenient Disciplined where
  integer _ := trivial
  string _ := trivial
  boolean _ := trivial
  null := trivial
  builtin _ := trivial
  array _ _ := trivial

/-- A value with nothing in it that is on its way out of a call, and whose functions are of
disciplined code and were made in these scopes. -/
def Clean (S : ScopeId → Prop) (v : Value) : Prop := v.All (Resident S Disciplined)

variable {S : ScopeId → Prop}

theorem lenient_clean (S : ScopeId → Prop) : Lenient (Resident S Disciplined) :=
  lenient_disciplined.resident S

theorem Clean.ne_returned {v : Value} (h : v.Clean S) (w : Value) : v ≠ .returned w := by
  rintro rfl
  exact h.self.1

theorem Clean.unwrap_eq {v : Value} (h : v.Clean S) : v.unwrap = v := by
  cases v with
  | returned w => exact absurd rfl (h.ne_returned w)
  | _ => rfl

end Value

namespace Reference

open Machine Value

/-- What a result of the evaluator says: to go on with it, or to leave with what is in it. -/
def signal : Value → Except Value Value
  | .returned v => .error v
  | v => .ok v

/-- A clean value, or one on its way out if the code has a `return`. -/
def Handed (S : ScopeId → Prop) (mayReturn : Bool) (v : Value) : Prop :=
  v.Clean S ∨ mayReturn = true ∧ ∃ w, v = .returned w ∧ w.Clean S

variable {S : ScopeId → Prop}

theorem signal_of_clean {v : Value} (h : v.Clean S) : signal v = .ok v := by
  cases v with
  | returned w => exact absurd rfl (h.ne_returned w)
  | _ => rfl

theorem Handed.clean {v : Value} (h : Handed S false v) : v.Clean S := by
  rcases h with h | ⟨hfalse, -⟩
  · exact h
  · cases hfalse

theorem Handed.mono {b b' : Bool} {v : Value} (h : Handed S b v) (hb : b = true → b' = true) :
    Handed S b' v := by
  rcases h with h | ⟨hreturns, h⟩
  · exact .inl h
  · exact .inr ⟨hb hreturns, h⟩

/-- Machines with this set of scopes and disciplined contents. -/
abbrev Orderly (S : ScopeId → Prop) : Machine → Prop := Confined S Disciplined

theorem tracks_of_clean {b : Bool} {x : Eval Value} {y : Control Value}
    (h : Tracks (Orderly S) (Clean S) .ok x y) : Tracks (Orderly S) (Handed S b) signal x y :=
  h.imp fun _ hv => ⟨.inl hv, (signal_of_clean hv).symm⟩

theorem tracks_lift_of_sameScopes {α : Type} {P : α → Prop} {x : Eval α}
    (hx : x.Leads SameScopes)
    (hP : ∀ {m a m'}, Orderly S m → x m = .done a m' → P a) :
    Tracks (Orderly S) P .ok x (ExceptT.lift x) :=
  tracks_lift (hx.mono fun _ _ hsame hm => hm.of_sameScopes hsame) hP

/-- A call or a program takes the value of a `return`, from the wrapper or as an outcome. -/
theorem Tracks.catchReturn {b : Bool} {x : Eval Value} {y : Control Value}
    (h : Tracks (Orderly S) (Handed S b) signal x y) :
    Tracks (Orderly S) (Clean S) .ok (x >>= fun v => pure v.unwrap)
      (ExceptT.lift (Reference.catchReturn y)) := by
  intro m hm
  show Agree (Orderly S) (Clean S) .ok ((x >>= fun v => pure v.unwrap) m)
    ((Reference.catchReturn y >>= fun v => pure (.ok v)) m)
  rw [Eval.bind_apply, Reference.catchReturn, bind_assoc, Eval.bind_apply]
  have hxy := h m hm
  generalize x m = o at hxy
  generalize y.run m = o' at hxy
  cases hxy with
  | failed hm' => exact .failed hm'
  | unfinished => exact .unfinished
  | @done v m' hv hm' =>
    rcases hv with hv | ⟨-, w, rfl, hw⟩
    · rw [signal_of_clean hv]
      simp only [hv.unwrap_eq]
      exact .done hv hm'
    · exact .done hw hm'

/-- An evaluator that hands over, from scopes of the set, what a reference evaluator says, and from
disciplined expressions only values that may stand where the expression does. -/
def Faithful (S : ScopeId → Prop) (eval : Monkey.Evaluator) (ref : Evaluator) : Prop :=
  ∀ ⦃scope whole e⦄, S scope → e.disciplined whole = true →
    Tracks (Orderly S) (Handed S (whole && returns e.ownStatements)) signal
      (eval scope e) (ref scope e)

namespace Faithful

variable {eval : Monkey.Evaluator} {ref : Evaluator} (h : Faithful S eval ref) {scope : ScopeId}
  (hscope : S scope)

include h hscope

/-- Where an expression is not a statement it gives a clean value. -/
theorem value {e : Expr} (he : e.disciplined false = true) :
    Tracks (Orderly S) (Clean S) .ok (eval scope e) (ref scope e) :=
  (h hscope he).imp fun _ hv => ⟨hv.clean, signal_of_clean hv.clean⟩

theorem expressions {es : List Expr} (hes : Expr.allDisciplined es = true) :
    Tracks (Orderly S) (fun vs => ∀ v ∈ vs, v.Clean S) .ok (eval.expressions scope es)
      (Reference.expressions ref scope es) := by
  induction es with
  | nil => exact tracks_pure nofun
  | cons e es ih =>
    obtain ⟨he, hes⟩ := Bool.and_eq_true_iff.mp hes
    refine (h.value hscope he).andThen fun v hv => (ih hes).andThen fun vs hvs => ?_
    exact tracks_pure (List.forall_mem_cons.mpr ⟨hv, hvs⟩)

theorem pairs {ps : List (Expr × Expr)} {content : Hash Value}
    (hcontent : content.All (Resident S Disciplined))
    (hps : Expr.pairsDisciplined ps = true) :
    Tracks (Orderly S) (Hash.All (Resident S Disciplined)) .ok (eval.pairs scope content ps)
      (Reference.pairs ref scope content ps) := by
  induction ps generalizing content with
  | nil => exact tracks_pure hcontent
  | cons p ps ih =>
    obtain ⟨key, value⟩ := p
    obtain ⟨hp, hps⟩ := Bool.and_eq_true_iff.mp hps
    obtain ⟨hkey, hvalue⟩ := Bool.and_eq_true_iff.mp hp
    refine (h.value hscope hkey).andThen fun k hk => ?_
    cases k.key? with
    | none =>
      exact tracks_lift_of_sameScopes (Eval.leads_fail sameScopes_accumulates _) fun _ hx =>
        absurd hx nofun
    | some filed =>
      exact (h.value hscope hvalue).andThen fun v hv => ih (hcontent.insert hk hv) hps

theorem statement {s : Stmt} (hs : s.disciplined = true) :
    Tracks (Orderly S) (Handed S (returns s.ownStatements)) signal (eval.statement scope s)
      (Reference.statement ref scope s) := by
  cases s with
  | bind t x e =>
    refine tracks_of_clean ((h.value hscope hs).andThen fun v hv => ?_)
    have hassign : Tracks (Orderly S) (fun _ => True) .ok (Eval.assign scope x.text v)
        (ExceptT.lift (Eval.assign scope x.text v)) :=
      tracks_lift (Eval.leads_update fun m hm => hm.assign hv scope x.text) fun _ _ => trivial
    exact hassign.andThen fun _ _ => tracks_pure hv
  | «return» t e =>
    refine (h.value hscope hs).andThen fun v hv => tracks_throw ?_ rfl
    exact .inr ⟨rfl, v, rfl, hv⟩
  | expr t e => exact h hscope hs

theorem statements {ss : List Stmt} (hss : Stmt.allDisciplined ss = true) {last : Value}
    (hlast : last.Clean S) :
    Tracks (Orderly S) (Handed S (returns (Stmt.allOwnStatements ss))) signal
      (eval.statements scope last ss) (Reference.statements ref scope last ss) := by
  induction ss generalizing last with
  | nil => exact tracks_of_clean (tracks_pure hlast)
  | cons s ss ih =>
    obtain ⟨hs, hss⟩ := Bool.and_eq_true_iff.mp hss
    rw [Stmt.allOwnStatements, returns_append]
    refine (h.statement hscope hs).bind fun v hv => ?_
    rcases hv with hv | ⟨hreturns, w, rfl, hw⟩
    · rw [signal_of_clean hv]
      split
      · next w => exact absurd rfl (hv.ne_returned w)
      · refine (ih hss hv).mono fun u hu => hu.mono fun hreturns => ?_
        rw [hreturns, Bool.or_true]
    · refine tracks_throw (.inr ⟨?_, w, rfl, hw⟩) rfl
      rw [hreturns, Bool.true_or]

theorem block {b : Block} (hb : b.disciplined = true) :
    Tracks (Orderly S) (Handed S (returns b.ownStatements)) signal (eval.block scope b)
      (Reference.block ref scope b) := by
  rw [b.ownStatements_eq]
  rw [b.disciplined_eq] at hb
  exact h.statements hscope hb (lenient_clean S).all_null

omit hscope in
theorem apply {callee : Value} {args : List Value} (hcallee : callee.Clean S)
    (hargs : ∀ v ∈ args, v.Clean S) :
    Tracks (Orderly S) (Clean S) .ok (eval.apply callee args)
      (ExceptT.lift (Reference.apply ref callee args)) := by
  cases callee with
  | function id c =>
    obtain ⟨hbody, hmade⟩ := hcallee.self
    have hcaptured : S c.scope := hmade id c rfl
    intro m hm
    have hnew : S m.scopes.size := hm.fresh _ (Nat.le_refl _)
    exact (h.block hnew hbody).catchReturn _ (hm.openScope hcaptured (all_of_mem_zip hargs))
  | builtin b =>
    exact tracks_lift_of_sameScopes (b.call_sameScopes args) fun _ hx =>
      Builtin.all_of_call (lenient_clean S) hargs hx
  | _ =>
    exact tracks_lift_of_sameScopes (Eval.leads_fail sameScopes_accumulates _) fun _ hx =>
      absurd hx nofun

end Faithful

theorem tracks_resolve {scope : ScopeId} (hscope : S scope) (x : Name) :
    Tracks (Orderly S) (Clean S) .ok (x.resolve scope) (ExceptT.lift (x.resolve scope)) :=
  tracks_lift_of_sameScopes (x.resolve_sameScopes scope) fun hm hdone =>
    hm.resolve lenient_disciplined hscope hdone

theorem tracks_operation {r : Except Fault Value} (hr : ∀ {v}, r = .ok v → v.Clean S) :
    Tracks (Orderly S) (Clean S) .ok (Eval.ofExcept r) (ExceptT.lift (Eval.ofExcept r)) :=
  tracks_lift_of_sameScopes (Eval.ofExcept_sameScopes r) fun _ hx =>
    hr (Eval.eq_ok_of_ofExcept_eq_done hx).1

/-- One layer of evaluation is faithful if the level below it is. -/
theorem Faithful.layer {eval : Monkey.Evaluator} {ref : Evaluator} (h : Faithful S eval ref) :
    Faithful S (Evaluator.layer eval) (Reference.layer ref) := by
  intro scope whole e hscope he
  cases e with
  | name x => exact tracks_of_clean (tracks_resolve hscope x)
  | integer t n => exact tracks_of_clean (tracks_pure ((lenient_clean S).all_integer n))
  | string t => exact tracks_of_clean (tracks_pure ((lenient_clean S).all_string _))
  | boolean t b => exact tracks_of_clean (tracks_pure ((lenient_clean S).all_boolean b))
  | function t parameters body =>
    refine tracks_of_clean (tracks_lift_of_sameScopes (Eval.newFunction_sameScopes _) ?_)
    intro m v m' hm hx
    cases hx
    exact all_resident_function he hscope
  | array t elements =>
    refine tracks_of_clean ((h.expressions hscope he).andThen fun vs hvs => ?_)
    exact tracks_lift_of_sameScopes (Eval.newArray_sameScopes vs) fun _ hx =>
      Builtin.all_of_newArray (lenient_clean S) hvs hx
  | hash t ps =>
    refine tracks_of_clean ((h.pairs hscope Hash.all_empty he).andThen fun content hcontent => ?_)
    refine tracks_lift_of_sameScopes (Eval.newHash_sameScopes content) ?_
    intro m v m' hm hx
    cases hx
    exact all_resident_hash trivial hcontent
  | unary t op operand =>
    refine tracks_of_clean ((h.value hscope he).andThen fun v _ => ?_)
    exact tracks_operation fun hw => UnaryOp.all_of_apply (lenient_clean S).plain hw
  | binary t op left right =>
    obtain ⟨hleft, hright⟩ := Bool.and_eq_true_iff.mp he
    refine tracks_of_clean ((h.value hscope hleft).andThen fun v _ => ?_)
    refine (h.value hscope hright).andThen fun w _ => ?_
    exact tracks_operation fun hu => BinaryOp.all_of_apply (lenient_clean S).plain hu
  | cond t condition consequence alternative =>
    obtain ⟨hcondition, hconsequence, halternative⟩ := Expr.disciplined_of_cond he
    rw [Evaluator.layer_cond]
    refine (h.value hscope hcondition).andThen fun v _ => ?_
    split
    · refine (h.block hscope hconsequence).mono fun w hw => hw.mono fun hreturns => ?_
      exact Expr.returns_of_cond he (.inl hreturns)
    · cases alternative with
      | none => exact tracks_of_clean (tracks_pure (lenient_clean S).all_null)
      | some a =>
        refine (h.block hscope (halternative a rfl)).mono fun w hw => hw.mono fun hreturns => ?_
        exact Expr.returns_of_cond he (.inr ⟨a, rfl, hreturns⟩)
  | call t callee arguments =>
    obtain ⟨hcallee, harguments⟩ := Bool.and_eq_true_iff.mp he
    refine tracks_of_clean ((h.value hscope hcallee).andThen fun f hf => ?_)
    exact (h.expressions hscope harguments).andThen fun vs hvs => h.apply hf hvs
  | index t collection position =>
    obtain ⟨hcollection, hposition⟩ := Bool.and_eq_true_iff.mp he
    refine tracks_of_clean ((h.value hscope hcollection).andThen fun v hv => ?_)
    refine (h.value hscope hposition).andThen fun w _ => ?_
    exact tracks_operation fun hu => Value.all_of_index (lenient_clean S).plain hv hu

theorem faithful_eval (S : ScopeId → Prop) (depth : Nat) :
    Faithful S (Expr.eval depth) (Reference.eval depth) := by
  induction depth with
  | zero =>
    intro scope whole e _ _ m _
    exact .unfinished
  | succ depth ih => exact ih.layer

end Reference

end Monkey
