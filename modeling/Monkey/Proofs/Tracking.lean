import Monkey.Proofs.Effect
import Monkey.Proofs.Reference

/-!
When an evaluation that may be left by a `return` does what a plain evaluation does: from the same
machine both end in the same way and in the same machine, a result of the plain one being read as
a result or as the value of a `return`. Beside that the machines keep an invariant.
-/

namespace Monkey.Reference

variable {α β γ δ : Type} {I : Machine → Prop} {P : α → Prop} {Q : γ → Prop}
  {read : α → Except Value β} {read' : γ → Except Value δ}

/-- Two outcomes that agree up to the reading of results; the results have a property and the
machines keep the invariant. -/
inductive Agree (I : Machine → Prop) (P : α → Prop) (read : α → Except Value β) :
    Outcome α → Outcome (Except Value β) → Prop
  | done {a : α} {m : Machine} (ha : P a) (hm : I m) : Agree I P read (.done a m) (.done (read a) m)
  | failed {f : Fault} {m : Machine} (hm : I m) : Agree I P read (.failed f m) (.failed f m)
  | unfinished : Agree I P read .unfinished .unfinished

/-- Agreement carries over to what the property implies, and to another reading that is the same for
the results that can occur. -/
theorem Agree.imp {P' : α → Prop} {read' : α → Except Value β} {o : Outcome α}
    {o' : Outcome (Except Value β)} (h : Agree I P read o o')
    (himp : ∀ a, P a → P' a ∧ read a = read' a) : Agree I P' read' o o' := by
  cases h with
  | @done a m ha hm =>
    obtain ⟨ha', hread⟩ := himp a ha
    rw [hread]
    exact .done ha' hm
  | failed hm => exact .failed hm
  | unfinished => exact .unfinished

theorem Agree.endsIn {o : Outcome α} {o' : Outcome (Except Value β)} {m : Machine}
    (h : Agree I P read o o') (hends : o.EndsIn m) : I m := by
  cases h with
  | done ha hm =>
    cases hends
    exact hm
  | failed hm =>
    cases hends
    exact hm
  | unfinished => cases hends

theorem Agree.done_left {a : α} {m : Machine} {o' : Outcome (Except Value β)}
    (h : Agree I P read (.done a m) o') : P a ∧ I m := by
  cases h with
  | done ha hm => exact ⟨ha, hm⟩

/-- From machines with the invariant both evaluations have outcomes that agree. -/
def Tracks (I : Machine → Prop) (P : α → Prop) (read : α → Except Value β) (x : Eval α)
    (y : Control β) : Prop := ∀ m, I m → Agree I P read (x m) (y.run m)

theorem tracks_pure {a : α} (ha : P a) : Tracks I P .ok (pure a) (pure a) :=
  fun _ hm => .done ha hm

theorem tracks_throw {v w : Value} {P : Value → Prop} {read : Value → Except Value β} (hv : P v)
    (hread : read v = .error w) : Tracks I P read (pure v) (throw w) := by
  intro m hm
  have h : Agree I P read (.done v m) (.done (read v) m) := .done hv hm
  rw [hread] at h
  exact h

/-- A plain evaluation that keeps the invariant tracks itself. -/
theorem tracks_lift {x : Eval α} (hI : x.Leads fun m m' => I m → I m')
    (hP : ∀ {m a m'}, I m → x m = .done a m' → P a) : Tracks I P .ok x (ExceptT.lift x) := by
  intro m hm
  show Agree I P .ok (x m) ((x >>= fun a => pure (.ok a)) m)
  rw [Eval.bind_apply]
  cases hx : x m with
  | done a m' =>
    have hends : (x m).EndsIn m' := .of_done hx
    exact .done (hP hm hx) (hI hends hm)
  | failed f m' => exact .failed (hI (hx ▸ .failed f m') hm)
  | unfinished => exact .unfinished

/-- In a sequence the second evaluation has to track what the reading of the first result says is
to be done: to go on with it, or to leave. -/
theorem Tracks.bind {x : Eval α} {y : Control β} {f : α → Eval γ} {g : β → Control δ}
    (h : Tracks I P read x y)
    (hf : ∀ a, P a → Tracks I Q read' (f a) (ExceptT.mk (ExceptT.bindCont g (read a)))) :
    Tracks I Q read' (x >>= f) (y >>= g) := by
  intro m hm
  show Agree I Q read' ((x >>= f) m) ((y.run >>= ExceptT.bindCont g) m)
  rw [Eval.bind_apply, Eval.bind_apply]
  have hxy := h m hm
  generalize x m = o at hxy
  generalize y.run m = o' at hxy
  cases hxy with
  | @done a m' ha hm' => exact hf a ha m' hm'
  | failed hm' => exact .failed hm'
  | unfinished => exact .unfinished

/-- A sequence whose first result is an ordinary one. -/
theorem Tracks.andThen {x : Eval α} {y : Control α} {f : α → Eval γ} {g : α → Control δ}
    (h : Tracks I P .ok x y) (hf : ∀ a, P a → Tracks I Q read' (f a) (g a)) :
    Tracks I Q read' (x >>= f) (y >>= g) := h.bind hf

theorem Tracks.imp {P' : α → Prop} {read' : α → Except Value β} {x : Eval α} {y : Control β}
    (h : Tracks I P read x y) (himp : ∀ a, P a → P' a ∧ read a = read' a) :
    Tracks I P' read' x y := by
  intro m hm
  exact (h m hm).imp himp

theorem Tracks.mono {P' : α → Prop} {x : Eval α} {y : Control β} (h : Tracks I P read x y)
    (hP : ∀ a, P a → P' a) : Tracks I P' read x y := h.imp fun a ha => ⟨hP a ha, rfl⟩

/-- A plain evaluation that tracks a lifted one is equal to it where the invariant holds. -/
theorem Tracks.eq_of_lift {x y : Eval α} (h : Tracks I P .ok x (ExceptT.lift y)) {m : Machine}
    (hm : I m) : x m = y m := by
  have hxy : Agree I P .ok (x m) ((y >>= fun a => pure (.ok a)) m) := h m hm
  rw [Eval.bind_apply] at hxy
  generalize x m = o at hxy
  cases hy : y m with
  | done a m' =>
    rw [hy] at hxy
    cases hxy
    rfl
  | failed f m' =>
    rw [hy] at hxy
    cases hxy
    rfl
  | unfinished =>
    rw [hy] at hxy
    cases hxy
    rfl

theorem Tracks.leads {x : Eval α} {y : Control β} (h : Tracks I P read x y) :
    x.Leads fun m m' => I m → I m' := by
  intro m m' hends hm
  exact (h m hm).endsIn hends

/-- What is known of a result and of the machine that it comes with. -/
theorem Tracks.result {x : Eval α} {y : Control β} (h : Tracks I P read x y) {m m' : Machine}
    {a : α} (hm : I m) (hx : x m = .done a m') : P a ∧ I m' := by
  have hxy := h m hm
  rw [hx] at hxy
  exact hxy.done_left

end Monkey.Reference
