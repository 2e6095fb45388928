import Monkey.Proofs.Course
import Monkey.Session

/-!
What a session answers, line by line. A line that is blank or no program has no effect, so it can be
left out and no other line is answered differently. A line that ends with a fault has had the
effects that came before the fault, and the lines after it are answered like those after any other.
A single line is answered as if it were a file.
-/

namespace Monkey

open Machine

/-- Some idle elements of the first list are left out in the second. -/
inductive Pruned {α : Type} (idle : α → Prop) : List α → List α → Prop
  | nil : Pruned idle [] []
  | keep {as bs : List α} (a : α) (h : Pruned idle as bs) : Pruned idle (a :: as) (a :: bs)
  | drop {as bs : List α} {a : α} (ha : idle a) (h : Pruned idle as bs) : Pruned idle (a :: as) bs

/-- Statements that failed consist of those that had results, the one that failed, and others. -/
theorem Evaluator.exists_of_statements_failed {eval : Evaluator} {scope : ScopeId} {last : Value}
    {ss : List Stmt} {m m' : Machine} {f : Fault}
    (h : eval.statements scope last ss m = .failed f m') :
    ∃ earlier s later u m₁, ss = earlier ++ s :: later ∧
      eval.statements scope last earlier m = .done u m₁ ∧
      eval.statement scope s m₁ = .failed f m' := by
  induction ss generalizing last m with
  | nil => cases h
  | cons s ss ih =>
    cases hs : eval.statement scope s m with
    | done v m₁ =>
      cases v with
      | returned w =>
        rw [statements_cons_of_returned hs] at h
        cases h
      | _ =>
        rw [statements_cons_of_ne hs nofun] at h
        obtain ⟨earlier, s', later, u, m₂, rfl, hearlier, hs'⟩ := ih h
        refine ⟨s :: earlier, s', later, u, m₂, rfl, ?_, hs'⟩
        rw [statements_cons_of_ne hs nofun]
        exact hearlier
    | failed f₁ m₁ =>
      rw [statements, Eval.bind_of_failed hs] at h
      cases h
      exact ⟨[], s, ss, last, m, rfl, rfl, hs⟩
    | unfinished =>
      rw [statements, Eval.bind_apply, hs] at h
      cases h

theorem Program.statements_of_failed {p : Program} {depth : Nat} {scope : ScopeId} {m m' : Machine}
    {f : Fault} (h : p.eval depth scope m = .failed f m') :
    Evaluator.statements (Expr.eval depth) scope .null p.statements m = .failed f m' := by
  rw [Program.eval, Eval.bind_apply] at h
  split at h
  · cases h
  · next hfailed =>
    cases h
    exact hfailed
  · cases h

theorem Machine.lookup_globalScope (m : Machine) (x : String) :
    m.lookup globalScope x = m.bound? globalScope x := by
  rw [lookup, bound?]
  cases m.scopes[globalScope]? with
  | none => rfl
  | some s =>
    simp only [Option.bind_some]
    cases s.bindings.lookup x with
    | some v => rfl
    | none =>
      cases s.outer with
      | none => rfl
      | some outer => exact if_neg (Nat.not_lt_zero outer)

namespace Session

/-- A blank line, or one that is no program. -/
def Idle (line : String) : Prop :=
  Text.isBlankLine line = true ∨ ∃ ds, Program.parse line = .error ds

/-- The lines with their answers, and the machine after the last. -/
def transcript (depth : Nat) (lines : List String) (m : Machine) :
    Option (List (String × List String) × Machine) :=
  match lines with
  | [] => some ([], m)
  | line :: lines => do
    let (answer, m) ← enter depth line m
    let (entries, m) ← transcript depth lines m
    return ((line, answer) :: entries, m)

variable {depth : Nat} {line : String} {lines kept : List String} {m m' : Machine}

/-- What is output in a session is what the lines are answered. -/
theorem enterAll_eq (depth : Nat) (lines : List String) (m : Machine) :
    enterAll depth lines m =
      (transcript depth lines m).map fun t => (t.1.flatMap Prod.snd, t.2) := by
  induction lines generalizing m with
  | nil => rfl
  | cons line lines ih =>
    rw [enterAll, transcript]
    cases enter depth line m with
    | none => rfl
    | some a =>
      obtain ⟨answer, m₁⟩ := a
      simp only [Option.bind_eq_bind, Option.bind_some, ih]
      cases transcript depth lines m₁ <;> simp

/-- The text of all answers is the texts of the answers, one after another. -/
theorem unlines_flatMap (entries : List (String × List String)) :
    unlines (entries.flatMap Prod.snd) =
      String.join (entries.map fun entry => String.join (entry.2.map (· ++ "\n"))) := by
  induction entries with
  | nil => rfl
  | cons entry entries ih =>
    rw [List.flatMap_cons, unlines_append, ih, List.map_cons, String.join_cons]
    rfl

theorem unlines_enterAll (depth : Nat) (lines : List String) (m : Machine) :
    (enterAll depth lines m).map (fun a => unlines a.1) =
      (transcript depth lines m).map fun t =>
        String.join (t.1.map fun entry => String.join (entry.2.map (· ++ "\n"))) := by
  rw [enterAll_eq, Option.map_map]
  exact congrArg (fun f => (transcript depth lines m).map f)
    (funext fun t => unlines_flatMap t.1)

theorem enter_of_blank (h : Text.isBlankLine line = true) : enter depth line m = some ([], m) :=
  if_pos h

theorem enter_of_unreadable {ds : List Diagnostic} (hblank : Text.isBlankLine line = false)
    (h : Program.parse line = .error ds) : enter depth line m =
      some (" parser errors:" :: ds.map fun d => "\t" ++ d.message, m) := by
  simp [enter, hblank, run, h, Reply.lines]

theorem Idle.enter_eq (h : Idle line) (depth : Nat) (m : Machine) :
    ∃ answer, enter depth line m = some (answer, m) := by
  rcases h with hblank | ⟨ds, hds⟩
  · exact ⟨[], enter_of_blank hblank⟩
  · cases hblank : Text.isBlankLine line with
    | true => exact ⟨[], enter_of_blank hblank⟩
    | false => exact ⟨_, enter_of_unreadable hblank hds⟩

/-- The transcript without some idle lines is the transcript with their entries left out. -/
theorem transcript_pruned (h : Pruned Idle lines kept) (depth : Nat) (m : Machine) :
    Option.Rel (fun t t' => t.2 = t'.2 ∧ Pruned (fun entry => Idle entry.1) t.1 t'.1)
      (transcript depth lines m) (transcript depth kept m) := by
  induction h generalizing m with
  | nil => exact .some ⟨rfl, .nil⟩
  | @keep lines kept line h ih =>
    rw [transcript, transcript]
    cases enter depth line m with
    | none => exact .none
    | some a =>
      obtain ⟨answer, m₁⟩ := a
      simp only [Option.bind_eq_bind, Option.bind_some]
      have hboth := ih m₁
      generalize transcript depth lines m₁ = t at hboth
      generalize transcript depth kept m₁ = t' at hboth
      cases hboth with
      | none => exact .none
      | some h => exact .some ⟨h.1, .keep _ h.2⟩
  | @drop lines kept line hidle h ih =>
    obtain ⟨answer, hanswer⟩ := hidle.enter_eq depth m
    rw [transcript, hanswer]
    simp only [Option.bind_eq_bind, Option.bind_some]
    have hboth := ih m
    generalize transcript depth lines m = t at hboth
    generalize transcript depth kept m = t' at hboth
    cases hboth with
    | none => exact .none
    | some h => exact .some ⟨h.1, .drop hidle h.2⟩

/-- A line that ends with a fault is answered by what it printed and the fault, and leaves the
machine in which the fault occurred. -/
theorem enter_of_failed {p : Program} {f : Fault} (hblank : Text.isBlankLine line = false)
    (hp : Program.parse line = .ok p) (h : p.eval depth globalScope m = .failed f m') :
    enter depth line m =
      some (m'.printed.toList ++ ["ERROR: " ++ f.message], m'.takePrinted.2) := by
  have hrun : p.run depth globalScope m = some (.error f, m') := by
    rw [Program.run, h]
  simp only [enter, hblank, run, hp, hrun]
  rfl

/-- The statement of a program in which a fault occurred, begun where the others had ended; what it
does not bind itself is bound after the fault as it was before the statement. -/
theorem exists_of_failed {p : Program} {f : Fault} (hglobal : globalScope < m.scopes.size)
    (h : p.eval depth globalScope m = .failed f m') :
    ∃ earlier s later u m₁, p.statements = earlier ++ s :: later ∧
      Evaluator.statements (Expr.eval depth) globalScope .null earlier m = .done u m₁ ∧
      Evaluator.statement (Expr.eval depth) globalScope s m₁ = .failed f m' ∧
      ∀ x ∉ boundNames s.ownStatements, m'.lookup globalScope x = m₁.lookup globalScope x := by
  obtain ⟨earlier, s, later, u, m₁, hss, hearlier, hs⟩ :=
    Evaluator.exists_of_statements_failed (Program.statements_of_failed h)
  refine ⟨earlier, s, later, u, m₁, hss, hearlier, hs, fun x hx => ?_⟩
  have hgrows : m.Preserves m₁ :=
    (Expr.eval_leading preserves_stepwise depth).statements preserves_stepwise _ _ _
      (.of_done hearlier)
  have hframe : Frame globalScope (boundNames s.ownStatements) m₁ m' :=
    (Expr.eval_framed depth).statement globalScope s (hs ▸ .failed f m')
  rw [lookup_globalScope, lookup_globalScope]
  exact hframe.bound?_eq (Nat.lt_of_lt_of_le hglobal hgrows.grows) hx

/-- Whatever is bound in the global scope in the course of a line is bound after its fault. -/
theorem exists_lookup_of_failed {p : Program} {f : Fault} {d : Nat} {x : String} {v : Value}
    {m₁ : Machine} (hglobal : globalScope < m.scopes.size)
    (h : p.eval depth globalScope m = .failed f m')
    (hbind : (Activity.ofProgram depth globalScope p m).Within ⟨d, .bind globalScope x v, m₁⟩) :
    ∃ w, m'.lookup globalScope x = some w := by
  have hends : (Activity.ofProgram depth globalScope p m).EndsIn m' := by
    show (Evaluator.statements (Expr.eval depth) globalScope .null p.statements m).EndsIn m'
    rw [Program.statements_of_failed h]
    exact .failed f m'
  rw [lookup_globalScope]
  exact Activity.exists_bound hbind hglobal hends

theorem fromUTF8?_toUTF8 (s : String) : String.fromUTF8? s.toUTF8 = some s :=
  dif_pos s.isValidUTF8

theorem runContents_toUTF8 (depth : Nat) (source : String) :
    File.runContents depth (some source.toUTF8) = File.runSource depth source := by
  simp only [File.runContents, Option.bind_some, fromUTF8?_toUTF8]

/-- A single line is answered with the output of a file that consists of it. -/
theorem output_single (hblank : Text.isBlankLine line = false) :
    (enterAll depth [line] initial).map (fun a => unlines a.1) =
      (File.runContents depth (some line.toUTF8)).map Report.output := by
  rw [runContents_toUTF8, File.runSource, enterAll]
  simp only [enter, hblank, Bool.false_eq_true, if_false]
  cases run depth globalScope line initial with
  | none => rfl
  | some a => simp [enterAll]

theorem exitCode_eq_zero_iff {report : Report}
    (h : File.runContents depth (some line.toUTF8) = some report) :
    report.exitCode = 0 ↔ ∃ p v m', Program.parse line = .ok p ∧
      p.run depth globalScope initial = some (v, m') ∧ v.isError = false := by
  rw [runContents_toUTF8, File.runSource] at h
  obtain ⟨⟨reply, m'⟩, hrun, rfl⟩ := Option.map_eq_some_iff.mp h
  unfold run at hrun
  split at hrun
  · next ds hds =>
    cases hrun
    simp [Report.exitCode, Reply.succeeded, hds]
  · next p hp =>
    obtain ⟨⟨v, m₁⟩, hv, heq⟩ := Option.map_eq_some_iff.mp hrun
    cases heq
    have hcode : (Report.mk (unlines (Reply.mk m₁.takePrinted.1 (.ok v)).lines)
        (!v.isError)).exitCode = 0 ↔ v.isError = false := by
      cases v.isError <;> simp [Report.exitCode]
    refine hcode.trans ⟨fun hv' => ⟨p, v, m₁, hp, hv, hv'⟩, ?_⟩
    rintro ⟨p', v', m', hp', hv'', hv'⟩
    cases hp.symm.trans hp'
    cases hv.symm.trans hv''
    exact hv'

/-- What can be relied on in every session whose runs have this depth. -/
structure Lawful (depth : Nat) : Prop where
  /-- Leaving out idle lines leaves the other entries and the last machine as they were. -/
  pruned : ∀ {lines kept : List String} (m : Machine), Pruned Idle lines kept →
    Option.Rel (fun t t' => t.2 = t'.2 ∧ Pruned (fun entry => Idle entry.1) t.1 t'.1)
      (transcript depth lines m) (transcript depth kept m)
  output : ∀ (lines : List String) (m : Machine), enterAll depth lines m =
    (transcript depth lines m).map fun t => (t.1.flatMap Prod.snd, t.2)
  /-- What is written is the lines of the answers in their order, each with a line feed. -/
  written : ∀ (lines : List String) (m : Machine),
    (enterAll depth lines m).map (fun a => unlines a.1) =
      (transcript depth lines m).map fun t =>
        String.join (t.1.map fun entry => String.join (entry.2.map (· ++ "\n")))
  blank : ∀ {line : String} (m : Machine), Text.isBlankLine line = true →
    enter depth line m = some ([], m)
  unreadable : ∀ {line : String} {ds : List Diagnostic} (m : Machine),
    Text.isBlankLine line = false → Program.parse line = .error ds →
    enter depth line m = some (" parser errors:" :: ds.map fun d => "\t" ++ d.message, m)
  /-- After a fault the session goes on in the machine of the fault. -/
  fault : ∀ {line : String} {p : Program} {m m' : Machine} {f : Fault} (lines : List String),
    Text.isBlankLine line = false → Program.parse line = .ok p →
    p.eval depth globalScope m = .failed f m' →
    transcript depth (line :: lines) m = (transcript depth lines m'.takePrinted.2).map fun t =>
      ((line, m'.printed.toList ++ ["ERROR: " ++ f.message]) :: t.1, t.2)
  /-- The statements before the one that failed have bound what they have bound. -/
  earlier : ∀ {p : Program} {m m' : Machine} {f : Fault}, globalScope < m.scopes.size →
    p.eval depth globalScope m = .failed f m' →
    ∃ earlier s later u m₁, p.statements = earlier ++ s :: later ∧
      Evaluator.statements (Expr.eval depth) globalScope .null earlier m = .done u m₁ ∧
      Evaluator.statement (Expr.eval depth) globalScope s m₁ = .failed f m' ∧
      ∀ x ∉ boundNames s.ownStatements, m'.lookup globalScope x = m₁.lookup globalScope x
  /-- So has every `let` that was carried out, wherever it stands. -/
  bound : ∀ {p : Program} {m m' m₁ : Machine} {f : Fault} {d : Nat} {x : String} {v : Value},
    globalScope < m.scopes.size → p.eval depth globalScope m = .failed f m' →
    (Activity.ofProgram depth globalScope p m).Within ⟨d, .bind globalScope x v, m₁⟩ →
    ∃ w, m'.lookup globalScope x = some w
  single : ∀ {line : String}, Text.isBlankLine line = false →
    (enterAll depth [line] initial).map (fun a => unlines a.1) =
      (File.runContents depth (some line.toUTF8)).map Report.output
  exitCode : ∀ {line : String} {report : Report},
    File.runContents depth (some line.toUTF8) = some report →
    (report.exitCode = 0 ↔ ∃ p v m', Program.parse line = .ok p ∧
      p.run depth globalScope initial = some (v, m') ∧ v.isError = false)

theorem lawful (depth : Nat) : Lawful depth where
  pruned m h := transcript_pruned h depth m
  output := enterAll_eq depth
  written := unlines_enterAll depth
  blank m h := enter_of_blank h
  unreadable m hblank h := enter_of_unreadable hblank h
  fault lines hblank hp h := by
    rw [transcript, enter_of_failed hblank hp h]
    simp only [Option.bind_eq_bind, Option.bind_some]
    cases transcript depth lines _ <;> rfl
  earlier := exists_of_failed
  bound := exists_lookup_of_failed
  single := output_single
  exitCode := exitCode_eq_zero_iff

/-- A line that binds a name before its fault, a blank line, a line that is no program, and a line
that looks the name up; the two in the middle can be left out. -/
theorem lawful_let_then_fault : ∃ t t' : List (String × List String) × Machine,
    transcript 6 ["let a = 1; a + true;", " ", "let b 2;", "a"] initial = some t ∧
    transcript 6 ["let a = 1; a + true;", "a"] initial = some t' ∧ t.2 = t'.2 ∧
    t.1.map Prod.snd = [["ERROR: type mismatch: INTEGER + BOOLEAN"], [],
      [" parser errors:", "\texpected next token to be =. Got INT instead"], ["1"]] ∧
    t'.1.map Prod.snd = [["ERROR: type mismatch: INTEGER + BOOLEAN"], ["1"]] := by
  have hidle : Idle " " ∧ Idle "let b 2;" := by
    refine ⟨.inl (by decide), .inr ?_⟩
    have hparse : (Program.parse "let b 2;").toOption.isNone = true := by decide +kernel
    cases h : Program.parse "let b 2;" with
    | ok p => simp [h, Except.toOption] at hparse
    | error ds => exact ⟨ds, rfl⟩
  have h := (lawful 6).pruned initial (.keep "let a = 1; a + true;"
    (.drop hidle.1 (.drop hidle.2 (.keep "a" .nil))))
  have hanswers : (transcript 6 ["let a = 1; a + true;", " ", "let b 2;", "a"] initial).map
      (·.1.map Prod.snd) = some [["ERROR: type mismatch: INTEGER + BOOLEAN"], [],
        [" parser errors:", "\texpected next token to be =. Got INT instead"], ["1"]] := by
    decide +kernel
  have hanswers' : (transcript 6 ["let a = 1; a + true;", "a"] initial).map (·.1.map Prod.snd) =
      some [["ERROR: type mismatch: INTEGER + BOOLEAN"], ["1"]] := by
    decide +kernel
  obtain ⟨t, ht, hsnd⟩ := Option.map_eq_some_iff.mp hanswers
  obtain ⟨t', ht', hsnd'⟩ := Option.map_eq_some_iff.mp hanswers'
  rw [ht, ht'] at h
  exact ⟨t, t', ht, ht', (Option.rel_some_some.mp h).1, hsnd, hsnd'⟩

end Session

end Monkey
