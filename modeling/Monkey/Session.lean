import Monkey.Evaluator
import Monkey.Tree.Parser
import Monkey.Text.Lines
import Monkey.Text.Whitespace

/-!
Running source texts. A text that cannot be read changes nothing and is answered by its
diagnostics; otherwise the answer is what the program printed and its result, a fault counting as
a result. A session answers one text after another in the same scope, a file is one text in a
machine of its own. Every run has a depth, and an answer only if it ends within it.
-/

namespace Monkey

/-- The result of a program in a scope, with the machine it leaves. -/
def Program.run (depth : Nat) (scope : ScopeId) (p : Program) (m : Machine) :
    Option (Value × Machine) :=
  match p.eval depth scope m with
  | .done v m => some (v, m)
  | .failed f m => some (.error f, m)
  | .unfinished => none

/-- What running a text yields: the lines printed, and the result or the diagnostics. -/
structure Reply where
  printed : List String
  result : Except (List Diagnostic) Value

namespace Reply

/-- The lines that show a reply to a user. -/
def lines (r : Reply) : List String :=
  r.printed ++
    match r.result with
    | .ok v => [v.inspect]
    | .error ds => " parser errors:" :: ds.map fun d => "\t" ++ d.message

def succeeded (r : Reply) : Bool :=
  match r.result with
  | .ok v => !v.isError
  | .error _ => false

end Reply

/-- Runs a source text in a scope. -/
def run (depth : Nat) (scope : ScopeId) (source : String) (m : Machine) :
    Option (Reply × Machine) :=
  match Program.parse source with
  | .error ds => some (⟨[], .error ds⟩, m)
  | .ok p =>
    (p.run depth scope m).map fun (v, m) =>
      let (printed, m) := m.takePrinted
      (⟨printed, .ok v⟩, m)

/-- Lines as text, each with its line feed. -/
def unlines (lines : List String) : String := String.join (lines.map (· ++ "\n"))

@[simp] theorem unlines_nil : unlines [] = "" := rfl

@[simp] theorem unlines_cons (line : String) (lines : List String) :
    unlines (line :: lines) = line ++ "\n" ++ unlines lines := String.join_cons

theorem unlines_append (lines lines' : List String) :
    unlines (lines ++ lines') = unlines lines ++ unlines lines' := by
  induction lines with
  | nil => simp
  | cons line lines ih => simp [ih, String.append_assoc]

/-- The output of a run and whether all went well. -/
structure Report where
  output : String
  success : Bool
  deriving DecidableEq, Repr

/-- The status that the run hands to its caller: zero for success. -/
def Report.exitCode (r : Report) : UInt32 := if r.success then 0 else 1

namespace File

/-- Runs a source text by itself. -/
def runSource (depth : Nat) (source : String) : Option Report :=
  (run depth Machine.globalScope source Machine.initial).map fun (reply, _) =>
    ⟨unlines reply.lines, reply.succeeded⟩

/-- Runs the contents of a file; one that is missing or no UTF-8 text fails without output. -/
def runContents (depth : Nat) (contents : Option ByteArray) : Option Report :=
  match contents.bind String.fromUTF8? with
  | some source => runSource depth source
  | none => some ⟨"", false⟩

end File

namespace Session

/-- Answers a line; a blank line has no answer and changes nothing. -/
def enter (depth : Nat) (line : String) (m : Machine) : Option (List String × Machine) :=
  if Text.isBlankLine line then some ([], m)
  else (run depth Machine.globalScope line m).map fun (reply, m) => (reply.lines, m)

/-- The answers to a list of lines, and the machine after the last. -/
def enterAll (depth : Nat) (lines : List String) (m : Machine) : Option (List String × Machine) :=
  match lines with
  | [] => some ([], m)
  | line :: lines => do
    let (answer, m) ← enter depth line m
    let (answers, m) ← enterAll depth lines m
    return (answer ++ answers, m)

/-- A session on all lines of a text; faults and diagnostics do not make it fail. -/
def runInput (depth : Nat) (input : String) : Option Report :=
  (enterAll depth (Text.lines input) Machine.initial).map fun (answers, _) =>
    ⟨unlines answers, true⟩

end Session

end Monkey
