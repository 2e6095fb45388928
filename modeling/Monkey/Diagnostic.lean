import Monkey.Token

/-!
What can be wrong with a program text. A complaint states the cause, a diagnostic also the place of
the token that it blames.
-/

namespace Monkey

inductive Complaint where
  /-- No expression begins with a token of this kind. -/
  | noOperand (found : Token.Kind)
  | unexpected (expected found : Token.Kind)
  /-- The integer has no signed representation in 64 bits. -/
  | integerTooLarge (literal : String)
  deriving DecidableEq, Repr

def Complaint.message : Complaint → String
  | .noOperand found => "no prefix parse function for " ++ found.name ++ " found"
  | .unexpected expected found =>
    "expected next token to be " ++ expected.name ++ ". Got " ++ found.name ++ " instead"
  | .integerTooLarge literal => "could not parse " ++ literal ++ " as integer"

/-- A complaint at the token that gave rise to it. -/
abbrev Diagnostic := Located Complaint

def Diagnostic.message (d : Diagnostic) : String := d.value.message

/-- The messages of a whole report, one a line. -/
def Diagnostic.report (ds : List Diagnostic) : String :=
  "\n".intercalate (ds.map Diagnostic.message)

end Monkey
