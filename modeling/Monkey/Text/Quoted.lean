/-!
Text between double quotes: quotes, backslashes and the three common layout characters inside are
written as escapes.
-/

namespace Monkey.Text.Quoted

def escape : Char → List Char
  | '"' => ['\\', '"']
  | '\\' => ['\\', '\\']
  | '\n' => ['\\', 'n']
  | '\r' => ['\\', 'r']
  | '\t' => ['\\', 't']
  | c => [c]

def text (s : String) : String := String.ofList ('"' :: s.toList.flatMap escape ++ ['"'])

end Monkey.Text.Quoted
