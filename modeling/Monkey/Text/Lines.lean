/-!
Lines of a text. A line ends at a line feed, or at a carriage return and line feed; what follows
the last line end is a line of its own unless it is empty.
-/

namespace Monkey.Text

def linesOfChars : List Char → List (List Char)
  | [] => []
  | '\n' :: cs => [] :: linesOfChars cs
  | '\r' :: '\n' :: cs => [] :: linesOfChars cs
  | c :: cs =>
    match linesOfChars cs with
    | [] => [[c]]
    | line :: lines => (c :: line) :: lines

def lines (text : String) : List String := (linesOfChars text.toList).map String.ofList

example : lines "a\r\n\nb\r\r\nc\r" = ["a", "", "b\r", "c\r"] := by decide

end Monkey.Text
