import Monkey.Session

/-!
The command line: with a path it runs that file, without one it answers the lines of standard
input, and prompts for them if a person is typing.
-/

namespace Monkey.CommandLine

/-- More levels of evaluation than the machine stack holds. -/
def depth : Nat := 1000000000

def readContents (path : String) : IO (Option ByteArray) := do
  try
    return some (← IO.FS.readBinFile path)
  catch e =>
    IO.eprintln ("could not read " ++ path ++ ": " ++ toString e)
    return none

def runFile (path : String) : IO UInt32 := do
  match File.runContents depth (← readContents path) with
  | some report =>
    IO.print report.output
    return report.exitCode
  | none => return 1

/-- A line as it was read, without its line end. -/
def withoutLineEnd (line : String) : String := (Text.lines line).headD ""

partial def interact (prompt : String) (m : Machine) : IO UInt32 := do
  IO.print prompt
  (← IO.getStdout).flush
  let line ← (← IO.getStdin).getLine
  if line.isEmpty then return 0
  match Session.enter depth (withoutLineEnd line) m with
  | some (answer, m) =>
    IO.print (unlines answer)
    interact prompt m
  | none => return 1

end Monkey.CommandLine

open Monkey.CommandLine in
def main (args : List String) : IO UInt32 := do
  match args with
  | [] =>
    let prompt := if ← (← IO.getStdin).isTty then ">> " else ""
    interact prompt Monkey.Machine.initial
  | [path] => runFile path
  | _ =>
    IO.eprintln "usage: monkey [file]"
    return 1
