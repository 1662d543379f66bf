import Keypad.Terminal

/-! # The program

    Reads its arguments, runs a script or a prompt, and prints.  All it
    prints is decided in `Keypad.Terminal`; here are the streams alone. -/

namespace Keypad

/-- How the program is started. -/
def usage : String :=
  "usage: keypad [-v]... [-k KEYS]\n"

/-- Answers line after line until the input ends. -/
partial def converse (input output : IO.FS.Stream) (s : Session) : IO Unit := do
  let text ← input.getLine
  unless text.isEmpty do
    let next := (Terminal.lines text.toList).foldl Session.type s
    output.putStr (String.ofList (Terminal.turn next))
    output.flush
    converse input output next

end Keypad

open Keypad in
/-- Runs the script or the prompt that the arguments ask for. -/
def main (arguments : List String) : IO UInt32 := do
  let output ← IO.getStdout
  match Invocation.ofArguments? {} (arguments.map String.toList) with
  | none =>
      (← IO.getStderr).putStr usage
      return 2
  | some invocation =>
      match invocation.keys? with
      | some keys => output.putStr (String.ofList (Terminal.script keys))
      | none =>
          output.putStr (String.ofList (Terminal.turn .new))
          output.flush
          converse (← IO.getStdin) output .new
      return UInt32.ofNat Terminal.exitStatus
