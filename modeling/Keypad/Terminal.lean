import Keypad.Invocation
import Keypad.Keystroke

/-! # The terminal — a session in lines of text

    A session is drawn as one line: the display, with a bar at the caret
    while editing, four spaces and the preview.  A script of keystrokes
    prints the session it ends in.  A prompt prints the session at the start
    and after every line of input, each time followed by a prompt sign. -/

namespace Keypad

namespace Terminal

/-! ## Drawing -/

/-- The display with the caret drawn into it while editing. -/
def markedDisplay (s : Session) : Text :=
  match s.mode with
  | .editing => s.display.take s.caret ++ '|' :: s.display.drop s.caret
  | _ => s.display

/-- A session as a line of text. -/
def render (s : Session) : Text :=
  markedDisplay s ++ List.replicate 4 ' ' ++ s.preview.text

/-- A session as a finished line. -/
def line (s : Session) : Text := render s ++ ['\n']

/-- What stands before the input of a prompt. -/
def promptSign : Text := ['>', ' ']

/-! ## Reading lines -/

/-- The lines of a text.  A line feed ends a line and takes a carriage
    return before it along; the last line may lack its end. -/
def lines : Text → List Text
  | [] => []
  | '\n' :: t => [] :: lines t
  | '\r' :: '\n' :: t => [] :: lines t
  | c :: t =>
      match lines t with
      | [] => [[c]]
      | l :: ls => (c :: l) :: ls

/-! ## What is printed -/

/-- The print of a script: the session it ends in. -/
def script (keys : Text) : Text := line (Session.new.type keys)

/-- A session in a prompt: drawn, and ready for input. -/
def turn (s : Session) : Text := line s ++ promptSign

/-- The sessions of a prompt: the one at the start, and one after each line
    of input. -/
def sessions (s : Session) : List Text → List Session
  | [] => [s]
  | l :: ls => s :: sessions (s.type l) ls

/-- The print of a prompt that is fed a whole input. -/
def prompt (input : Text) : Text :=
  (sessions .new (lines input)).flatMap turn

/-- What a run prints. -/
def output (i : Invocation) (input : Text) : Text :=
  match i.keys? with
  | some keys => script keys
  | none => prompt input

/-- Every run that starts ends well, whatever was typed. -/
def exitStatus : Nat := 0

end Terminal

end Keypad
