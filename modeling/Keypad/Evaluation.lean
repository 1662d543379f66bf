import Keypad.Depth
import Keypad.Plain
import Keypad.Yard

/-! # Evaluation — the value of a text

    Plain text is evaluated as it stands.  Keypad text that is handed in for
    a commit is checked first: a text that cannot be complete is told apart
    by its first character, its last one and its parentheses, before its
    plain text is evaluated. -/

namespace Keypad

/-- The value of a plain text. -/
def evaluatePlain (t : Text) : Except Fault Float :=
  match Program.ofText t with
  | .ok p => p.evaluate
  | .error f => .error f

/-! ## The structure of a keypad text -/

/-- A text may start with a digit, an opening parenthesis, a minus or the
    answer. -/
def startsWell (t : Text) : Bool :=
  t.head?.any (fun c => c.isDigit || c == '(' || c == '-')
    || Key.answerName.isPrefixOf t

/-- Characters after which an operand is missing. -/
def wantsOperand (c : Char) : Bool :=
  ['+', '-', '×', '÷', '*', '/', '%', '(', '.'].contains c

/-- What is wrong with the structure of a keypad text, the start being
    looked at before the end and the end before the parentheses. -/
def malformation? (t : Text) : Option Malformation :=
  if t.isEmpty then some .empty
  else if !startsWell t then some .badStart
  else if t.getLast?.any wantsOperand then some .badEnd
  else if !Text.isBalanced t then some .unbalanced
  else none

/-- The value of a complete keypad text. -/
def evaluateComplete (answer : Float) (t : Text) : Except Fault Float :=
  match malformation? t with
  | some why => .error (.malformed why)
  | none => evaluatePlain (Plain.ofKeypad answer t)

end Keypad
