import Keypad.Evaluation

/-! # Preview — the value so far

    While an expression is being typed its value is shown as far as there is
    one.  A preview never reports a fault.  A text that cannot be evaluated
    gets a second chance without its dangling tail, so that `5+` shows the
    value of `5`; what still has no value is pending.  A value that is not
    finite is not shown at all. -/

namespace Keypad

/-- What is shown beside an expression. -/
inductive Preview where
  | value (x : Float)
  /-- Nothing is typed yet. -/
  | placeholder
  /-- There is no value yet. -/
  | pending
  /-- There is nothing to show. -/
  | suppressed
deriving DecidableEq

namespace Preview

/-- The preview in characters. -/
def text : Preview → Text
  | .value x => '=' :: ' ' :: shownText x
  | .placeholder => ['=', ' ', '0']
  | .pending => ['=', ' ', '.', '.', '.']
  | .suppressed => []

/-- Characters that the second attempt leaves out at the end. -/
def isDangling (c : Char) : Bool :=
  Text.isBlank c || ['+', '-', '*', '/', '%', '('].contains c

/-- The preview of an outcome that is final. -/
def ofOutcome : Except Fault Float → Preview
  | .ok x => .value x
  | .error .notFinite => .suppressed
  | .error _ => .pending

/-- The preview of a plain text: of its value, or else of the value of the
    text without its dangling tail.  A value that is not finite gets no
    second attempt. -/
def ofPlain (t : Text) : Preview :=
  match evaluatePlain t with
  | .ok x => .value x
  | .error .notFinite => .suppressed
  | .error _ => ofOutcome (evaluatePlain (Text.trimEnd isDangling t))

/-- The preview of a keypad text. -/
def ofKeypad (answer : Float) (t : Text) : Preview :=
  let trimmed := Text.trim t
  if trimmed.isEmpty then .placeholder
  else if !Text.isBalanced trimmed then .pending
  else ofPlain (Plain.ofKeypad answer trimmed)

end Preview

end Keypad
