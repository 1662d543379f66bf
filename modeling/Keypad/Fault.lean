import Keypad.Text

/-! # Faults — why a text has no value

    Every way in which reading or evaluating can fail is one constructor,
    carrying the offending text where there is one.  The wording lives in
    `Fault.message` alone.  `Fault.marker` is what the display shows after a
    failed commit: faults of the typed structure are told apart from all
    others. -/

namespace Keypad

/-- What is wrong with the shape of a text handed in for a commit. -/
inductive Malformation where
  /-- The text is empty. -/
  | empty
  /-- The first character cannot start an expression. -/
  | badStart
  /-- The last character leaves an operand missing. -/
  | badEnd
  /-- The parentheses do not pair up. -/
  | unbalanced
deriving DecidableEq, Repr

/-- The reason in words. -/
def Malformation.message : Malformation → Text
  | .empty => "nothing to evaluate".toList
  | .badStart => "it starts with an operator".toList
  | .badEnd => "it ends without an operand".toList
  | .unbalanced => "its parentheses are unbalanced".toList

/-- Why a text has no value. -/
inductive Fault where
  /-- A character, or a key's name, that means nothing here. -/
  | unknown (text : Text)
  /-- A number whose digits and points do not form a numeral. -/
  | notANumeral (text : Text)
  /-- An operator where its kind cannot stand. -/
  | misplacedOperator (text : Text)
  /-- A token of a kind that cannot stand here. -/
  | unexpected (text : Text)
  /-- A closing parenthesis that nothing opened. -/
  | unopened
  /-- An opening parenthesis that nothing closed. -/
  | unclosed
  /-- The text ends where an operand is due, or a program leaves more or
      fewer than one value. -/
  | unfinished
  /-- The value is an infinity or not a number. -/
  | notFinite
  /-- The structure check before a commit failed. -/
  | malformed (why : Malformation)
deriving DecidableEq, Repr

namespace Fault

/-- The fault in words. -/
def message : Fault → Text
  | .unknown t => "invalid character, '".toList ++ t ++ "', encountered".toList
  | .notANumeral t => "'".toList ++ t ++ "' is not a valid number".toList
  | .misplacedOperator t =>
      "the '".toList ++ t ++ "' operator has been misplaced".toList
  | .unexpected t => "did not expect '".toList ++ t ++ "'".toList
  | .unopened => "could not find '('".toList
  | .unclosed => "could not find ')'".toList
  | .unfinished => "expression ended abruptly".toList
  | .notFinite => "result is not a finite number".toList
  | .malformed why => "malformed expression, ".toList ++ why.message

/-- Faults found by the structure check, before anything is evaluated. -/
def isStructural : Fault → Bool
  | .malformed _ => true
  | _ => false

/-- The marker shown for a value that is no finite number. -/
def errorMarker : Text := "Error".toList

/-- The marker shown for a text whose structure is wrong. -/
def syntaxMarker : Text := "Syntax Error".toList

/-- What the display shows after a commit failed with this fault. -/
def marker (f : Fault) : Text :=
  if f.isStructural then syntaxMarker else errorMarker

end Fault

end Keypad
