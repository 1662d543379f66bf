import Keypad.Key
import Keypad.Number.Display

/-! # Plain text — keypad text as plain arithmetic

    A keypad text becomes plain arithmetic text in three steps: the answer
    is written out wherever its key stands, glyphs become symbols, and the
    products that a keypad leaves implied get their sign.  The answer is
    written out first, so that it takes part in implied products like any
    typed number; a negative answer is put in parentheses, so that it stays
    one operand. -/

namespace Keypad

namespace Plain

/-- The answer as an operand. -/
def answerOperand (answer : Float) : Text :=
  match shownText answer with
  | '-' :: digits => '(' :: '-' :: digits ++ [')']
  | digits => digits

/-- Writes `operand` for every answer key, from the left. -/
def replaceAnswer (operand : Text) : Text → Text
  | 'A' :: 'N' :: 'S' :: t => operand ++ replaceAnswer operand t
  | c :: t => c :: replaceAnswer operand t
  | [] => []

/-- The symbol of a glyph; any other character stays. -/
def plainChar : Char → Char
  | '×' => '*'
  | '÷' => '/'
  | c => c

/-- Puts `*` between every two neighbours that satisfy `juncture`. -/
def insertTimes (juncture : Char → Char → Bool) : Text → Text
  | a :: b :: t =>
      if juncture a b then a :: '*' :: insertTimes juncture (b :: t)
      else a :: insertTimes juncture (b :: t)
  | t => t

/-! ## Implied products

    There are three junctures: a number before a group, a number after a
    group, and a group after a group. -/

def numberThenGroup (a b : Char) : Bool := a.isDigit && b == '('

def groupThenNumber (a b : Char) : Bool := a == ')' && b.isDigit

def groupThenGroup (a b : Char) : Bool := a == ')' && b == '('

/-- The text with the answer written out and symbols for glyphs. -/
def resolve (answer : Float) (t : Text) : Text :=
  (replaceAnswer (answerOperand answer) t).map plainChar

/-- The plain text of a keypad text. -/
def ofKeypad (answer : Float) (t : Text) : Text :=
  insertTimes groupThenGroup
    (insertTimes groupThenNumber
      (insertTimes numberThenGroup (resolve answer t)))

@[simp] theorem insertTimes_nil (juncture : Char → Char → Bool) :
    insertTimes juncture [] = [] := rfl

@[simp] theorem insertTimes_singleton (juncture : Char → Char → Bool)
    (c : Char) : insertTimes juncture [c] = [c] := rfl

theorem insertTimes_cons_cons (juncture : Char → Char → Bool) (a b : Char)
    (t : Text) :
    insertTimes juncture (a :: b :: t)
      = if juncture a b then a :: '*' :: insertTimes juncture (b :: t)
        else a :: insertTimes juncture (b :: t) := rfl

end Plain

end Keypad
