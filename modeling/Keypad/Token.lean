import Keypad.Fault
import Keypad.Operator

/-! # Tokens — the words of plain arithmetic text

    A plain text falls into numbers, operators and parentheses, with blanks
    between them or not.  A number token is a whole run of digits and
    points; whether the run is a numeral is for its reader to say.  Scanning
    stops at the first character that belongs to no token, and keeps what it
    found before. -/

namespace Keypad

/-- The kinds of tokens. -/
inductive TokenKind where
  | number
  | operator
  | parenthesis
deriving DecidableEq, Repr

/-- A word of plain text. -/
structure Token where
  kind : TokenKind
  content : Text
deriving DecidableEq, Repr

/-- The tokens of a text up to its end or to the first fault. -/
structure Scan where
  tokens : List Token
  fault : Option Fault
deriving DecidableEq, Repr

namespace Scan

/-- Puts a token in front. -/
def push (t : Token) (s : Scan) : Scan := { s with tokens := t :: s.tokens }

/-- Puts a digit or point in front: into the first token if it touches that
    one, else as a number of its own. -/
def pushNumeric (c : Char) (touches : Bool) (s : Scan) : Scan :=
  match touches, s.tokens with
  | true, t :: rest => { s with tokens := ⟨.number, c :: t.content⟩ :: rest }
  | _, _ => s.push ⟨.number, [c]⟩

end Scan

namespace Token

/-- The characters of numbers. -/
def isNumeric (c : Char) : Bool := c.isDigit || c == '.'

/-- The tokens of a text. -/
def scan : Text → Scan
  | [] => ⟨[], none⟩
  | c :: t =>
      if Text.isBlank c then scan t
      else if isNumeric c then
        (scan t).pushNumeric c (t.head?.any isNumeric)
      else if (Operator.ofSymbol? c).isSome then
        (scan t).push ⟨.operator, [c]⟩
      else if c = '(' ∨ c = ')' then (scan t).push ⟨.parenthesis, [c]⟩
      else ⟨[], some (.unknown [c])⟩

end Token

end Keypad
