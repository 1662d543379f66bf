import Keypad.Number.Decimal

/-! # Numerals — reading a number

    A numeral is an optional sign followed by digits with at most one point
    among or around them and at least one digit, then an optional exponent;
    or by the name of infinity or of the value that is not a number, in
    letters of either case.  A keypad produces only digits and points; the
    further forms belong to numbers that are handed to the reader directly. -/

namespace Keypad

/-- What a text of a number denotes. -/
inductive Numeral where
  | decimal (d : Decimal)
  | infinity (negative : Bool)
  | notANumber
deriving DecidableEq, Repr

namespace Numeral

/-- The float of a numeral, correctly rounded. -/
def toFloat : Numeral → Float
  | .decimal d => d.toFloat
  | .infinity negative => Binary64.ofMagnitude negative Binary64.infinity
  | .notANumber => Binary64.nan

/-- Takes a sign off the front: whether it is a minus, and the rest. -/
def splitSign : Text → Bool × Text
  | '-' :: t => (true, t)
  | '+' :: t => (false, t)
  | t => (false, t)

/-- The number that a run of digits denotes in base ten. -/
def ofDigits (digits : Text) : Nat := Nat.ofDigitChars 10 digits 0

/-- An explicit exponent: a mark, an optional sign and at least one digit.
    Its size is cut off at `limit`, where a larger one changes nothing any
    more. -/
def exponent? (limit : Nat) : Text → Option Int
  | [] => some 0
  | mark :: t =>
      let (negative, digits) := splitSign t
      if (mark == 'e' || mark == 'E') && !digits.isEmpty
          && digits.all Char.isDigit then
        let size : Nat := min limit (ofDigits digits)
        some (if negative then -(size : Int) else size)
      else none

/-- Digits, a point and digits, then an explicit exponent or nothing.  With
    `n` digits an exponent beyond `n + 400` is out of reach of every finite
    float, so the exponent is cut off there. -/
def decimal? (negative : Bool) (t : Text) : Option Numeral :=
  let whole := t.takeWhile Char.isDigit
  let (fraction, tail) :=
    match t.dropWhile Char.isDigit with
    | '.' :: r => (r.takeWhile Char.isDigit, r.dropWhile Char.isDigit)
    | r => ([], r)
  let digits := whole ++ fraction
  if digits.isEmpty then none
  else
    (exponent? (digits.length + 400) tail).map fun e =>
      .decimal ⟨negative, ofDigits digits, e - fraction.length⟩

/-- The numeral that a text is, if it is one. -/
def ofText? (t : Text) : Option Numeral :=
  let (negative, magnitude) := splitSign t
  let name := magnitude.map Char.toLower
  if name = "inf".toList ∨ name = "infinity".toList then
    some (.infinity negative)
  else if name = "nan".toList then some .notANumber
  else decimal? negative magnitude

end Numeral

end Keypad
