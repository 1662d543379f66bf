import Keypad.Number.Binary64
import Keypad.Text

/-! # Decimals — numbers written with digits

    A decimal is a sign, a natural number and a power of ten.  Its float is
    the correct rounding of that exact value, whatever its length.
    `Decimal.ofFloat?` is the other direction at a fixed number of places,
    and `Decimal.text` writes a decimal without an exponent, without
    superfluous zeros and without a sign on zero. -/

namespace Keypad

/-- The number `coefficient * 10^exponent`, negated if `negative`.  Zero
    keeps its sign. -/
structure Decimal where
  negative : Bool
  coefficient : Nat
  exponent : Int
deriving DecidableEq, Repr

namespace Decimal

/-- The float nearest to a decimal: infinity when it is too large, a zero of
    its sign when it is too small. -/
def toFloat (d : Decimal) : Float :=
  Binary64.nearest d.negative
    (d.coefficient * Nat.pow 10 d.exponent.toNat)
    (Nat.pow 10 (-d.exponent).toNat)

/-- The multiple of `10^-places` nearest to the exact value of a finite
    float; a tie goes to the even last digit. -/
def ofFloat? (places : Nat) (x : Float) : Option Decimal :=
  (SignedDyadic.ofFloat? x).map fun d =>
    { negative := d.negative
      coefficient := roundDiv (d.num * Nat.pow 10 places) d.den
      exponent := -(places : Int) }

/-! ## Written form -/

/-- The digits after the point: `n` padded on the left to `places` digits,
    then without its trailing zeros. -/
def fractionDigits (places n : Nat) : Text :=
  Text.trimEnd (· == '0') (List.leftpad places '0' (Nat.toDigits 10 n))

/-- A count of `10^-places` in digits: the integer part in full, and a point
    with the digits after it only where there are any. -/
def magnitudeText (places n : Nat) : Text :=
  let whole := Nat.toDigits 10 (n / Nat.pow 10 places)
  match fractionDigits places (n % Nat.pow 10 places) with
  | [] => whole
  | digits => whole ++ '.' :: digits

/-- The text of a decimal whose exponent is not positive.  A minus sign
    stands before a negative number, never before zero. -/
def text (d : Decimal) : Text :=
  let digits := magnitudeText (-d.exponent).toNat d.coefficient
  if d.negative ∧ d.coefficient ≠ 0 then '-' :: digits else digits

end Decimal

end Keypad
