import Keypad.Number.Binary64

/-! # Remainder — what division toward zero leaves

    The remainder of finite floats is exact: both are brought to the same
    power of two, where it is a remainder of natural numbers.  It has the
    sign of the dividend, also when it is zero. -/

namespace Keypad

namespace SignedDyadic

/-- The remainder of dyadic numbers, with the sign of the dividend. -/
def remainder (a b : SignedDyadic) : SignedDyadic :=
  let e := min a.exponent b.exponent
  { negative := a.negative
    mantissa :=
      a.mantissa <<< (a.exponent - e).toNat
        % (b.mantissa <<< (b.exponent - e).toNat)
    exponent := e }

end SignedDyadic

/-- The remainder of floats.  A zero divisor, an infinite dividend and an
    operand that is not a number leave no number; an infinite divisor leaves
    the dividend. -/
def Binary64.remainder (x y : Float) : Float :=
  match SignedDyadic.ofFloat? x, SignedDyadic.ofFloat? y with
  | some a, some b => if b.mantissa = 0 then nan else (a.remainder b).toFloat
  | some _, none => if y.isNaN then nan else x
  | none, _ => nan

end Keypad
