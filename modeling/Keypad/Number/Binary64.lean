import Keypad.Number.Nearest

/-! # Binary64 — exact values of floats, and the float nearest to a quotient

    A finite float is a sign, a natural number and a power of two.
    `SignedDyadic.ofFloat?` reads the three off the bits; `nearest` goes back from
    any non-negative quotient of natural numbers, rounding once.  All
    arithmetic in between is exact, so every operation that is not one of
    the float type's own (five-place decimals, reading a numeral, the
    remainder) is stated on natural numbers.

    The magnitude of a float is its bits without the sign.  For a last place
    of weight 2^e and a rounded count m of that place, the magnitude is
    `(e + 1074) * 2^52 + m` in every case: below the normal range e is -1074
    and the sum is m itself; in the normal range m has 53 bits and its
    leading one adds 1 to the exponent field; and where rounding carries m
    up to 2^53 the sum is the next power of two. -/

namespace Keypad

/-! ## Reading a float -/

/-- The number `mantissa * 2^exponent`, negated if `negative`. -/
structure SignedDyadic where
  negative : Bool
  mantissa : Nat
  exponent : Int
deriving DecidableEq, Repr

namespace SignedDyadic

/-- The magnitude as a quotient: numerator. -/
def num (d : SignedDyadic) : Nat := d.mantissa <<< d.exponent.toNat

/-- The magnitude as a quotient: denominator, a power of two. -/
def den (d : SignedDyadic) : Nat := 1 <<< (-d.exponent).toNat

/-- The exact value of a finite float; nothing for an infinity or NaN. -/
def ofFloat? (x : Float) : Option SignedDyadic :=
  let bits : Nat := x.toBits.toNat
  let field : Nat := (bits >>> 52) % 2048
  let fraction : Nat := bits % (1 <<< 52)
  let negative := bits >>> 63 == 1
  if field = 2047 then none
  else if field = 0 then some ⟨negative, fraction, -1074⟩
  else some ⟨negative, 1 <<< 52 + fraction, (field : Int) - 1075⟩

theorem den_pos (d : SignedDyadic) : 0 < d.den := by
  rw [den, Nat.one_shiftLeft]
  exact Nat.two_pow_pos _

end SignedDyadic

/-! ## Rounding to a float -/

namespace Binary64

/-- The magnitude of infinity. -/
def infinity : Nat := 2047 <<< 52

/-- The float with the given sign and magnitude. -/
def ofMagnitude (negative : Bool) (magnitude : Nat) : Float :=
  Float.ofBits (UInt64.ofNat (negative.toNat <<< 63 + magnitude))

/-- The floor of the binary logarithm of `num / den`, both positive. -/
def floorLog (num den : Nat) : Int :=
  let e : Int := (num.log2 : Int) - den.log2
  if den <<< e.toNat ≤ num <<< (-e).toNat then e else e - 1

/-- The weight of the last place kept for `num / den`, as an exponent of
    two: 52 places after the leading one, but never below 2^-1074. -/
def lastPlace (num den : Nat) : Int :=
  max (floorLog num den - 52) (-1074)

/-- The magnitude nearest to `num / den`.  From halfway beyond the largest
    finite value on it is infinity. -/
def magnitude (num den : Nat) : Nat :=
  if num = 0 then 0
  else
    let e := lastPlace num den
    let count := roundDiv (num <<< (-e).toNat) (den <<< e.toNat)
    min infinity ((e + 1074).toNat <<< 52 + count)

/-- The float nearest to `num / den`, with the given sign. -/
def nearest (negative : Bool) (num den : Nat) : Float :=
  ofMagnitude negative (magnitude num den)

theorem magnitude_le_infinity (num den : Nat) :
    magnitude num den ≤ infinity := by
  unfold magnitude
  split
  · exact Nat.zero_le _
  · exact Nat.min_le_left ..

/-- The quotient of zeros, which is not a number. -/
def nan : Float := Float.ofBits 0x7ff8000000000000

end Binary64

/-- The float nearest to a dyadic number. -/
def SignedDyadic.toFloat (d : SignedDyadic) : Float :=
  Binary64.nearest d.negative d.num d.den

end Keypad
