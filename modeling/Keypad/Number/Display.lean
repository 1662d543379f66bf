import Keypad.Fault
import Keypad.Number.Decimal

/-! # Display — how a value is shown, and what is kept of it

    Values are shown with at most five decimal places.  What the calculator
    keeps as its answer is the value that was shown, not the one that was
    computed, so the next expression works with the number on the display.
    A value that is no finite number is shown as the error marker. -/

namespace Keypad

/-- Values are shown to this many decimal places. -/
def shownPlaces : Nat := 5

/-- The decimal shown for a finite value. -/
def shownDecimal? (x : Float) : Option Decimal := Decimal.ofFloat? shownPlaces x

/-- The text shown for a value. -/
def shownText (x : Float) : Text :=
  match shownDecimal? x with
  | some d => d.text
  | none => Fault.errorMarker

/-- The value that is shown.  Rounding to a decimal keeps the sign, so a
    small negative value becomes the negative zero. -/
def shownValue (x : Float) : Float :=
  match shownDecimal? x with
  | some d => d.toFloat
  | none => x

end Keypad
