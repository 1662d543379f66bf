import Keypad.Number.Remainder
import Keypad.Text

/-! # Operators — the five binary operations and the two signs

    An operator has two spellings: the glyph of its key, and the symbol it
    has in plain arithmetic text.  They differ for multiplication and
    division alone.  Operators of one rank associate to the left, and the
    higher rank binds tighter. -/

namespace Keypad

/-- A binary operation. -/
inductive Operator where
  | add
  | subtract
  | multiply
  | divide
  | remainder
deriving DecidableEq, Repr

namespace Operator

/-- The glyph on the key. -/
def glyph : Operator → Char
  | .add => '+'
  | .subtract => '-'
  | .multiply => '×'
  | .divide => '÷'
  | .remainder => '%'

/-- The symbol in plain arithmetic text. -/
def symbol : Operator → Char
  | .add => '+'
  | .subtract => '-'
  | .multiply => '*'
  | .divide => '/'
  | .remainder => '%'

/-- The operator of a plain symbol. -/
def ofSymbol? : Char → Option Operator
  | '+' => some .add
  | '-' => some .subtract
  | '*' => some .multiply
  | '/' => some .divide
  | '%' => some .remainder
  | _ => none

/-- The operator that a whole text spells. -/
def ofText? : Text → Option Operator
  | [c] => ofSymbol? c
  | _ => none

/-- How tightly the operator binds. -/
def rank : Operator → Nat
  | .add | .subtract => 1
  | .multiply | .divide | .remainder => 2

/-- The operation on floats. -/
def apply : Operator → Float → Float → Float
  | .add, x, y => x + y
  | .subtract, x, y => x - y
  | .multiply, x, y => x * y
  | .divide, x, y => x / y
  | .remainder, x, y => Binary64.remainder x y

@[simp] theorem ofSymbol?_symbol (o : Operator) : ofSymbol? o.symbol = some o := by
  cases o <;> rfl

theorem ofSymbol?_eq_some {c : Char} {o : Operator} :
    ofSymbol? c = some o ↔ c = o.symbol := by
  constructor
  · intro h
    unfold ofSymbol? at h
    split at h <;> cases h <;> rfl
  · rintro rfl
    exact ofSymbol?_symbol o

end Operator

/-- A sign in front of an operand. -/
inductive Sign where
  | positive
  | negative
deriving DecidableEq, Repr

namespace Sign

/-- The sign that a whole text spells. -/
def ofText? : Text → Option Sign
  | ['+'] => some .positive
  | ['-'] => some .negative
  | _ => none

/-- The signed operand. -/
def apply : Sign → Float → Float
  | .positive, x => x
  | .negative, x => -x

end Sign

end Keypad
