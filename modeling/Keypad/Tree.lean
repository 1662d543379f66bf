import Keypad.Program

/-! # Trees — arithmetic by its structure

    A tree is an expression with its structure laid bare: no ranks, no
    parentheses, no order of reading.  Its value is computed from the leaves
    up, the left operand first, and may be anything a float can be.  Its
    postorder is the program that computes that value, and running it puts
    exactly the value on the stack.

    What a sign or an operator does to values is written out here once more,
    as arithmetic; that a step of a program does the same is `value_sign` and
    `value_operator`. -/

namespace Keypad

/-- The structure of an expression. -/
inductive Tree where
  | number (x : Float)
  | sign (s : Sign) (operand : Tree)
  | operator (o : Operator) (left right : Tree)

namespace Tree

/-- The value of a tree, finite or not. -/
def value : Tree → Float
  | .number x => x
  | .sign .positive t => t.value
  | .sign .negative t => -t.value
  | .operator .add l r => l.value + r.value
  | .operator .subtract l r => l.value - r.value
  | .operator .multiply l r => l.value * r.value
  | .operator .divide l r => l.value / r.value
  | .operator .remainder l r => Binary64.remainder l.value r.value

theorem value_sign (s : Sign) (t : Tree) :
    (sign s t).value = s.apply t.value := by
  cases s <;> rfl

theorem value_operator (o : Operator) (l r : Tree) :
    (operator o l r).value = o.apply l.value r.value := by
  cases o <;> rfl

/-- The value under an operator depends on the values of its operands
    alone. -/
theorem value_operator_congr (o : Operator) {l l' r r' : Tree}
    (hl : l'.value = l.value) (hr : r'.value = r.value) :
    (operator o l' r').value = (operator o l r).value := by
  rw [value_operator, value_operator, hl, hr]

/-- The program of a tree: operands first, then what is done with them. -/
def postorder : Tree → Program
  | .number x => [.number x]
  | .sign s t => t.postorder ++ [.sign s]
  | .operator o l r => l.postorder ++ r.postorder ++ [.operator o]

/-- Running the program of a tree adds the value of the tree to the stack. -/
theorem run_postorder (t : Tree) (stack : List Float) :
    Program.run stack t.postorder = some (t.value :: stack) := by
  induction t generalizing stack with
  | number x => rfl
  | sign s t ih =>
      rw [postorder, Program.run_append, ih, value_sign]
      rfl
  | operator o l r ihl ihr =>
      rw [postorder, Program.run_append, Program.run_append, ihl,
        Option.bind_some, ihr, value_operator]
      rfl

end Tree

/-- The program of a tree evaluates to the value of the tree, unless that is
    not finite. -/
theorem Program.evaluate_postorder (t : Tree) :
    evaluate t.postorder
      = if t.value.isFinite then .ok t.value else .error .notFinite := by
  rw [evaluate, t.run_postorder]

end Keypad
