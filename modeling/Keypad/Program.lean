import Keypad.Fault
import Keypad.Operator

/-! # Programs — arithmetic in postfix order

    A program lists numbers, signs and operators so that each operation
    comes after its operands.  Running it needs a stack of values and no
    parentheses.  A program has a value when its run leaves exactly one
    value and that value is finite; values in between may be anything. -/

namespace Keypad

/-- One step of a program. -/
inductive Node where
  /-- Put a number on the stack. -/
  | number (x : Float)
  /-- Sign the topmost value. -/
  | sign (s : Sign)
  /-- Combine the two topmost values, the lower one on the left. -/
  | operator (o : Operator)
deriving DecidableEq

/-- Arithmetic in postfix order. -/
abbrev Program := List Node

namespace Program

/-- One step on a stack of values, topmost first; nothing when an operand is
    missing. -/
def step : List Float → Node → Option (List Float)
  | stack, .number x => some (x :: stack)
  | x :: stack, .sign s => some (s.apply x :: stack)
  | y :: x :: stack, .operator o => some (o.apply x y :: stack)
  | _, _ => none

/-- The stack that a program leaves behind, starting from `stack`. -/
def run (stack : List Float) (p : Program) : Option (List Float) :=
  p.foldlM step stack

/-- The value of a program. -/
def evaluate (p : Program) : Except Fault Float :=
  match run [] p with
  | some [x] => if x.isFinite then .ok x else .error .notFinite
  | _ => .error .unfinished

@[simp] theorem run_nil (stack : List Float) : run stack [] = some stack := rfl

theorem run_cons (stack : List Float) (n : Node) (p : Program) :
    run stack (n :: p) = (step stack n).bind fun s => run s p := rfl

theorem run_append (stack : List Float) (p q : Program) :
    run stack (p ++ q) = (run stack p).bind fun s => run s q := by
  show List.foldlM step stack (p ++ q) = _
  rw [List.foldlM_append]
  rfl

end Program

end Keypad
