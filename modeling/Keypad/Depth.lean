import Keypad.Text

/-! # Depth — parentheses left open

    Reading from the left, an opening parenthesis adds one to the depth and
    a closing one takes one away.  A text whose depth would fall below zero
    has none. -/

namespace Keypad

namespace Text

/-- The depth after one more character. -/
def deepen (d : Nat) (c : Char) : Option Nat :=
  if c = '(' then some (d + 1)
  else if c = ')' then if d = 0 then none else some (d - 1)
  else some d

/-- The depth after a text that starts at depth `d`. -/
def depthFrom (d : Nat) (t : Text) : Option Nat := t.foldlM deepen d

/-- The number of parentheses that a text leaves open; nothing once a
    closing one has no partner. -/
def depth (t : Text) : Option Nat := depthFrom 0 t

/-- All parentheses pair up. -/
def isBalanced (t : Text) : Bool := depth t == some 0

@[simp] theorem depthFrom_nil (d : Nat) : depthFrom d [] = some d := rfl

theorem depthFrom_cons (d : Nat) (c : Char) (t : Text) :
    depthFrom d (c :: t) = (deepen d c).bind fun d' => depthFrom d' t := rfl

theorem depthFrom_append (d : Nat) (s t : Text) :
    depthFrom d (s ++ t) = (depthFrom d s).bind fun d' => depthFrom d' t := by
  show List.foldlM deepen d (s ++ t) = _
  rw [List.foldlM_append]
  rfl

end Text

end Keypad
