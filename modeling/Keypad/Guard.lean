import Keypad.Depth
import Keypad.Key

/-! # The guard — which keys may go in

    Every key that is about to go in between the keys on the left and on the
    right of the caret is judged by seven rules in a fixed order.  A rule
    accepts, rejects or leaves the matter to the rules after it; where none
    decides, the key is accepted.  Six of the rules can only reject; the
    first also accepts any key that may stand alone in an empty
    expression. -/

namespace Keypad

/-- A key and the place where it would go in. -/
structure Context where
  /-- The keys before the caret. -/
  left : List Key
  /-- The keys after the caret. -/
  right : List Key
  /-- The key to be judged. -/
  candidate : Key
deriving DecidableEq, Repr

namespace Context

/-- The key just before the caret. -/
def before (c : Context) : Option Key := c.left.getLast?

/-- The key just after the caret. -/
def after (c : Context) : Option Key := c.right.head?

end Context

/-- The rules of the guard. -/
inductive Rule where
  /-- An expression starts with a key that may start one. -/
  | start
  /-- The only operator after an opening parenthesis is the minus. -/
  | afterOpening
  /-- No operator stands next to another. -/
  | operatorNeighbours
  /-- A closing parenthesis follows an operand and has a partner, and
      nothing incomplete goes in front of one. -/
  | closing
  /-- The answer does not touch another operand. -/
  | answerNeighbours
  /-- A point follows a digit, one in each number. -/
  | point
  /-- An opening parenthesis follows no point and precedes no operator but
      the minus. -/
  | opening
deriving DecidableEq, Repr

namespace Rule

/-- The rules in the order in which they are asked. -/
def all : List Rule :=
  [.start, .afterOpening, .operatorNeighbours, .closing, .answerNeighbours,
   .point, .opening]

/-- The minus, which may also be a sign. -/
def minus : Key := .operator .subtract

/-- Rejects under a condition and leaves the matter open otherwise. -/
def rejectIf (condition : Bool) : Option Bool :=
  if condition then some false else none

/-- The key before a closing parenthesis leaves an operand missing. -/
def lacksOperand : Option Key → Bool
  | none | some .opening | some .point => true
  | some k => k.isOperator

/-- The number around the caret already has a point. -/
def numberHasPoint (c : Context) : Bool :=
  (c.left.reverse.takeWhile Key.isNumeric).contains .point
    || (c.right.takeWhile Key.isNumeric).contains .point

/-- What a rule says: accepted, rejected, or nothing. -/
def verdict : Rule → Context → Option Bool
  | .start, c =>
      if !c.left.isEmpty then none
      else if !c.candidate.canStart then some false
      else if c.right.isEmpty then some true
      else none
  | .afterOpening, c =>
      rejectIf (c.before == some .opening && c.candidate.isOperator
        && c.candidate != minus)
  | .operatorNeighbours, c =>
      rejectIf (c.candidate.isOperator
        && (c.before.any Key.isOperator || c.after.any Key.isOperator))
  | .closing, c =>
      if c.candidate = .closing then
        let closed := keysText (c.left ++ .closing :: c.right)
        rejectIf (lacksOperand c.before || (Text.depth closed).isNone)
      else
        rejectIf (c.after == some .closing
          && (c.candidate.isOperator || c.candidate == .opening))
  | .answerNeighbours, c =>
      match c.candidate with
      | .answer =>
          rejectIf (c.before.any Key.isOperand || c.after.any Key.isOperand)
      | .digit _ | .point =>
          rejectIf (c.before == some .answer || c.after == some .answer)
      | _ => none
  | .point, c =>
      if c.candidate ≠ .point then none
      else if !c.before.any Key.isDigit then some false
      else if c.after == some .opening || c.after == some .answer then
        some false
      else rejectIf (numberHasPoint c)
  | .opening, c =>
      if c.candidate ≠ .opening then none
      else
        rejectIf (c.before == some .point
          || (c.after.any Key.isOperator && c.after != some minus))

end Rule

/-- The first verdict among the rules, acceptance if there is none. -/
def firstVerdict (rules : List Rule) (c : Context) : Option Bool :=
  rules.findSome? fun r => r.verdict c

/-- The key may go in. -/
def Context.accepted (c : Context) : Bool := (firstVerdict Rule.all c).getD true

end Keypad
