import Keypad.Number.Numeral
import Keypad.Program
import Keypad.Token

/-! # The yard — from tokens to a program

    Tokens arrive in reading order and leave in postfix order.  Numbers go
    straight to the output; signs, operators and opening parentheses wait on
    a stack.  An operator sends ahead of it everything waiting that binds at
    least as tightly, and a closing parenthesis everything back to its
    partner.

    What a token means depends on the slot it falls into: where an operand
    is due, `+` and `-` are signs and only `(` may stand; after an operand,
    they are operators and only `)` may stand. -/

namespace Keypad

/-- What may come next. -/
inductive Slot where
  /-- A number, a sign or an opening parenthesis. -/
  | operand
  /-- An operator or a closing parenthesis. -/
  | operator
deriving DecidableEq, Repr

/-- What waits on the stack. -/
inductive Entry where
  | parenthesis
  | sign (s : Sign)
  | operator (o : Operator)
deriving DecidableEq, Repr

namespace Entry

def isParenthesis : Entry → Bool
  | .parenthesis => true
  | _ => false

/-- How tightly an entry binds: signs tightest, and no operator gets past a
    parenthesis. -/
def rank : Entry → Nat
  | .parenthesis => 0
  | .sign _ => 3
  | .operator o => o.rank

/-- The step of a program that an entry turns into. -/
def node? : Entry → Option Node
  | .parenthesis => none
  | .sign s => some (.sign s)
  | .operator o => some (.operator o)

end Entry

/-- A program in the making. -/
structure Yard where
  /-- The steps that are settled, in order. -/
  output : Program
  /-- What waits, the latest first. -/
  stack : List Entry
deriving DecidableEq

namespace Yard

/-- Nothing settled and nothing waiting. -/
def empty : Yard := ⟨[], []⟩

/-- Settles a step. -/
def emit (n : Node) (y : Yard) : Yard := { y with output := y.output ++ [n] }

/-- Makes an entry wait. -/
def push (e : Entry) (y : Yard) : Yard := { y with stack := e :: y.stack }

/-- Settles the waiting entries, latest first, as long as they satisfy `p`. -/
def release (p : Entry → Bool) (y : Yard) : Yard :=
  { output := y.output ++ (y.stack.takeWhile p).filterMap Entry.node?
    stack := y.stack.dropWhile p }

/-- Takes a closing parenthesis: everything back to the opening one is
    settled.  Without an opening one everything is settled all the same. -/
def close (y : Yard) : Except Fault Slot × Yard :=
  let released := y.release (!·.isParenthesis)
  match released.stack with
  | [] => (.error .unopened, released)
  | _ :: below => (.ok .operator, { released with stack := below })

/-- Takes a token in the given slot: the slot of the next token or a fault,
    and the yard afterwards.  A faulty token changes nothing, except that a
    closing parenthesis without a partner still empties the stack. -/
def feed (slot : Slot) (t : Token) (y : Yard) : Except Fault Slot × Yard :=
  match slot, t.kind with
  | .operand, .number =>
      match Numeral.ofText? t.content with
      | some n => (.ok .operator, y.emit (.number n.toFloat))
      | none => (.error (.notANumeral t.content), y)
  | .operand, .operator =>
      match Sign.ofText? t.content with
      | some s => (.ok .operand, y.push (.sign s))
      | none => (.error (.misplacedOperator t.content), y)
  | .operand, .parenthesis =>
      if t.content = ['('] then (.ok .operand, y.push .parenthesis)
      else (.error (.unexpected t.content), y)
  | .operator, .operator =>
      match Operator.ofText? t.content with
      | some o =>
          (.ok .operand,
            (y.release fun e => o.rank ≤ e.rank).push (.operator o))
      | none => (.error (.misplacedOperator t.content), y)
  | .operator, .parenthesis =>
      if t.content = [')'] then y.close
      else (.error (.unexpected t.content), y)
  | .operator, .number => (.error (.unexpected t.content), y)

/-- The finished program: whatever waits is settled, unless an opening
    parenthesis is among it. -/
def finish (y : Yard) : Except Fault Program :=
  if y.stack.any Entry.isParenthesis then .error .unclosed
  else .ok (y.output ++ y.stack.filterMap Entry.node?)

/-! ## Whole texts -/

/-- A slot and the yard reached there. -/
structure State where
  slot : Slot
  yard : Yard
deriving DecidableEq

/-- Nothing read yet, an operand due. -/
def State.start : State := ⟨.operand, empty⟩

/-- Takes one token where the state stands. -/
def State.next (s : State) (t : Token) : Except Fault State :=
  match s.yard.feed s.slot t with
  | (.ok slot, y) => .ok ⟨slot, y⟩
  | (.error f, _) => .error f

/-- Takes tokens one after the other, up to the first fault. -/
def State.read (s : State) (tokens : List Token) : Except Fault State :=
  tokens.foldlM State.next s

/-- The program at the end of the text. -/
def State.finish (s : State) : Except Fault Program :=
  match s.slot with
  | .operand => .error .unfinished
  | .operator => s.yard.finish

end Yard

/-- The program of a plain text.  A token is scanned only after the ones
    before it were taken, so a fault among them comes first. -/
def Program.ofText (t : Text) : Except Fault Program :=
  let scan := Token.scan t
  match Yard.State.start.read scan.tokens, scan.fault with
  | .error f, _ => .error f
  | .ok _, some f => .error f
  | .ok s, none => s.finish

end Keypad
