import Keypad.Fault
import Keypad.Operator

/-! # Keys — what can be pressed

    A key is one element of an expression and moves, goes in and comes out
    as a whole.  The answer key shows as three characters, every other key
    as one.  Keys are also named by text: by what they show, or by a
    keyboard's spelling of multiplication and division. -/

namespace Keypad

/-- A key of the keypad that puts something into the expression. -/
inductive Key where
  | digit (d : Fin 10)
  | point
  | operator (o : Operator)
  /-- The opening parenthesis. -/
  | opening
  /-- The closing parenthesis. -/
  | closing
  /-- The answer of the last successful commit. -/
  | answer
deriving DecidableEq, Repr

namespace Key

/-- What the answer key shows. -/
def answerName : Text := ['A', 'N', 'S']

/-- What a key shows. -/
def text : Key → Text
  | .digit d => [Nat.digitChar d]
  | .point => ['.']
  | .operator o => [o.glyph]
  | .opening => ['(']
  | .closing => [')']
  | .answer => answerName

/-! ## Kinds of keys -/

def isOperator : Key → Bool
  | .operator _ => true
  | _ => false

def isDigit : Key → Bool
  | .digit _ => true
  | _ => false

/-- Digits and points, which make up numbers. -/
def isNumeric : Key → Bool
  | .digit _ | .point => true
  | _ => false

/-- Keys that carry a value: digits, points and the answer. -/
def isOperand : Key → Bool
  | .digit _ | .point | .answer => true
  | _ => false

/-- Keys that may stand at the very start of an expression. -/
def canStart : Key → Bool
  | .digit _ | .opening | .answer | .operator .subtract => true
  | _ => false

/-! ## Names -/

/-- The key that a single character names. -/
def ofChar? (c : Char) : Option Key :=
  if c.isDigit then some (.digit (Fin.ofNat 10 (c.toNat - '0'.toNat)))
  else
    match c with
    | '.' => some .point
    | '+' => some (.operator .add)
    | '-' => some (.operator .subtract)
    | '×' | 'x' | '*' => some (.operator .multiply)
    | '÷' | '/' => some (.operator .divide)
    | '%' => some (.operator .remainder)
    | '(' => some .opening
    | ')' => some .closing
    | _ => none

/-- The key that a text names. -/
def ofText (t : Text) : Except Fault Key :=
  if t = answerName then .ok .answer
  else
    match t with
    | [c] =>
        match ofChar? c with
        | some k => .ok k
        | none => .error (.unknown t)
    | _ => .error (.unknown t)

theorem ofChar?_digitChar : ∀ d : Fin 10,
    ofChar? (Nat.digitChar d) = some (.digit d) := by
  decide

/-- A key is named by what it shows. -/
@[simp] theorem ofText_text (k : Key) : ofText k.text = .ok k := by
  cases k with
  | digit d => simp [ofText, text, answerName, ofChar?_digitChar]
  | operator o => cases o <;> rfl
  | _ => rfl

end Key

/-- What a list of keys shows. -/
def keysText (keys : List Key) : Text := keys.flatMap Key.text

@[simp] theorem keysText_nil : keysText [] = [] := rfl

@[simp] theorem keysText_cons (k : Key) (keys : List Key) :
    keysText (k :: keys) = k.text ++ keysText keys := rfl

@[simp] theorem keysText_append (a b : List Key) :
    keysText (a ++ b) = keysText a ++ keysText b := by
  simp [keysText]

end Keypad
