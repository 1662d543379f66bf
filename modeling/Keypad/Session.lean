import Keypad.Expression
import Keypad.Guard
import Keypad.Preview

/-! # Sessions — a calculator in use

    A session holds the expression with its caret, the answer of the last
    successful commit, its mode, a banner and the preview.  The display shows
    the expression while it is being edited; a commit puts a banner in its
    place, a result or the marker of a fault, which stays until the next key.
    The answer survives everything but the next successful commit.

    Mode and banner are two fields, and nothing in a session ties the one to
    the other.  That there is no banner exactly while editing is due to how
    sessions come about. -/

namespace Keypad

/-! ## Modes and admission -/

/-- What a session is doing. -/
inductive Mode where
  | editing
  /-- The last commit succeeded and its value is on display. -/
  | resultShown
  /-- The last commit failed and a marker is on display. -/
  | faultShown
deriving DecidableEq, Repr

/-- What a key does to the expression. -/
inductive Admission where
  /-- Nothing. -/
  | rejected
  /-- It goes in at the caret. -/
  | inserted
  /-- The expression starts anew with these keys. -/
  | restarted (keys : List Key)
deriving DecidableEq, Repr

namespace Admission

/-- A new expression with the key, or without any key if the guard refuses
    it there. -/
def fresh (k : Key) : Admission :=
  .restarted (if Context.accepted ⟨[], [], k⟩ then [k] else [])

/-- While editing the guard alone decides.  Over a result, an operator
    continues from the answer and a closing parenthesis is refused.  Over a
    fault every key starts anew. -/
def of (mode : Mode) (e : Expression) (k : Key) : Admission :=
  match mode with
  | .editing =>
      if Context.accepted ⟨e.left, e.right, k⟩ then .inserted else .rejected
  | .resultShown =>
      match k with
      | .closing => .rejected
      | .operator _ => .restarted [.answer, k]
      | _ => fresh k
  | .faultShown => fresh k

end Admission

/-! ## The session -/

/-- A calculator in use. -/
structure Session where
  expression : Expression
  /-- The value of the last successful commit, zero before the first. -/
  answer : Float
  mode : Mode
  /-- What is on display in place of the expression, after a commit. -/
  banner : Option Text
  preview : Preview
deriving DecidableEq

namespace Session

/-- A calculator just switched on. -/
def new : Session := ⟨.empty, 0.0, .editing, none, .placeholder⟩

/-- What is on display. -/
def display (s : Session) : Text :=
  match s.banner with
  | some shown => shown
  | none => s.expression.text

/-- The caret's place on the display: the end of a banner. -/
def caret (s : Session) : Nat :=
  match s.banner with
  | some shown => shown.length
  | none => s.expression.caret

/-- The session with the preview that belongs to its expression. -/
def refresh (s : Session) : Session :=
  { s with preview := .ofKeypad s.answer s.expression.text }

/-- The session editing `e`. -/
def edit (s : Session) (e : Expression) : Session :=
  refresh { s with expression := e, mode := .editing, banner := none }

/-- Takes a key. -/
def press (k : Key) (s : Session) : Session :=
  match Admission.of s.mode s.expression k with
  | .rejected => s
  | .inserted => s.edit (s.expression.insert k)
  | .restarted keys => s.edit (.ofKeys keys)

/-- Takes the key of a name; a name of no key changes nothing. -/
def insert (name : Text) (s : Session) : Session :=
  match Key.ofText name with
  | .ok k => s.press k
  | .error _ => s

/-- Empties the expression and takes the banner away; the answer stays. -/
def clear (s : Session) : Session :=
  { s with
    expression := .empty
    mode := .editing
    banner := none
    preview := .placeholder }

/-- Takes out the key before the caret.  Over a result or a fault it
    clears. -/
def delete (s : Session) : Session :=
  match s.mode with
  | .editing =>
      match s.expression.remove with
      | (some _, e) => refresh { s with expression := e }
      | (none, _) => s
  | _ => s.clear

/-- Moves the caret to the left, while editing. -/
def moveLeft (s : Session) : Session :=
  match s.mode with
  | .editing =>
      { s with expression := s.expression.moveLeft?.getD s.expression }
  | _ => s

/-- Moves the caret to the right, while editing. -/
def moveRight (s : Session) : Session :=
  match s.mode with
  | .editing =>
      { s with expression := s.expression.moveRight?.getD s.expression }
  | _ => s

/-- Evaluates the expression for good.  A success is rounded to what is
    shown and becomes the answer.  Without any key that carries a value
    nothing happens. -/
def commit (s : Session) : Session :=
  if s.expression.keys.any Key.isOperand then
    match evaluateComplete s.answer s.expression.text with
    | .ok x =>
        { expression := .empty
          answer := shownValue x
          mode := .resultShown
          banner := some (shownText (shownValue x))
          preview := .suppressed }
    | .error f =>
        { s with
          expression := .empty
          mode := .faultShown
          banner := some f.marker
          preview := .suppressed }
  else s

/-! ### What is on display -/

section

variable {s : Session} {shown : Text}

theorem display_of_none (h : s.banner = none) :
    s.display = s.expression.text := by
  rw [display, h]

theorem display_of_some (h : s.banner = some shown) : s.display = shown := by
  rw [display, h]

theorem caret_of_none (h : s.banner = none) :
    s.caret = s.expression.caret := by
  rw [caret, h]

theorem caret_of_some (h : s.banner = some shown) :
    s.caret = s.display.length := by
  rw [caret, display_of_some h, h]

end

end Session

/-! ## Commands -/

/-- What a session does besides taking keys. -/
inductive Command where
  | delete
  | left
  | right
  | commit
  | clear
deriving DecidableEq, Repr

namespace Session

/-- Carries out a command. -/
def obey (c : Command) (s : Session) : Session :=
  match c with
  | .delete => s.delete
  | .left => s.moveLeft
  | .right => s.moveRight
  | .commit => s.commit
  | .clear => s.clear

end Session

end Keypad
