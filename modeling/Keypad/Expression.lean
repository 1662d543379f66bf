import Keypad.Key

/-! # Expressions — keys with a caret

    An expression is the keys before the caret and the keys after it, both
    in reading order.  Editing happens at the caret only. -/

namespace Keypad

/-- Keys typed so far, parted by the caret. -/
structure Expression where
  /-- The keys before the caret. -/
  left : List Key
  /-- The keys after the caret. -/
  right : List Key
deriving DecidableEq, Repr

namespace Expression

/-- No keys. -/
def empty : Expression := ⟨[], []⟩

/-- The given keys, with the caret at their end. -/
def ofKeys (keys : List Key) : Expression := ⟨keys, []⟩

/-- All keys in reading order. -/
def keys (e : Expression) : List Key := e.left ++ e.right

/-- Puts a key in front of the caret. -/
def insert (k : Key) (e : Expression) : Expression :=
  { e with left := e.left ++ [k] }

/-- Takes out the key just before the caret, if there is one. -/
def remove (e : Expression) : Option Key × Expression :=
  (e.left.getLast?, { e with left := e.left.dropLast })

/-- Moves the caret over the key before it; nothing at the start. -/
def moveLeft? (e : Expression) : Option Expression :=
  e.left.getLast?.map fun k => ⟨e.left.dropLast, k :: e.right⟩

/-- Moves the caret over the key after it; nothing at the end. -/
def moveRight? (e : Expression) : Option Expression :=
  match e.right with
  | [] => none
  | k :: rest => some ⟨e.left ++ [k], rest⟩

/-- What the whole expression shows. -/
def text (e : Expression) : Text := keysText e.keys

/-- The number of characters shown before the caret. -/
def caret (e : Expression) : Nat := (keysText e.left).length

@[simp] theorem keys_insert (k : Key) (e : Expression) :
    (e.insert k).keys = e.left ++ k :: e.right := by
  simp [insert, keys]

/-! ## At the caret

    What happens to a key that stands before the caret, and that the keys in a
    row are the same wherever the caret moves. -/

theorem remove_concat (front : List Key) (k : Key) (right : List Key) :
    remove ⟨front ++ [k], right⟩ = (some k, ⟨front, right⟩) := by
  rw [remove, List.getLast?_concat, List.dropLast_concat]

theorem moveLeft?_concat (front : List Key) (k : Key) (right : List Key) :
    moveLeft? ⟨front ++ [k], right⟩ = some ⟨front, k :: right⟩ := by
  rw [moveLeft?, List.getLast?_concat, List.dropLast_concat]
  rfl

theorem keys_of_moveLeft? {e e' : Expression} (h : e.moveLeft? = some e') :
    e'.keys = e.keys := by
  obtain ⟨k, hlast, rfl⟩ := Option.map_eq_some_iff.mp h
  obtain ⟨front, hfront⟩ := List.getLast?_eq_some_iff.mp hlast
  rw [keys, keys, hfront, List.dropLast_concat, List.append_assoc]
  rfl

theorem keys_of_moveRight? {e e' : Expression} (h : e.moveRight? = some e') :
    e'.keys = e.keys := by
  obtain ⟨left, right⟩ := e
  cases right with
  | nil => cases h
  | cons k right =>
      obtain rfl := Option.some.inj h
      exact List.append_assoc left [k] right

/-! ## What is shown -/

theorem text_eq (e : Expression) :
    e.text = keysText e.left ++ keysText e.right := by
  simp [text, keys]

theorem caret_le_length (e : Expression) : e.caret ≤ e.text.length := by
  simp [caret, text_eq]

end Expression

end Keypad
