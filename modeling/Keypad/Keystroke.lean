import Keypad.Session

/-! # Keystrokes — a session driven by text

    Every keystroke has a written form: a key is written as it shows, a
    command as one character.  Reading a text back is more liberal, for it
    also takes a keyboard's spellings, and it skips what means nothing.  The
    answer's three letters are tried before any single character, so that a
    `C` or an `A` elsewhere is judged on its own. -/

namespace Keypad

/-- One stroke: a key or a command. -/
inductive Keystroke where
  | key (k : Key)
  | command (c : Command)
deriving DecidableEq, Repr

/-- The character that a command is written as. -/
def Command.symbol : Command → Char
  | .delete => '<'
  | .left => '['
  | .right => ']'
  | .commit => '='
  | .clear => 'C'

namespace Keystroke

/-- The written form of a keystroke. -/
def text : Keystroke → Text
  | .key k => k.text
  | .command c => [c.symbol]

/-- The keystroke of a single character. -/
def ofChar? : Char → Option Keystroke
  | 'a' => some (.key .answer)
  | '=' => some (.command .commit)
  | '<' => some (.command .delete)
  | '[' => some (.command .left)
  | ']' => some (.command .right)
  | 'C' | 'c' => some (.command .clear)
  | c => (Key.ofChar? c).map .key

/-- The keystrokes that a text spells, from the left. -/
def ofText : Text → List Keystroke
  | 'A' :: 'N' :: 'S' :: t => .key .answer :: ofText t
  | c :: t => (ofChar? c).toList ++ ofText t
  | [] => []

end Keystroke

namespace Session

/-- Takes a keystroke. -/
def strike (s : Session) (k : Keystroke) : Session :=
  match k with
  | .key k => s.press k
  | .command c => s.obey c

/-- Takes keystrokes one after the other. -/
def strikes (s : Session) (ks : List Keystroke) : Session := ks.foldl strike s

/-- Takes all keystrokes of a text. -/
def type (s : Session) (t : Text) : Session := s.strikes (Keystroke.ofText t)

theorem strikes_append (s : Session) (a b : List Keystroke) :
    s.strikes (a ++ b) = (s.strikes a).strikes b :=
  List.foldl_append

end Session

end Keypad
