import Keypad.Key
import Keypad.Sentence
import Mathlib.Data.List.Forall2

/-! # Readings — what keys stand for, word by word

    Keys make up words: an unbroken run of digits and points is one word, and
    every other key is a word of its own.  So the answer is one operand, no
    matter what is typed next to it.  Each word stands for a lexeme, and a
    product is implied where a group follows an operand or a group, and where
    an operand follows a group. -/

namespace Keypad

namespace Reading

/-- The words that keys make up. -/
def words (keys : List Key) : List (List Key) :=
  keys.splitBy fun a b => a.isNumeric && b.isNumeric

/-- What a word stands for, with `x` for the answer. -/
inductive Denotes (x : Float) : List Key → Lexeme → Prop where
  | number {run : List Key} {y : Float} :
      (∀ k ∈ run, k.isNumeric = true) → Numeral.Written (keysText run) y →
      Denotes x run (.number y)
  | answer : Denotes x [.answer] (.number x)
  | operator (o : Operator) : Denotes x [.operator o] (.operator o)
  | opening : Denotes x [.opening] .opening
  | closing : Denotes x [.closing] .closing

/-- Two lexemes with an implied product between them. -/
def implies : Lexeme → Lexeme → Bool
  | .number _, .opening | .closing, .opening | .closing, .number _ => true
  | _, _ => false

/-- Puts a sign where a product is implied. -/
def withProducts : List Lexeme → List Lexeme
  | a :: b :: w =>
      if implies a b then a :: .operator .multiply :: withProducts (b :: w)
      else a :: withProducts (b :: w)
  | w => w

theorem withProducts_cons_cons (a b : Lexeme) (w : List Lexeme) :
    withProducts (a :: b :: w)
      = if implies a b then a :: .operator .multiply :: withProducts (b :: w)
        else a :: withProducts (b :: w) := rfl

/-- The first lexeme stays the first. -/
theorem withProducts_cons (a : Lexeme) (w : List Lexeme) :
    ∃ r, withProducts (a :: w) = a :: r := by
  cases w with
  | nil => exact ⟨[], rfl⟩
  | cons b w =>
      rw [withProducts_cons_cons]
      split
      · exact ⟨_, rfl⟩
      · exact ⟨_, rfl⟩

end Reading

/-- The lexemes that keys stand for, with `x` for the answer. -/
def Reading (x : Float) (keys : List Key) (w : List Lexeme) : Prop :=
  ∃ ls, List.Forall₂ (Reading.Denotes x) (Reading.words keys) ls
    ∧ w = Reading.withProducts ls

end Keypad
