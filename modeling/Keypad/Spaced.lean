import Keypad.Text

/-! # Spaced words — what is written, and the blanks around it

    A list of words can be written in many ways, for blanks may stand in front
    of the first word, between the words and behind the last.  This file fixes
    what such a writing is: the words in their order, a text in front of them
    and one behind each. -/

namespace Keypad

/-- Words with the texts around them. -/
structure Spaced (α : Type) where
  /-- What stands in front of the first word. -/
  front : Text
  /-- The words, each with what stands behind it. -/
  words : List (α × Text)
deriving DecidableEq

namespace Spaced

variable {α : Type}

/-- The words alone. -/
def list (s : Spaced α) : List α := s.words.map Prod.fst

/-- The whole text, each word written out by `write`. -/
def text (write : α → Text) (s : Spaced α) : Text :=
  s.front ++ s.words.flatMap fun p => write p.1 ++ p.2

/-- Nothing but blanks stands around the words. -/
structure Blank (s : Spaced α) : Prop where
  front : ∀ c ∈ s.front, Text.isBlank c = true
  behind : ∀ p ∈ s.words, ∀ c ∈ p.2, Text.isBlank c = true

/-! ## The first word

    What stands behind the first word is what stands in front of the others, so
    a text without its first word is again one of spaced words. -/

@[simp] theorem text_nil (write : α → Text) (front : Text) :
    text write ⟨front, []⟩ = front :=
  List.append_nil front

@[simp] theorem text_cons (write : α → Text) (front gap : Text) (a : α)
    (words : List (α × Text)) :
    text write ⟨front, (a, gap) :: words⟩
      = front ++ (write a ++ text write ⟨gap, words⟩) := by
  rw [text, text, List.flatMap_cons, List.append_assoc]

theorem Blank.of_cons {front gap : Text} {a : α} {words : List (α × Text)}
    (h : Blank ⟨front, (a, gap) :: words⟩) : Blank ⟨gap, words⟩ :=
  ⟨h.behind (a, gap) List.mem_cons_self,
    fun p hp => h.behind p (List.mem_cons_of_mem _ hp)⟩

end Spaced

end Keypad
