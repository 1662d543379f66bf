/-! # Text — characters in reading order

    The calculator works on texts as lists of characters, so that every
    reader of a text is an ordinary recursion over a list.  This file fixes
    the type, the class of blank characters and the two trimming operations
    that the preview needs.  Strings appear only where a program meets the
    outside. -/

namespace Keypad

/-- A text, one character an element. -/
abbrev Text := List Char

namespace Text

/-! ## Blank characters

    A character is blank when it has the property White_Space, twenty-five
    characters in ten ranges.  The table is stated in full, so a character
    outside ASCII is judged like any other. -/

/-- The closed ranges of blank code points, ascending and apart. -/
def blankRanges : List (Nat × Nat) :=
  [(0x09, 0x0D), (0x20, 0x20), (0x85, 0x85), (0xA0, 0xA0), (0x1680, 0x1680),
   (0x2000, 0x200A), (0x2028, 0x2029), (0x202F, 0x202F), (0x205F, 0x205F),
   (0x3000, 0x3000)]

/-- A character with the property White_Space. -/
def isBlank (c : Char) : Bool :=
  blankRanges.any fun r => r.1 ≤ c.toNat && c.toNat ≤ r.2

/-! ## Trimming -/

/-- The text without the longest tail whose characters all satisfy `p`. -/
def trimEnd (p : Char → Bool) (t : Text) : Text :=
  (t.reverse.dropWhile p).reverse

/-- The text without blanks at either end. -/
def trim (t : Text) : Text :=
  trimEnd isBlank (t.dropWhile isBlank)

@[simp] theorem trimEnd_nil (p : Char → Bool) : trimEnd p [] = [] := rfl

/-- A tail of the class is dropped as a whole. -/
theorem trimEnd_append {p : Char → Bool} (t : Text) {tail : Text}
    (h : ∀ c ∈ tail, p c = true) : trimEnd p (t ++ tail) = trimEnd p t := by
  have hreverse : ∀ c ∈ tail.reverse, p c = true := fun c hc =>
    h c (List.mem_reverse.mp hc)
  rw [trimEnd, List.reverse_append, List.dropWhile_append_of_pos hreverse]
  rfl

/-- Nothing is dropped behind a last character outside the class. -/
theorem trimEnd_eq_self {p : Char → Bool} {t : Text}
    (h : ∀ c ∈ t.getLast?, p c = false) : trimEnd p t = t := by
  rw [← List.head?_reverse] at h
  rw [trimEnd]
  cases hreverse : t.reverse with
  | nil => exact (List.reverse_eq_nil_iff.mp hreverse).symm
  | cons c u =>
      rw [hreverse] at h
      rw [List.dropWhile_cons_of_neg (Bool.eq_false_iff.mp (h c rfl)),
        ← hreverse, List.reverse_reverse]

/-- What is left does not end in the class. -/
theorem of_getLast?_trimEnd {p : Char → Bool} {t : Text} {c : Char}
    (h : c ∈ (trimEnd p t).getLast?) : p c = false := by
  rw [trimEnd, List.getLast?_reverse, Option.mem_def] at h
  have hstop := List.head?_dropWhile_not p t.reverse
  rw [h] at hstop
  exact hstop

/-- What is trimmed off the end is of the class. -/
theorem exists_trimEnd_append (p : Char → Bool) (t : Text) :
    ∃ tail, t = trimEnd p t ++ tail ∧ ∀ c ∈ tail, p c = true := by
  refine ⟨(t.reverse.takeWhile p).reverse, ?_, ?_⟩
  · rw [trimEnd, ← List.reverse_append, List.takeWhile_append_dropWhile,
      List.reverse_reverse]
  · intro c hc
    exact List.all_eq_true.mp List.all_takeWhile c (List.mem_reverse.mp hc)

/-! ## Names in a text -/

/-- A name in front of a character that is none of its letters ends there. -/
theorem isPrefix_of_isPrefix_append {w s t : Text} {c : Char} (hc : c ∉ w)
    (h : w <+: s ++ c :: t) : w <+: s := by
  have hs : s ++ [c] <+: s ++ c :: t := ⟨t, List.append_assoc s [c] t⟩
  rcases List.prefix_or_prefix_of_prefix h hs with hshort | hlong
  · rcases List.prefix_concat_iff.mp hshort with rfl | hw
    · exact absurd (List.mem_append_right s List.mem_cons_self) hc
    · exact hw
  · exact absurd (hlong.subset (List.mem_append_right s List.mem_cons_self)) hc

end Text

end Keypad
