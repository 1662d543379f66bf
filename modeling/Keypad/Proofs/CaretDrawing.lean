import Keypad.Proofs.SessionInvariant
import Keypad.Terminal

/-! # Drawing the caret — the bar stands where the next key goes

    Toward: a session is drawn as the keys before the caret, a bar, the keys
    after it and the preview, and over a result or a fault as its banner
    alone.  Display and caret look at the banner, the drawing at the mode, and
    the session invariant brings the two together.

    The caret counts characters, and an encoded text is addressed by bytes.
    The characters of a text do not all take one byte, two operators among
    them, so the place of the bar is looked up among the bytes at which
    characters start, and past the last of them it is the end
    (`Text.byteOffset`).  To put a character in anywhere else would cut
    another one in two (`Text.insertAtByte?`).  The caret is never in such a
    place (`Text.insertAtByte?_byteOffset`). -/

namespace Keypad

/-! ## Bytes of a text -/

namespace Text

/-- The number of bytes that a text takes in UTF-8. -/
def byteLength (t : Text) : Nat := (t.map Char.utf8Size).sum

/-- The bytes at which the characters of a text start, the text itself
    starting at byte `i`. -/
def charOffsets (i : Nat) : Text → List Nat
  | [] => []
  | c :: t => i :: charOffsets (i + c.utf8Size) t

/-- The byte at which the character number `n` starts; the end of the text if
    there is no such character. -/
def byteOffset (t : Text) (n : Nat) : Nat :=
  (charOffsets 0 t)[n]?.getD t.byteLength

/-- The text with a character put in at byte `i`; nothing if a character would
    be cut there or the text is over. -/
def insertAtByte? (c : Char) : Nat → Text → Option Text
  | 0, t => some (c :: t)
  | _ + 1, [] => none
  | i + 1, a :: t =>
      if i + 1 < a.utf8Size then none
      else (insertAtByte? c (i + 1 - a.utf8Size) t).map (a :: ·)

@[simp] theorem byteLength_nil : byteLength [] = 0 := rfl

@[simp] theorem byteLength_cons (c : Char) (t : Text) :
    byteLength (c :: t) = c.utf8Size + byteLength t := by
  simp [byteLength]

/-- A character starts where the characters before it end. -/
theorem getElem?_charOffsets {t : Text} :
    ∀ {n : Nat} (i : Nat), n < t.length →
      (charOffsets i t)[n]? = some (i + byteLength (t.take n)) := by
  induction t with
  | nil =>
      intro n i hn
      exact absurd hn (Nat.not_lt_zero n)
  | cons c t ih =>
      intro n i hn
      cases n with
      | zero => rfl
      | succ n =>
          rw [charOffsets, List.getElem?_cons_succ,
            ih (i + c.utf8Size) (Nat.lt_of_succ_lt_succ hn),
            List.take_succ_cons, byteLength_cons, Nat.add_assoc]

theorem length_charOffsets (t : Text) :
    ∀ i, (charOffsets i t).length = t.length := by
  induction t with
  | nil =>
      intro i
      rfl
  | cons c t ih =>
      intro i
      rw [charOffsets, List.length_cons, ih, List.length_cons]

/-- In front of a character, or at the end, are as many bytes as the
    characters there take. -/
theorem byteOffset_eq (t : Text) (n : Nat) :
    t.byteOffset n = byteLength (t.take n) := by
  rw [byteOffset]
  by_cases hn : n < t.length
  · rw [getElem?_charOffsets 0 hn, Option.getD_some, Nat.zero_add]
  · have hover : t.length ≤ n := Nat.le_of_not_lt hn
    have hnone : (charOffsets 0 t)[n]? = none := by
      rw [List.getElem?_eq_none_iff, length_charOffsets]
      exact hover
    rw [hnone, List.take_of_length_le hover]
    rfl

/-- Between two texts no character is cut. -/
theorem insertAtByte?_append (c : Char) (s t : Text) :
    insertAtByte? c (byteLength s) (s ++ t) = some (s ++ c :: t) := by
  induction s with
  | nil =>
      rw [byteLength_nil, List.nil_append, insertAtByte?]
      rfl
  | cons a s ih =>
      obtain ⟨i, hi⟩ : ∃ i, byteLength (a :: s) = i + 1 := by
        refine Nat.exists_eq_add_one.mpr ?_
        rw [byteLength_cons]
        exact Nat.add_pos_left a.utf8Size_pos _
      have hwhole : ¬ i + 1 < a.utf8Size := by
        rw [← hi, byteLength_cons]
        omega
      have hrest : i + 1 - a.utf8Size = byteLength s := by
        rw [← hi, byteLength_cons]
        omega
      rw [hi, List.cons_append, insertAtByte?, if_neg hwhole, hrest, ih]
      rfl

/-- A character put in at the byte where another one starts, or at the end,
    stands between the characters before and after that place. -/
theorem insertAtByte?_byteOffset (c : Char) (t : Text) (n : Nat) :
    insertAtByte? c (t.byteOffset n) t
      = some (t.take n ++ c :: t.drop n) := by
  have hsplit := insertAtByte?_append c (t.take n) (t.drop n)
  rw [List.take_append_drop] at hsplit
  rw [byteOffset_eq]
  exact hsplit

-- The multiplication sign takes two bytes, and nothing goes between them.
example : insertAtByte? '|' 2 "2×3".toList = none
    ∧ insertAtByte? '|' (byteOffset "2×3".toList 2) "2×3".toList
      = some "2×|3".toList := by decide

end Text

/-! ## The session drawn -/

/-- The caret is on the display, whatever is there. -/
theorem Session.caret_le_length (s : Session) :
    s.caret ≤ s.display.length := by
  cases hbanner : s.banner with
  | none =>
      rw [display_of_none hbanner, caret_of_none hbanner]
      exact s.expression.caret_le_length
  | some shown => exact Nat.le_of_eq (caret_of_some hbanner)

namespace Terminal

variable {s : Session} {last : Option Float}

/-- While editing, the expression is on display, its two sides in a row. -/
theorem display_of_editing (h : s.Coherent last) (hmode : s.mode = .editing) :
    s.display = keysText s.expression.left ++ keysText s.expression.right
      ∧ s.caret = (keysText s.expression.left).length := by
  have hbanner := h.banner_eq_none_iff.mpr hmode
  refine ⟨?_, Session.caret_of_none hbanner⟩
  rw [Session.display_of_none hbanner, Expression.text_eq]

/-- While editing, the bar stands between the two sides. -/
theorem markedDisplay_of_editing (h : s.Coherent last)
    (hmode : s.mode = .editing) :
    markedDisplay s = keysText s.expression.left
      ++ '|' :: keysText s.expression.right := by
  obtain ⟨hdisplay, hcaret⟩ := display_of_editing h hmode
  rw [markedDisplay, hmode, hdisplay, hcaret, List.take_left, List.drop_left]

/-- Over a result or a fault nothing is drawn but the banner. -/
theorem render_of_shown (h : s.Coherent last) (hmode : s.mode ≠ .editing) :
    render s = s.display ++ List.replicate 4 ' '
      ∧ s.caret = s.display.length := by
  have hpreview : s.preview = .suppressed := by
    cases hshown : s.mode with
    | editing => exact absurd hshown hmode
    | resultShown => exact (h.resultShown hshown).2.1
    | faultShown => exact (h.faultShown hshown).2.1
  have hmarked : markedDisplay s = s.display := by
    rw [markedDisplay]
    split
    · rename_i hediting
      exact absurd hediting hmode
    · rfl
  have hbanner : s.banner ≠ none := mt h.banner_eq_none_iff.mp hmode
  obtain ⟨shown, hshown⟩ := Option.ne_none_iff_exists'.mp hbanner
  refine ⟨?_, Session.caret_of_some hshown⟩
  rw [render, hmarked, hpreview]
  exact List.append_nil _

/-- **THE BAR STANDS WHERE THE NEXT KEY GOES**: in every session that a new one
    becomes the caret is on the display.  While editing, the session is drawn
    as the keys before the caret, the bar, the keys after it, four spaces and
    the preview; the byte at which the bar goes in cuts no character; and a
    key that goes in appears in place of the bar.  Over a result or a fault
    the display and four spaces are drawn, and the caret is at the end. -/
theorem render_reached (h : s.Reached last) :
    s.caret ≤ s.display.length
    ∧ (s.mode = .editing →
      render s = keysText s.expression.left
          ++ '|' :: keysText s.expression.right
          ++ List.replicate 4 ' ' ++ s.preview.text
        ∧ Text.insertAtByte? '|' (s.display.byteOffset s.caret) s.display
          = some (keysText s.expression.left
            ++ '|' :: keysText s.expression.right)
        ∧ ∀ k, Admission.of s.mode s.expression k = .inserted →
          (s.press k).display = keysText s.expression.left
            ++ k.text ++ keysText s.expression.right)
    ∧ (s.mode ≠ .editing →
      render s = s.display ++ List.replicate 4 ' '
        ∧ s.caret = s.display.length) := by
  have hcoherent := Session.coherent_of_reached h
  refine ⟨s.caret_le_length, ?_, render_of_shown hcoherent⟩
  intro hmode
  have hmarked := markedDisplay_of_editing hcoherent hmode
  refine ⟨?_, ?_, ?_⟩
  · rw [render, hmarked]
  · rw [Text.insertAtByte?_byteOffset, ← hmarked, markedDisplay, hmode]
  · intro k hk
    rw [Session.press, hk]
    show (s.expression.insert k).text = _
    rw [Expression.text_eq, Expression.insert, keysText_append,
      keysText_cons, keysText_nil, List.append_nil]

/-- The caret behind the answer, with a character of two bytes on each
    side. -/
theorem render_reached_answer :
    ∃ (s : Session) (last : Option Float), s.Reached last
      ∧ s.mode = .editing
      ∧ s.caret = 5 ∧ s.display.byteOffset s.caret = 6
      ∧ render s = "2×ANS|÷4    = 1.5".toList := by
  have hreached : (((((((((Session.new.insert ['3']).commit).insert
      ['2']).insert ['×']).insert "ANS".toList).insert ['÷']).insert
      ['4']).obey .left).obey .left).Reached _ :=
    .obey .left (by decide) (.obey .left (by decide) (.insert _ (.insert _
      (.insert _ (.insert _ (.insert _ (.commit (.insert _ .new))))))))
  obtain ⟨-, hediting, -⟩ := render_reached hreached
  obtain ⟨hrender, -, -⟩ := hediting rfl
  refine ⟨_, _, hreached, rfl, by rfl, by rfl, ?_⟩
  rw [hrender]
  decide +kernel

end Terminal

end Keypad
