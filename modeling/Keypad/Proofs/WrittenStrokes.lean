import Keypad.Proofs.LineByLine
import Keypad.Proofs.Structure
import Keypad.Spaced

/-! # Written strokes — a script says what was written

    Toward: a list of keystrokes, written out with blanks wherever one likes, is
    read back as that list.

    Only one stroke begins with the first letter of the answer, and that stroke
    is the answer itself.  So a script can be read from the left whatever comes
    next: a stroke in front of any text is read before that text
    (`ofText_text_append`), and blanks in front of any text mean nothing
    (`ofText_blanks`).  The list follows by induction, one stroke at a time. -/

namespace Keypad

/-! ## Blanks mean nothing -/

/-- No blank is the name of a key. -/
theorem Key.ofChar?_blank {c : Char} (h : Text.isBlank c = true) :
    Key.ofChar? c = none := by
  have hdigit : c.isDigit = false :=
    (Bool.or_eq_false_iff.mp (Token.isNumeric_of_isBlank h)).1
  unfold Key.ofChar?
  rw [if_neg (Bool.eq_false_iff.mp hdigit)]
  -- none of the names is a blank, so only the last arm is left
  split <;> first | exact absurd h (by decide) | rfl

namespace Keystroke

/-- No blank is a keystroke. -/
theorem ofChar?_blank {c : Char} (h : Text.isBlank c = true) :
    ofChar? c = none := by
  unfold ofChar?
  split <;> first | exact absurd h (by decide) | rw [Key.ofChar?_blank h]; rfl

/-- Blanks in front of a text mean nothing. -/
theorem ofText_blanks {u : Text} (h : ∀ c ∈ u, Text.isBlank c = true)
    (t : Text) : ofText (u ++ t) = ofText t := by
  induction u with
  | nil => rfl
  | cons c u ih =>
      have hc : Text.isBlank c = true := h c List.mem_cons_self
      have hu : ofText (u ++ t) = ofText t :=
        ih fun d hd => h d (List.mem_cons_of_mem c hd)
      have hskip := ofText_append_skip
        (Key.notMem_answerName_of_isBlank hc) (ofChar?_blank hc) [] (u ++ t)
      exact hskip.trans hu

/-! ## One stroke in front -/

/-- A character that names a stroke is read as that stroke, unless it begins
    the name of the answer. -/
theorem ofText_cons_of_ofChar? {c : Char} {k : Keystroke} (hc : c ≠ 'A')
    (hk : ofChar? c = some k) (t : Text) : ofText (c :: t) = k :: ofText t := by
  have hname : ¬ Key.answerName <+: c :: t := by
    intro hprefix
    exact hc (List.cons_prefix_cons.mp hprefix).1.symm
  rw [ofText_cons hname, hk]
  rfl

/-- A digit in front of a text is the digit's key. -/
theorem ofText_digitChar (d : Fin 10) (t : Text) :
    ofText (Nat.digitChar d :: t) = .key (.digit d) :: ofText t := by
  have hA : ∀ d : Fin 10, Nat.digitChar d ≠ 'A' := by decide
  have hread : ∀ d : Fin 10,
      ofChar? (Nat.digitChar d) = some (.key (.digit d)) := by
    decide
  exact ofText_cons_of_ofChar? (hA d) (hread d) t

/-- An operator's glyph in front of a text is the operator's key. -/
theorem ofText_glyph (o : Operator) (t : Text) :
    ofText (o.glyph :: t) = .key (.operator o) :: ofText t := by
  cases o <;> exact ofText_cons_of_ofChar? (by decide) rfl t

/-- A command's symbol in front of a text is the command. -/
theorem ofText_symbol (c : Command) (t : Text) :
    ofText (c.symbol :: t) = .command c :: ofText t := by
  cases c <;> exact ofText_cons_of_ofChar? (by decide) rfl t

/-- **ONE STROKE.**  A written stroke in front of any text is read first, and
    the text is read on its own. -/
theorem ofText_text_append (k : Keystroke) (t : Text) :
    ofText (k.text ++ t) = k :: ofText t := by
  cases k with
  | key k =>
      cases k with
      | digit d => exact ofText_digitChar d t
      | point => exact ofText_cons_of_ofChar? (by decide) rfl t
      | operator o => exact ofText_glyph o t
      | opening => exact ofText_cons_of_ofChar? (by decide) rfl t
      | closing => exact ofText_cons_of_ofChar? (by decide) rfl t
      | answer => rw [ofText.eq_def]; rfl
  | command c => exact ofText_symbol c t

/-! ## All strokes -/

/-- **A SCRIPT SAYS WHAT WAS WRITTEN.**  Keystrokes that are written out with
    blanks in front of them, between them and behind them are read back, each of
    them once and in their order. -/
theorem ofText_spaced (s : Spaced Keystroke) (h : s.Blank) :
    ofText (s.text Keystroke.text) = s.list := by
  obtain ⟨front, words⟩ := s
  induction words generalizing front with
  | nil =>
      rw [Spaced.text_nil, ← List.append_nil front, ofText_blanks h.front]
      rfl
  | cons p words ih =>
      obtain ⟨k, gap⟩ := p
      rw [Spaced.text_cons, ofText_blanks h.front, ofText_text_append,
        ih gap h.of_cons]
      rfl

/-- An answer between two clearings, with wide blanks and without any. -/
theorem ofText_spaced_answer_cleared :
    ofText ['\u3000', 'C', 'A', 'N', 'S', 'C', '\t', '×', '\n'] =
      [.command .clear, .key .answer, .command .clear,
        .key (.operator .multiply)] :=
  ofText_spaced
    ⟨['\u3000'], [(.command .clear, []), (.key .answer, []),
      (.command .clear, ['\t']), (.key (.operator .multiply), ['\n'])]⟩
    ⟨by simp [Text.isBlank, Text.blankRanges],
      by simp [Text.isBlank, Text.blankRanges]⟩

end Keystroke

end Keypad
