import Keypad.Proofs.PhraseValue
import Keypad.Proofs.ReadBack

/-! # The stored answer — a trip through text

    A commit keeps the value that was shown, and the next expression meets it
    as a key.  There it is written out again, with its sign in parentheses,
    and is read by the same scanner as everything else.  The trip starts from
    a value that has been rounded once already, and rounding it again changes
    nothing; so the key stands for the very float that was kept
    (`evaluateComplete_shownValue`).

    The one exception is the negative zero.  It is kept of a small negative
    value, its text is `0`, and what comes back is the zero without a sign.

    The zeros are also the one case in which values look alike and are not
    kept as the same float.  As numbers they are equal all the same, so values
    look alike exactly if what is kept of them are equal numbers
    (`shown_iff_kept`). -/

namespace Keypad

open Phrase (answerFloat)

/-- Zero is written without its sign. -/
theorem answerFloat_negative_zero : answerFloat (-0.0) = 0.0 := by
  decide +kernel

/-- What is kept of a value is read from its own text, but for the sign of
    zero. -/
theorem answerFloat_shownValue {x : Float} (h : x.isFinite = true) :
    answerFloat (shownValue x)
      = if shownValue x = -0.0 then 0.0 else shownValue x := by
  have hkept : (shownValue x).isFinite = true := by
    rw [isFinite_shownValue]
    exact h
  by_cases hzero : shownValue x = -0.0
  · rw [if_pos hzero, hzero]
    exact answerFloat_negative_zero
  · rw [if_neg hzero]
    rcases answerFloat_eq hkept with hread | ⟨hminus, -⟩
    · -- rounding again is what the text does, and it changes nothing
      rw [hread, shownValue_shownValue]
    · rw [shownValue_shownValue] at hminus
      exact absurd hminus hzero

/-- What is read from the text of a finite value is finite. -/
theorem isFinite_answerFloat {x : Float} (h : x.isFinite = true) :
    (answerFloat x).isFinite = true := by
  rcases answerFloat_eq h with hread | ⟨-, hread⟩
  · rw [hread, isFinite_shownValue]
    exact h
  · rw [hread]
    decide +kernel

/-- The answer alone is a complete expression, and its value is the float
    read from its text. -/
theorem evaluateComplete_answerName {answer : Float}
    (hfinite : answer.isFinite = true) :
    evaluateComplete answer Key.answerName = .ok (answerFloat answer) := by
  obtain ⟨w, t, hreads, hatom, hvalue⟩ := Phrase.reads_answer hfinite
  have hsum : Sentence .sum w t := .term (.factor (.unsigned hatom))
  have hwell : malformation? Key.answerName = none := by rfl
  have hplain : Plain.ofKeypad answer Key.answerName
      = Plain.ofKeys answer [.answer] :=
    Plain.ofKeypad_keysText hfinite [.answer]
  rw [evaluateComplete, hwell]
  show evaluatePlain (Plain.ofKeypad answer Key.answerName) = _
  rw [hplain, hreads.evaluatePlain hsum, hvalue,
    if_pos (isFinite_answerFloat hfinite)]

/-- **THE STORED ANSWER COMES BACK**: what is kept of a finite value is
    finite, and the answer key stands for that very float, except that the
    negative zero comes back as zero. -/
theorem evaluateComplete_shownValue {x : Float} (h : x.isFinite = true) :
    (shownValue x).isFinite = true
      ∧ evaluateComplete (shownValue x) Key.answerName
        = .ok (if shownValue x = -0.0 then 0.0 else shownValue x) := by
  have hkept : (shownValue x).isFinite = true := by
    rw [isFinite_shownValue]
    exact h
  refine ⟨hkept, ?_⟩
  rw [evaluateComplete_answerName hkept, answerFloat_shownValue h]

/-- A small negative value leaves a zero behind that has lost its sign once
    it is used. -/
theorem evaluateComplete_small_negative :
    (-0.000001 : Float).isFinite = true
      ∧ shownValue (-0.000001) = -0.0
      ∧ evaluateComplete (shownValue (-0.000001)) Key.answerName
        = .ok 0.0 := by
  have hfinite : (-0.000001 : Float).isFinite = true := by decide +kernel
  have hzero : shownValue (-0.000001) = -0.0 := by decide +kernel
  obtain ⟨-, hback⟩ := evaluateComplete_shownValue hfinite
  rw [if_pos hzero] at hback
  exact ⟨hfinite, hzero, hback⟩

/-! ## Values that look alike -/

/-- Finite floats are equal numbers when they are the same or the two
    zeros. -/
theorem beq_iff_of_isFinite {x y : Float} (hx : x.isFinite = true)
    (hy : y.isFinite = true) :
    (x == y) = true ↔ x = y ∨ (x = 0.0 ∧ y = -0.0) ∨ (x = -0.0 ∧ y = 0.0) := by
  have hnan : ∀ z : Float, z.isFinite = true → z ≠ Float.nan := by
    rintro z hz rfl
    exact absurd hz (by decide +kernel)
  have hzero : (0 : Float) = 0.0 := by decide +kernel
  rw [Float.beq_iff_ne_nan_and_eq, and_iff_right (hnan x hx),
    and_iff_right (hnan y hy), hzero]

theorem shownText_negative_zero : shownText (-0.0) = shownText 0.0 := by
  decide +kernel

/-- Values that look alike are kept as equal numbers, for what is kept of them
    can be read off what they look like. -/
theorem beq_shownValue_of_shownText {u v : Float} (hu : u.isFinite = true)
    (hv : v.isFinite = true) (h : shownText u = shownText v) :
    (shownValue u == shownValue v) = true := by
  have hread : answerFloat u = answerFloat v := by
    rw [answerFloat, answerFloat, h]
  rw [beq_iff_of_isFinite (by rw [isFinite_shownValue]; exact hu)
    (by rw [isFinite_shownValue]; exact hv)]
  rcases answerFloat_eq hu with hkept | ⟨hminus, hzero⟩
  · rcases answerFloat_eq hv with hkept' | ⟨hminus', hzero'⟩
    · exact Or.inl (hkept.symm.trans (hread.trans hkept'))
    · exact Or.inr (Or.inl
        ⟨hkept.symm.trans (hread.trans hzero'), hminus'⟩)
  · rcases answerFloat_eq hv with hkept' | ⟨hminus', -⟩
    · exact Or.inr (Or.inr
        ⟨hminus, hkept'.symm.trans (hread.symm.trans hzero)⟩)
    · exact Or.inl (hminus.trans hminus'.symm)

/-- Values that are kept as equal numbers look alike, the zeros included. -/
theorem shownText_of_beq_shownValue {u v : Float} (hu : u.isFinite = true)
    (hv : v.isFinite = true) (h : (shownValue u == shownValue v) = true) :
    shownText u = shownText v := by
  rw [← shownText_shownValue u, ← shownText_shownValue v]
  rw [beq_iff_of_isFinite (by rw [isFinite_shownValue]; exact hu)
    (by rw [isFinite_shownValue]; exact hv)] at h
  rcases h with hsame | ⟨hzero, hminus⟩ | ⟨hminus, hzero⟩
  · rw [hsame]
  · rw [hzero, hminus, shownText_negative_zero]
  · rw [hminus, hzero, shownText_negative_zero]

/-- **WHAT IS STORED IS WHAT WAS SHOWN**: a value is kept once and for all, it
    is finite when the value is, and it shows as the value does.  Finite
    values look alike exactly if what is kept of them are equal numbers, where
    the zeros of both signs are equal. -/
theorem shown_iff_kept :
    (∀ x : Float, shownValue (shownValue x) = shownValue x
      ∧ ((shownValue x).isFinite = true ↔ x.isFinite = true)
      ∧ shownText (shownValue x) = shownText x)
    ∧ ∀ u v : Float, u.isFinite = true → v.isFinite = true →
      (shownText u = shownText v
        ↔ (shownValue u == shownValue v) = true) := by
  constructor
  · intro x
    refine ⟨shownValue_shownValue x, ?_, shownText_shownValue x⟩
    rw [isFinite_shownValue]
  · intro u v hu hv
    exact ⟨beq_shownValue_of_shownText hu hv, shownText_of_beq_shownValue hu hv⟩

/-- Small values of either sign look alike and are kept as different zeros. -/
theorem shown_iff_kept_small :
    (0.000001 : Float).isFinite = true ∧ (-0.000001 : Float).isFinite = true
      ∧ shownText 0.000001 = shownText (-0.000001)
      ∧ shownValue 0.000001 ≠ shownValue (-0.000001)
      ∧ (shownValue 0.000001 == shownValue (-0.000001)) = true := by
  have hfinite : (0.000001 : Float).isFinite = true := by decide +kernel
  have hfinite' : (-0.000001 : Float).isFinite = true := by decide +kernel
  have htext : shownText 0.000001 = shownText (-0.000001) := by decide +kernel
  exact ⟨hfinite, hfinite', htext, by decide +kernel,
    (shown_iff_kept.2 _ _ hfinite hfinite').mp htext⟩

end Keypad
