import Keypad.Phrase
import Keypad.Plain
import Keypad.Proofs.Rounding
import Keypad.Token
import Mathlib.Data.List.TakeWhile

/-! # Numerals — digits read and digits shown

    A number in digits, with or without a point, is read as the float
    nearest to it, and a minus in front changes the sign of that float and
    nothing else.  What is shown for a finite value is such a number: it
    starts with a digit or a minus and a digit, and it ends in a digit.  So
    the answer, written out as an operand, is read back as one number, and
    `answer_cases` says as which. -/

namespace Keypad

/-! ## The characters of numbers -/

namespace Token

theorem isNumeric_of_isDigit {c : Char} (h : c.isDigit = true) :
    isNumeric c = true := by
  rw [isNumeric, h]
  rfl

theorem toNat_bounds_of_isNumeric {c : Char} (h : isNumeric c = true) :
    46 ≤ c.toNat ∧ c.toNat ≤ 57 := by
  rcases Bool.or_eq_true _ _ ▸ h with hdigit | hpoint
  · rw [Char.isDigit, Bool.and_eq_true, decide_eq_true_eq,
      decide_eq_true_eq] at hdigit
    exact ⟨Nat.le_trans (by decide) hdigit.1, hdigit.2⟩
  · rw [eq_of_beq hpoint]
    decide

/-- What is a digit is not what is no digit. -/
theorem ne_of_isDigit {c d : Char} (hc : c.isDigit = true)
    (hd : d.isDigit = false) : c ≠ d := by
  intro h
  rw [h, hd] at hc
  cases hc

/-- No character is a part of a number and blank at once. -/
theorem isBlank_of_isNumeric {c : Char} (h : isNumeric c = true) :
    Text.isBlank c = false := by
  have hbounds := toNat_bounds_of_isNumeric h
  rw [Text.isBlank, List.any_eq_false]
  intro r hr
  rw [Bool.and_eq_true, decide_eq_true_eq, decide_eq_true_eq]
  -- no range of blanks reaches into the characters from 46 to 57
  simp only [Text.blankRanges, List.mem_cons, List.not_mem_nil, or_false] at hr
  rcases hr with rfl | rfl | rfl | rfl | rfl | rfl | rfl | rfl | rfl | rfl <;>
    simp only <;> omega

theorem isNumeric_of_isBlank {c : Char} (h : Text.isBlank c = true) :
    isNumeric c = false := by
  by_contra hnumeric
  rw [isBlank_of_isNumeric (Bool.eq_true_of_not_eq_false hnumeric)] at h
  cases h

/-- Digits and points have no lower case. -/
theorem toLower_of_isNumeric {c : Char} (h : isNumeric c = true) :
    c.toLower = c := by
  have hle : c.val.toNat ≤ 57 := (toNat_bounds_of_isNumeric h).2
  have hsmall : ¬ (c.val ≥ 'A'.val ∧ c.val ≤ 'Z'.val) := by
    rintro ⟨hge, -⟩
    have hge' : 65 ≤ c.val.toNat := hge
    omega
  rw [Char.toLower, dif_neg hsmall]

end Token

/-- The digit of a key is a digit. -/
theorem Key.isDigit_digitChar (d : Fin 10) :
    (Nat.digitChar d).isDigit = true :=
  Nat.isDigit_digitChar.trans (decide_eq_true d.isLt)

/-! ## Reading digits -/

namespace Numeral

/-- Digits, with a point and more digits or without. -/
def digitsText (whole : Text) : Option Text → Text
  | none => whole
  | some fraction => whole ++ '.' :: fraction

/-- The number in digits, as a decimal. -/
def digitsDecimal (negative : Bool) (whole : Text) (fraction : Option Text) :
    Decimal :=
  ⟨negative, ofDigits (whole ++ fraction.getD []),
    -((fraction.getD []).length : Int)⟩

/-- The name of a number that has no digits. -/
private theorem name_ne {c : Char} {name : Text} (t : Text)
    (h : Token.isNumeric c = true)
    (hname : name.head?.any Token.isNumeric = false) :
    (c :: t).map Char.toLower ≠ name := by
  intro heq
  rw [List.map_cons, Token.toLower_of_isNumeric h] at heq
  rw [← heq] at hname
  exact absurd h (Bool.eq_false_iff.mp hname)

/-- A text that starts with a digit or a point has digits or nothing. -/
private theorem named_of_numeric {c : Char} (negative : Bool) (t : Text)
    (h : Token.isNumeric c = true) :
    (if (c :: t).map Char.toLower = "inf".toList
        ∨ (c :: t).map Char.toLower = "infinity".toList
      then some (infinity negative)
      else if (c :: t).map Char.toLower = "nan".toList then some notANumber
      else decimal? negative (c :: t)) = decimal? negative (c :: t) := by
  rw [if_neg (not_or.mpr ⟨name_ne t h (by decide), name_ne t h (by decide)⟩),
    if_neg (name_ne t h (by decide))]

/-- A text that starts with a digit or a point is read without a sign. -/
theorem ofText?_of_numeric {c : Char} (t : Text)
    (h : Token.isNumeric c = true) :
    ofText? (c :: t) = decimal? false (c :: t) := by
  -- neither sign is a digit or a point
  have hsign : splitSign (c :: t) = (false, c :: t) := by
    simp only [splitSign]
    split
    · rename_i heq
      rw [(List.cons.inj heq).1] at h
      cases h
    · rename_i heq
      rw [(List.cons.inj heq).1] at h
      cases h
    · rfl
  simp only [ofText?, hsign]
  exact named_of_numeric false t h

/-- A minus in front of a digit or a point is a sign. -/
theorem ofText?_minus_of_numeric {c : Char} (t : Text)
    (h : Token.isNumeric c = true) :
    ofText? ('-' :: c :: t) = decimal? true (c :: t) := by
  simp only [ofText?, splitSign]
  exact named_of_numeric true t h

/-- A number in digits is read as its decimal. -/
theorem decimal?_digitsText (negative : Bool) {whole : Text}
    {fraction : Option Text} (hne : whole ++ fraction.getD [] ≠ [])
    (hall : ∀ c ∈ whole ++ fraction.getD [], c.isDigit = true) :
    decimal? negative (digitsText whole fraction)
      = some (.decimal (digitsDecimal negative whole fraction)) := by
  have hwhole : ∀ c ∈ whole, c.isDigit = true := fun c hc =>
    hall c (List.mem_append_left _ hc)
  have hempty : (whole ++ fraction.getD []).isEmpty = false := by
    rw [List.isEmpty_eq_false_iff]
    exact hne
  cases fraction with
  | none =>
      have htake : whole.takeWhile Char.isDigit = whole :=
        List.takeWhile_eq_self_iff.mpr hwhole
      have hdrop : whole.dropWhile Char.isDigit = [] :=
        List.dropWhile_eq_nil_iff.mpr hwhole
      simp only [decimal?, digitsText, htake, hdrop]
      rw [Option.getD_none] at hempty
      rw [if_neg (Bool.eq_false_iff.mp hempty)]
      rfl
  | some fraction =>
      have hfraction : ∀ c ∈ fraction, c.isDigit = true := fun c hc =>
        hall c (List.mem_append_right _ hc)
      -- the digits before the point end at the point
      have htake : (whole ++ '.' :: fraction).takeWhile Char.isDigit
          = whole := by
        rw [List.takeWhile_append_of_pos hwhole]
        exact List.append_nil whole
      have hdrop : (whole ++ '.' :: fraction).dropWhile Char.isDigit
          = '.' :: fraction := by
        rw [List.dropWhile_append_of_pos hwhole]
        rfl
      have htake' : fraction.takeWhile Char.isDigit = fraction :=
        List.takeWhile_eq_self_iff.mpr hfraction
      have hdrop' : fraction.dropWhile Char.isDigit = [] :=
        List.dropWhile_eq_nil_iff.mpr hfraction
      simp only [decimal?, digitsText, htake, hdrop, htake', hdrop']
      rw [Option.getD_some] at hempty
      rw [if_neg (Bool.eq_false_iff.mp hempty)]
      show some (Numeral.decimal ⟨negative, _, 0 - (fraction.length : Int)⟩) = _
      rw [Int.zero_sub]
      rfl

theorem isNumeric_of_mem_digitsText {whole : Text} {fraction : Option Text}
    (hall : ∀ c ∈ whole ++ fraction.getD [], c.isDigit = true) :
    ∀ c ∈ digitsText whole fraction, Token.isNumeric c = true := by
  intro c hc
  cases fraction with
  | none =>
      exact Token.isNumeric_of_isDigit (hall c (List.mem_append_left _ hc))
  | some f =>
      rcases List.mem_append.mp hc with hw | hf
      · exact Token.isNumeric_of_isDigit (hall c (List.mem_append_left _ hw))
      · rcases List.mem_cons.mp hf with rfl | hf
        · rfl
        · exact Token.isNumeric_of_isDigit
            (hall c (List.mem_append_right _ hf))

theorem digitsText_ne_nil {whole : Text} {fraction : Option Text}
    (hne : whole ++ fraction.getD [] ≠ []) :
    digitsText whole fraction ≠ [] := by
  cases fraction with
  | none =>
      rw [Option.getD_none, List.append_nil] at hne
      exact hne
  | some f => exact List.append_ne_nil_of_right_ne_nil _ (List.cons_ne_nil _ _)

/-- **A NUMBER IN DIGITS** is read as its decimal. -/
theorem ofText?_digitsText {whole : Text} {fraction : Option Text}
    (hne : whole ++ fraction.getD [] ≠ [])
    (hall : ∀ c ∈ whole ++ fraction.getD [], c.isDigit = true) :
    ofText? (digitsText whole fraction)
      = some (.decimal (digitsDecimal false whole fraction)) := by
  obtain ⟨c, t, htext⟩ := List.exists_cons_of_ne_nil (digitsText_ne_nil hne)
  have hc : Token.isNumeric c = true := isNumeric_of_mem_digitsText hall c
    (htext ▸ List.mem_cons_self ..)
  rw [htext, ofText?_of_numeric t hc, ← htext]
  exact decimal?_digitsText false hne hall

/-- With a minus in front it is the negative decimal. -/
theorem ofText?_minus_digitsText {whole : Text} {fraction : Option Text}
    (hne : whole ++ fraction.getD [] ≠ [])
    (hall : ∀ c ∈ whole ++ fraction.getD [], c.isDigit = true) :
    ofText? ('-' :: digitsText whole fraction)
      = some (.decimal (digitsDecimal true whole fraction)) := by
  obtain ⟨c, t, htext⟩ := List.exists_cons_of_ne_nil (digitsText_ne_nil hne)
  have hc : Token.isNumeric c = true := isNumeric_of_mem_digitsText hall c
    (htext ▸ List.mem_cons_self ..)
  rw [htext, ofText?_minus_of_numeric t hc, ← htext]
  exact decimal?_digitsText true hne hall

/-- The float of a number in digits. -/
theorem toFloat_digitsDecimal (negative : Bool) (whole : Text)
    (fraction : Option Text) :
    (Numeral.decimal (digitsDecimal negative whole fraction)).toFloat
      = Binary64.nearest negative (ofDigits (whole ++ fraction.getD []))
          (10 ^ (fraction.getD []).length) := by
  rw [toFloat, digitsDecimal, Decimal.toFloat_of_places]

/-- The other sign is the negative float. -/
theorem neg_toFloat_digitsDecimal (whole : Text) (fraction : Option Text) :
    -(Numeral.decimal (digitsDecimal false whole fraction)).toFloat
      = (Numeral.decimal (digitsDecimal true whole fraction)).toFloat := by
  rw [toFloat_digitsDecimal, toFloat_digitsDecimal, Binary64.neg_nearest]
  rfl

/-! ## Digits that are shown -/

/-- A number in digits that starts and ends with a digit. -/
def Shown (m : Text) : Prop :=
  ∃ whole fraction, m = digitsText whole fraction ∧ whole ≠ []
    ∧ fraction ≠ some []
    ∧ ∀ c ∈ whole ++ fraction.getD [], c.isDigit = true

namespace Shown

theorem head {m : Text} (h : Shown m) :
    ∃ c t, m = c :: t ∧ c.isDigit = true := by
  obtain ⟨whole, fraction, rfl, hne, -, hall⟩ := h
  obtain ⟨c, t, rfl⟩ := List.exists_cons_of_ne_nil hne
  have hc : c.isDigit = true := hall c (List.mem_append_left _
    (List.mem_cons_self ..))
  cases fraction with
  | none => exact ⟨c, t, rfl, hc⟩
  | some f => exact ⟨c, t ++ '.' :: f, rfl, hc⟩

theorem ne_nil {m : Text} (h : Shown m) : m ≠ [] := by
  obtain ⟨c, t, rfl, -⟩ := h.head
  exact List.cons_ne_nil c t

theorem last {m : Text} (h : Shown m) :
    ∃ c, m.getLast? = some c ∧ c.isDigit = true := by
  obtain ⟨whole, fraction, rfl, hne, hfraction, hall⟩ := h
  cases fraction with
  | none =>
      refine ⟨whole.getLast hne, List.getLast?_eq_some_getLast hne, ?_⟩
      exact hall _ (List.mem_append_left _ (List.getLast_mem hne))
  | some f =>
      have hf : f ≠ [] := fun hnil => hfraction (by rw [hnil])
      refine ⟨f.getLast hf, ?_, ?_⟩
      · rw [digitsText, List.getLast?_append, List.getLast?_cons,
          List.getLast?_eq_some_getLast hf]
        rfl
      · exact hall _ (List.mem_append_right _ (List.getLast_mem hf))

theorem numeric {m : Text} (h : Shown m) :
    ∀ c ∈ m, Token.isNumeric c = true := by
  obtain ⟨whole, fraction, rfl, -, -, hall⟩ := h
  exact isNumeric_of_mem_digitsText hall

/-- Such a number is read, with a minus in front as its negative. -/
theorem reads {m : Text} (h : Shown m) :
    ∃ n n', ofText? m = some n ∧ ofText? ('-' :: m) = some n'
      ∧ n'.toFloat = -n.toFloat := by
  obtain ⟨whole, fraction, rfl, hne, -, hall⟩ := h
  have hne' : whole ++ fraction.getD [] ≠ [] := fun hnil =>
    hne (List.append_eq_nil_iff.mp hnil).1
  exact ⟨_, _, ofText?_digitsText hne' hall, ofText?_minus_digitsText hne' hall,
    (neg_toFloat_digitsDecimal whole fraction).symm⟩

end Shown

end Numeral

/-! ## Values that are shown -/

namespace Decimal

theorem isDigit_of_mem_fractionDigits {places n : Nat} {c : Char}
    (h : c ∈ fractionDigits places n) : c.isDigit = true := by
  have hmem : c ∈ List.leftpad places '0' (Nat.toDigits 10 n) := by
    rw [fractionDigits, Text.trimEnd, List.mem_reverse] at h
    exact List.mem_reverse.mp ((List.dropWhile_sublist _).mem h)
  rcases List.mem_append.mp hmem with hpad | hdigit
  · rw [List.eq_of_mem_replicate hpad]
    rfl
  · exact Nat.isDigit_of_mem_toDigits (by decide) (by decide) hdigit

/-- With a point or without, the text of a count is the number in digits of
    its two parts. -/
theorem exists_magnitudeText_eq (places n : Nat) :
    ∃ fraction, magnitudeText places n
        = Numeral.digitsText (Nat.toDigits 10 (n / 10 ^ places)) fraction
      ∧ fraction ≠ some []
      ∧ fraction.getD [] = fractionDigits places (n % 10 ^ places) := by
  simp only [magnitudeText, Nat.pow_eq]
  split
  · rename_i hnil
    exact ⟨none, rfl, nofun, hnil.symm⟩
  · rename_i hne
    exact ⟨some _, rfl, fun hnil => hne (Option.some.inj hnil), rfl⟩

/-- A count of decimal places is shown in digits. -/
theorem shown_magnitudeText (places n : Nat) :
    Numeral.Shown (magnitudeText places n) := by
  obtain ⟨fraction, htext, hfraction, hgetD⟩ :=
    exists_magnitudeText_eq places n
  refine ⟨_, fraction, htext, Nat.toDigits_ne_nil, hfraction, ?_⟩
  intro c hc
  rw [hgetD] at hc
  rcases List.mem_append.mp hc with hw | hf
  · exact Nat.isDigit_of_mem_toDigits (by decide) (by decide) hw
  · exact isDigit_of_mem_fractionDigits hf

end Decimal

open Phrase (answerFloat) in
/-- **THE ANSWER IS ONE OPERAND**: written out it is a number in digits, or
    such a number with a minus in parentheses, and the float it stands for
    is that number or its negative. -/
theorem answer_cases {answer : Float} (h : answer.isFinite = true) :
    ∃ m n, Numeral.Shown m ∧ Numeral.ofText? m = some n
      ∧ ((Plain.answerOperand answer = m ∧ answerFloat answer = n.toFloat)
        ∨ (Plain.answerOperand answer = '(' :: '-' :: m ++ [')']
          ∧ answerFloat answer = -n.toFloat)) := by
  rw [← SignedDyadic.isSome_ofFloat?] at h
  obtain ⟨d, hd⟩ := Option.isSome_iff_exists.mp h
  -- what is shown is a number in digits, perhaps with a minus
  have hshown : ∃ m, Numeral.Shown m
      ∧ (shownText answer = m ∨ shownText answer = '-' :: m) := by
    refine ⟨Decimal.magnitudeText 5 d.shownCount,
      Decimal.shown_magnitudeText _ _, ?_⟩
    rw [shownText_of_ofFloat? hd]
    split
    · exact Or.inr rfl
    · exact Or.inl rfl
  obtain ⟨m, hm, hcase⟩ := hshown
  obtain ⟨n, n', hn, hn', hneg⟩ := hm.reads
  obtain ⟨c, t, htext, hc⟩ := hm.head
  refine ⟨m, n, hm, hn, ?_⟩
  rcases hcase with hpos | hminus
  · left
    constructor
    · rw [Plain.answerOperand, hpos, htext]
      split
      · rename_i heq
        rw [(List.cons.inj heq).1] at hc
        cases hc
      · rfl
    · rw [answerFloat, hpos, hn]
  · right
    constructor
    · rw [Plain.answerOperand, hminus]
      rfl
    · rw [answerFloat, hminus, hn']
      exact hneg

/-- A value that is no finite number is written out as the error marker. -/
theorem Plain.answerOperand_of_not_isFinite {answer : Float}
    (h : ¬ answer.isFinite = true) :
    Plain.answerOperand answer = Fault.errorMarker := by
  have hnone : shownDecimal? answer = none := by
    rw [isFinite_eq_isSome_shownDecimal?, Bool.not_eq_true,
      Option.isSome_eq_false_iff, Option.isNone_iff_eq_none] at h
    exact h
  rw [Plain.answerOperand, shownText, hnone]
  rfl

end Keypad
