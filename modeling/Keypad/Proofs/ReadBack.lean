import Keypad.Proofs.Numerals
import Keypad.Proofs.Rounding

/-! # Reading back — what is shown is read as what is kept

    The answer goes into an expression as the text that is shown for it, so
    it makes a trip through digits.  The trip is without loss.  Digits are
    written in full and only zeros behind the point are left out, so the
    text denotes the shown decimal exactly (`ofText?_magnitudeText`); and
    equal quotients have one nearest float (`Binary64.nearest_congr`), so what
    is read is the float that is kept for that decimal.

    Zero is shown without its sign.  Therefore the negative zero alone comes
    back as another float (`answerFloat_eq`). -/

namespace Keypad

/-! ## Equal quotients -/

namespace Binary64

variable {num den num' den' : Nat}

theorem floorLog_congr (hnum : 0 < num) (hden : 0 < den) (hnum' : 0 < num')
    (hden' : 0 < den') (heq : (num : ℚ) / den = num' / den') :
    floorLog num den = floorLog num' den' := by
  obtain ⟨hlo, hhi⟩ := floorLog_spec hnum' hden'
  rw [← heq] at hlo hhi
  exact floorLog_eq hnum hden hlo hhi

theorem magnitude_zero (den : Nat) : magnitude 0 den = 0 := rfl

/-- Equal quotients have one nearest magnitude. -/
theorem magnitude_congr (hden : 0 < den) (hden' : 0 < den')
    (heq : num * den' = num' * den) :
    magnitude num den = magnitude num' den' := by
  rcases Nat.eq_zero_or_pos num with rfl | hnum
  · rw [Nat.zero_mul] at heq
    rw [(Nat.mul_eq_zero.mp heq.symm).resolve_right hden.ne', magnitude_zero,
      magnitude_zero]
  · have hnum' : 0 < num' := by
      refine Nat.pos_of_mul_pos_right (b := den) ?_
      rw [← heq]
      exact Nat.mul_pos hnum hden'
    have hquotient : (num : ℚ) / den = num' / den' := by
      rw [div_eq_div_iff (by exact_mod_cast hden.ne')
        (by exact_mod_cast hden'.ne')]
      exact_mod_cast heq
    have hplace : lastPlace num den = lastPlace num' den' := by
      rw [lastPlace, lastPlace,
        floorLog_congr hnum hden hnum' hden' hquotient]
    simp only [magnitude, if_neg hnum.ne', if_neg hnum'.ne', hplace,
      Nat.shiftLeft_eq]
    -- the counts of last places are roundings of equal quotients as well
    rw [roundDiv_congr (Nat.mul_pos hden (Nat.two_pow_pos _))
      (Nat.mul_pos hden' (Nat.two_pow_pos _))]
    rw [Nat.mul_mul_mul_comm, heq, Nat.mul_mul_mul_comm]

theorem nearest_congr (negative : Bool) (hden : 0 < den) (hden' : 0 < den')
    (heq : num * den' = num' * den) :
    nearest negative num den = nearest negative num' den' := by
  rw [nearest, nearest, magnitude_congr hden hden' heq]

end Binary64

/-! ## Digits that denote what they were written for -/

namespace Numeral

theorem ofDigits_append (u v : Text) :
    ofDigits (u ++ v) = ofDigits u * 10 ^ v.length + ofDigits v := by
  rw [ofDigits, Nat.ofDigitChars_append, Nat.ofDigitChars_eq_ofDigitChars_zero,
    Nat.mul_comm]
  rfl

theorem ofDigits_replicate_zero (k : Nat) :
    ofDigits (List.replicate k '0') = 0 := by
  induction k with
  | zero => rfl
  | succ k ih =>
      rw [List.replicate_succ, ← List.singleton_append, ofDigits_append, ih,
        show ofDigits ['0'] = 0 from rfl, Nat.zero_mul]

theorem ofDigits_toDigits (n : Nat) : ofDigits (Nat.toDigits 10 n) = n :=
  Nat.ofDigitChars_toDigits (by decide) (by decide)

end Numeral

namespace Decimal

open Numeral (ofDigits ofDigits_append)

/-- The zeros that are left out behind the point are what is missing of its
    places. -/
theorem ofDigits_fractionDigits {places n : Nat} (hplaces : 0 < places)
    (hn : n < 10 ^ places) :
    (fractionDigits places n).length ≤ places
      ∧ ofDigits (fractionDigits places n)
          * 10 ^ (places - (fractionDigits places n).length) = n := by
  have hlength : (List.leftpad places '0' (Nat.toDigits 10 n)).length
      = places := by
    rw [List.length_leftpad]
    exact Nat.max_eq_left
      ((Nat.length_toDigits_le_iff (by decide) hplaces).mpr hn)
  have hvalue : ofDigits (List.leftpad places '0' (Nat.toDigits 10 n)) = n := by
    rw [List.leftpad, ofDigits_append, Numeral.ofDigits_replicate_zero,
      Nat.zero_mul, Nat.zero_add, Numeral.ofDigits_toDigits]
  obtain ⟨tail, hsplit, htail⟩ := Text.exists_trimEnd_append (· == '0')
    (List.leftpad places '0' (Nat.toDigits 10 n))
  have hzeros : tail = List.replicate tail.length '0' := by
    rw [List.eq_replicate_iff]
    exact ⟨rfl, fun c hc => eq_of_beq (htail c hc)⟩
  have hsplit' : List.leftpad places '0' (Nat.toDigits 10 n)
      = fractionDigits places n ++ tail := hsplit
  rw [hsplit'] at hlength hvalue
  rw [List.length_append] at hlength
  rw [ofDigits_append, hzeros, Numeral.ofDigits_replicate_zero,
    List.length_replicate, Nat.add_zero] at hvalue
  refine ⟨by omega, ?_⟩
  rw [show places - (fractionDigits places n).length = tail.length by omega]
  exact hvalue

/-- Places that are left out are shifted from one side to the other. -/
theorem shift_places {whole fraction length places rest : Nat}
    (hlength : length ≤ places)
    (hfraction : fraction * 10 ^ (places - length) = rest) :
    (whole * 10 ^ length + fraction) * 10 ^ places
      = (10 ^ places * whole + rest) * 10 ^ length := by
  have hsplit : 10 ^ places = 10 ^ (places - length) * 10 ^ length := by
    rw [← Nat.pow_add, Nat.sub_add_cancel hlength]
  rw [hsplit, ← hfraction]
  ring

/-- **THE DIGITS THAT ARE SHOWN** denote the count of places they are shown
    for, and a reader reads them so. -/
theorem ofText?_magnitudeText {places : Nat} (hplaces : 0 < places) (n : Nat) :
    ∃ m, Numeral.ofText? (magnitudeText places n) = some m
      ∧ m.toFloat = Binary64.nearest false n (10 ^ places) := by
  have hten : 0 < 10 ^ places := Nat.pow_pos (by decide)
  obtain ⟨hlength, hfraction⟩ :=
    ofDigits_fractionDigits hplaces (Nat.mod_lt n hten)
  obtain ⟨fraction, htext, -, hgetD⟩ := exists_magnitudeText_eq places n
  have hne : Nat.toDigits 10 (n / 10 ^ places) ++ fraction.getD [] ≠ [] :=
    List.append_ne_nil_of_left_ne_nil Nat.toDigits_ne_nil _
  have hall : ∀ c ∈ Nat.toDigits 10 (n / 10 ^ places) ++ fraction.getD [],
      c.isDigit = true := by
    intro c hc
    rw [hgetD] at hc
    rcases List.mem_append.mp hc with hw | hf
    · exact Nat.isDigit_of_mem_toDigits (by decide) (by decide) hw
    · exact isDigit_of_mem_fractionDigits hf
  refine ⟨_, by rw [htext]; exact Numeral.ofText?_digitsText hne hall, ?_⟩
  rw [Numeral.toFloat_digitsDecimal, hgetD]
  refine Binary64.nearest_congr false (Nat.pow_pos (by decide)) hten ?_
  -- both sides are the count with all its places
  rw [ofDigits_append, Numeral.ofDigits_toDigits]
  rw [shift_places hlength hfraction, Nat.div_add_mod]

end Decimal

/-! ## The answer and its text -/

open Phrase (answerFloat)

/-- **THE ANSWER COMES BACK**: what is read from the text of a finite value is
    what is kept of the value, unless that is the negative zero, whose text
    has no sign. -/
theorem answerFloat_eq {x : Float} (h : x.isFinite = true) :
    answerFloat x = shownValue x
      ∨ shownValue x = -0.0 ∧ answerFloat x = 0.0 := by
  rw [← SignedDyadic.isSome_ofFloat?] at h
  obtain ⟨d, hd⟩ := Option.isSome_iff_exists.mp h
  have hkept := shownValue_of_ofFloat? hd
  have htext := shownText_of_ofFloat? hd
  generalize d.negative = negative at hkept htext
  generalize d.shownCount = count at hkept htext
  obtain ⟨m, hm, hvalue⟩ :=
    Decimal.ofText?_magnitudeText (show 0 < 5 by decide) count
  by_cases hminus : negative = true ∧ count ≠ 0
  · left
    obtain ⟨n, n', hn, hn', hneg⟩ := (Decimal.shown_magnitudeText 5 count).reads
    rw [hm] at hn
    obtain rfl := Option.some.inj hn
    rw [if_pos hminus] at htext
    rw [answerFloat, htext, hn', hkept, hminus.1]
    show n'.toFloat = _
    rw [hneg, hvalue, Binary64.neg_nearest]
    rfl
  · rw [if_neg hminus] at htext
    have hread : answerFloat x = Binary64.nearest false count (10 ^ 5) := by
      rw [answerFloat, htext, hm]
      exact hvalue
    rw [hread, hkept]
    cases negative with
    | false => exact Or.inl rfl
    | true =>
        -- a negative number is shown without its sign if it is zero
        obtain rfl : count = 0 := by
          by_contra hcount
          exact hminus ⟨rfl, hcount⟩
        exact Or.inr ⟨by decide +kernel, by decide +kernel⟩

end Keypad
