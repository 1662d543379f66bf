import Keypad.Proofs.ReadBack

/-! # Canonical text — one number, one way to write it

    Toward: what is shown for a finite value is the canonical text of the
    multiple of 10^-5 nearest to it.

    The two halves are stated without reference to how a text is made.  A
    nearest whole number is one to which no other is nearer, and it is even if
    another one is as near (`NearestInt`).  A canonical text denotes its number
    exactly, by digits of which none is superfluous (`Canonical`).  That there
    is just one of either is what makes them specifications: distances decide
    the first (`NearestInt.unique`), and lengths and values decide the second,
    for digits of one length and one value are the same digits
    (`Numeral.eq_of_ofDigits_eq`). -/

namespace Keypad

/-! ## The nearest whole number -/

/-- A quotient half a unit away from its rounding has half of the divisor as
    its remainder. -/
theorem two_mul_mod_of_tie {num den : Nat} (h : 0 < den)
    (htie : |(num : ℚ) / den - roundDiv num den| = 1 / 2) :
    2 * (num % den) = den := by
  have hden : (den : ℚ) ≠ 0 := by exact_mod_cast h.ne'
  have hhalf : 2 * num = 2 * (den * roundDiv num den) + den
      ∨ 2 * num + den = 2 * (den * roundDiv num den) := by
    rcases (abs_eq (by norm_num)).mp htie with hup | hdown
    · left
      rw [sub_eq_iff_eq_add, div_eq_iff hden] at hup
      have hup' : 2 * (num : ℚ) = 2 * (den * roundDiv num den) + den := by
        rw [hup]
        ring
      exact_mod_cast hup'
    · right
      rw [sub_eq_iff_eq_add, div_eq_iff hden] at hdown
      have hdown' : 2 * (num : ℚ) + den = 2 * (den * roundDiv num den) := by
        rw [hdown]
        ring
      exact_mod_cast hdown'
  have hsum : den * (num / den) + num % den = num := Nat.div_add_mod num den
  have hlt : num % den < den := Nat.mod_lt _ h
  rcases roundDiv_eq_or num den with hround | hround
  · rw [hround] at hhalf
    omega
  · rw [hround, Nat.mul_add, Nat.mul_one] at hhalf
    omega

/-- No whole number is nearer to the number than this one, and only an even one
    is as near as another. -/
structure NearestInt (q : ℚ) (n : ℤ) : Prop where
  closest : ∀ m : ℤ, |q - n| ≤ |q - m|
  even : ∀ m : ℤ, m ≠ n → |q - m| = |q - n| → Even n

namespace NearestInt

variable {q : ℚ} {n m : ℤ}

/-- Two whole numbers are at least one apart. -/
theorem one_le_abs_sub (h : m ≠ n) : (1 : ℚ) ≤ |(n : ℚ) - m| := by
  have hint : (1 : ℤ) ≤ |n - m| := Int.one_le_abs (sub_ne_zero.mpr h.symm)
  exact_mod_cast hint

/-- A whole number within half is nearest, if it is even where it is just half
    away. -/
theorem of_near (hnear : |q - n| ≤ 1 / 2) (htie : |q - n| = 1 / 2 → Even n) :
    NearestInt q n := by
  have hfar : ∀ m : ℤ, m ≠ n → 1 ≤ |q - n| + |q - m| := by
    intro m hm
    have htriangle := abs_sub_le (n : ℚ) q m
    rw [abs_sub_comm (n : ℚ) q] at htriangle
    exact le_trans (one_le_abs_sub hm) htriangle
  constructor
  · intro m
    by_cases hm : m = n
    · rw [hm]
    · have := hfar m hm
      linarith
  · intro m hm hsame
    have := hfar m hm
    exact htie (by linarith)

/-- **ONE NEAREST WHOLE NUMBER.** -/
theorem unique (hn : NearestInt q n) (hm : NearestInt q m) : m = n := by
  by_contra hne
  have hsame : |q - m| = |q - n| := le_antisymm (hm.closest n) (hn.closest m)
  obtain ⟨a, ha⟩ := hn.even m hne hsame
  obtain ⟨b, hb⟩ := hm.even n (Ne.symm hne) hsame.symm
  -- as near as each other, on either side, they have their middle in between
  have hmiddle : q - m = -(q - n) := by
    rcases abs_eq_abs.mp hsame with heq | hneg
    · have heq' : (m : ℚ) = n := by linarith
      exact absurd (by exact_mod_cast heq') hne
    · exact hneg
  have hq : q = ((a + b : ℤ) : ℚ) := by
    rw [ha, hb] at hmiddle
    push_cast at hmiddle ⊢
    linarith
  -- which is a whole number, for both are even
  have hzero : |q - n| ≤ 0 := by
    have hclosest := hn.closest (a + b)
    rwa [← hq, sub_self, abs_zero] at hclosest
  have hqn : q = n := sub_eq_zero.mp (abs_nonpos_iff.mp hzero)
  rw [hqn, sub_self, abs_zero, abs_eq_zero, sub_eq_zero] at hsame
  exact hne (by exact_mod_cast hsame.symm)

theorem neg (h : NearestInt q n) : NearestInt (-q) (-n) := by
  have hflip : ∀ m : ℤ, |-q - ((-m : ℤ) : ℚ)| = |q - m| := by
    intro m
    rw [Int.cast_neg, neg_sub_neg, abs_sub_comm]
  constructor
  · intro m
    rw [hflip, ← neg_neg m, hflip]
    exact h.closest (-m)
  · intro m hm hsame
    rw [hflip, ← neg_neg m, hflip] at hsame
    have heven := h.even (-m) (fun heq => hm (by rw [← heq, neg_neg])) hsame
    exact heven.neg

/-- The rounded quotient is nearest to the quotient. -/
theorem of_roundDiv {num den : Nat} (h : 0 < den) :
    NearestInt ((num : ℚ) / den) (roundDiv num den) := by
  refine of_near ?_ ?_
  · rw [Int.cast_natCast, abs_sub_comm]
    exact abs_roundDiv_sub_le num den h
  · intro htie
    rw [Int.cast_natCast] at htie
    rw [Int.even_coe_nat, Nat.even_iff]
    exact roundDiv_even num den (two_mul_mod_of_tie h htie)

end NearestInt

/-! ## Digits -/

namespace Numeral

theorem ofDigits_cons (c : Char) (u : Text) :
    ofDigits (c :: u) = (c.toNat - 48) * 10 ^ u.length + ofDigits u := by
  have hone : ofDigits [c] = c.toNat - 48 := by
    rw [ofDigits, Nat.ofDigitChars_cons, Nat.mul_zero, Nat.zero_add]
    rfl
  rw [← List.singleton_append, ofDigits_append, hone]

theorem toNat_sub_le {c : Char} (h : c.isDigit = true) : c.toNat - 48 ≤ 9 := by
  have hle : c.toNat ≤ 57 := (Char.isDigit_iff_toNat.mp h).2
  omega

/-- Digits denote less than the next power of ten. -/
theorem ofDigits_lt {u : Text} (h : ∀ c ∈ u, c.isDigit = true) :
    ofDigits u < 10 ^ u.length := by
  induction u with
  | nil => exact Nat.one_pos
  | cons c u ih =>
      have hc : c.toNat - 48 ≤ 9 := toNat_sub_le (h c List.mem_cons_self)
      have hu := ih fun d hd => h d (List.mem_cons_of_mem c hd)
      calc ofDigits (c :: u)
          = (c.toNat - 48) * 10 ^ u.length + ofDigits u := ofDigits_cons c u
        _ < 9 * 10 ^ u.length + 10 ^ u.length :=
            Nat.add_lt_add_of_le_of_lt (Nat.mul_le_mul_right _ hc) hu
        _ = 10 ^ (c :: u).length := by
            rw [List.length_cons, Nat.pow_succ]
            omega

/-- **DIGITS ARE THEIR VALUE**: two runs of digits of one length that denote
    the same are the same. -/
theorem eq_of_ofDigits_eq {u v : Text} (hlength : u.length = v.length)
    (hu : ∀ c ∈ u, c.isDigit = true) (hv : ∀ c ∈ v, c.isDigit = true)
    (h : ofDigits u = ofDigits v) : u = v := by
  induction u generalizing v with
  | nil => exact (List.eq_nil_of_length_eq_zero hlength.symm).symm
  | cons c u ih =>
      cases v with
      | nil => cases hlength
      | cons d v =>
          have hlength' : u.length = v.length := Nat.succ.inj hlength
          have hu' : ∀ a ∈ u, a.isDigit = true := fun a ha =>
            hu a (List.mem_cons_of_mem c ha)
          have hv' : ∀ a ∈ v, a.isDigit = true := fun a ha =>
            hv a (List.mem_cons_of_mem d ha)
          have hul : ofDigits u < 10 ^ u.length := ofDigits_lt hu'
          have hvl : ofDigits v < 10 ^ u.length := hlength' ▸ ofDigits_lt hv'
          rw [ofDigits_cons, ofDigits_cons, ← hlength', Nat.mul_comm,
            Nat.mul_comm (d.toNat - 48)] at h
          -- the first digit is the quotient, the others are the remainder
          have hfirst : c.toNat - 48 = d.toNat - 48 := by
            have hdiv := congrArg (· / 10 ^ u.length) h
            simpa only [Nat.mul_add_div (Nat.pow_pos (by decide : 0 < 10)),
              Nat.div_eq_of_lt hul, Nat.div_eq_of_lt hvl, Nat.add_zero]
              using hdiv
          have hrest : ofDigits u = ofDigits v := by
            rw [hfirst] at h
            exact Nat.add_left_cancel h
          have hc : 48 ≤ c.toNat :=
            (Char.isDigit_iff_toNat.mp (hu c List.mem_cons_self)).1
          have hd : 48 ≤ d.toNat :=
            (Char.isDigit_iff_toNat.mp (hv d List.mem_cons_self)).1
          have hchar : c = d := Char.toNat_inj.mp (by omega)
          rw [ih hlength' hu' hv' hrest, hchar]

theorem isDigit_of_mem_toDigits {n : Nat} {c : Char}
    (h : c ∈ Nat.toDigits 10 n) : c.isDigit = true :=
  Nat.isDigit_of_mem_toDigits (by decide) (by decide) h

/-- The digits of a number begin with a zero only if that is all. -/
theorem toDigits_head (n : Nat) (h : (Nat.toDigits 10 n).head? = some '0') :
    Nat.toDigits 10 n = ['0'] := by
  obtain ⟨u, hu⟩ := List.head?_eq_some_iff.mp h
  have hn : n = ofDigits u := by
    have hvalue := ofDigits_toDigits n
    rw [hu, ofDigits_cons, show '0'.toNat - 48 = 0 from rfl, Nat.zero_mul,
      Nat.zero_add] at hvalue
    exact hvalue.symm
  cases u with
  | nil => exact hu
  | cons d u =>
      -- otherwise the number has fewer digits than it is written with
      have hlt : n < 10 ^ (d :: u).length := by
        rw [hn]
        refine ofDigits_lt fun c hc => isDigit_of_mem_toDigits (n := n) ?_
        rw [hu]
        exact List.mem_cons_of_mem _ hc
      have hle := (Nat.length_toDigits_le_iff (by decide)
        (Nat.succ_pos _)).mpr hlt
      rw [hu] at hle
      exact absurd hle (Nat.not_succ_le_self _)

/-- **DIGITS WITHOUT SUPERFLUOUS ZEROS** are the digits of what they denote. -/
theorem toDigits_ofDigits {u : Text} (hne : u ≠ [])
    (hall : ∀ c ∈ u, c.isDigit = true)
    (hleading : u.head? = some '0' → u = ['0']) :
    Nat.toDigits 10 (ofDigits u) = u := by
  have hle : (Nat.toDigits 10 (ofDigits u)).length ≤ u.length :=
    (Nat.length_toDigits_le_iff (by decide) (List.length_pos_iff.mpr hne)).mpr
      (ofDigits_lt hall)
  have hge : u.length ≤ (Nat.toDigits 10 (ofDigits u)).length := by
    obtain ⟨c, v, rfl⟩ := List.exists_cons_of_ne_nil hne
    cases v with
    | nil => exact List.length_pos_iff.mpr Nat.toDigits_ne_nil
    | cons d v =>
        by_contra hshort
        -- a leading digit other than zero makes the number this long
        have hlt : ofDigits (c :: d :: v) < 10 ^ (d :: v).length :=
          (Nat.length_toDigits_le_iff (by decide) (Nat.succ_pos _)).mp
            (Nat.le_of_lt_succ (Nat.lt_of_not_le hshort))
        have hc : 48 ≤ c.toNat :=
          (Char.isDigit_iff_toNat.mp (hall c List.mem_cons_self)).1
        have hzero : c.toNat ≠ 48 := by
          intro hzero
          obtain rfl : c = '0' := Char.toNat_inj.mp hzero
          cases hleading rfl
        have hpos : 1 ≤ c.toNat - 48 := by omega
        have hmul := Nat.mul_le_mul_right (10 ^ (d :: v).length) hpos
        rw [ofDigits_cons] at hlt
        omega
  exact eq_of_ofDigits_eq (Nat.le_antisymm hle hge)
    (fun c hc => isDigit_of_mem_toDigits hc) hall (ofDigits_toDigits _)

end Numeral

namespace Decimal

open Numeral (ofDigits)

/-! ## Digits behind the point -/

theorem fractionDigits_zero (places : Nat) : fractionDigits places 0 = [] := by
  have hzeros : ∀ c ∈ List.leftpad places '0' (Nat.toDigits 10 0),
      (c == '0') = true := by
    intro c hc
    rcases List.mem_append.mp hc with hpad | hdigit
    · rw [List.eq_of_mem_replicate hpad]
      rfl
    · rw [List.mem_singleton.mp hdigit]
      rfl
  exact Text.trimEnd_append [] hzeros

/-- Up to the last place digits denote less than a whole. -/
theorem ofDigits_mul_lt {places : Nat} {f : Text} (hlength : f.length ≤ places)
    (hall : ∀ c ∈ f, c.isDigit = true) :
    ofDigits f * 10 ^ (places - f.length) < 10 ^ places := by
  calc ofDigits f * 10 ^ (places - f.length)
      < 10 ^ f.length * 10 ^ (places - f.length) :=
        Nat.mul_lt_mul_of_pos_right (Numeral.ofDigits_lt hall)
          (Nat.pow_pos (by decide))
    _ = 10 ^ places := by rw [← Nat.pow_add, Nat.add_sub_cancel' hlength]

/-- **NO ZERO AT THE END**: digits that do not end in a zero are the digits
    behind the point for what they denote there. -/
theorem fractionDigits_ofDigits {places : Nat} {f : Text} (hplaces : 0 < places)
    (hlength : f.length ≤ places) (hall : ∀ c ∈ f, c.isDigit = true)
    (hlast : f.getLast? ≠ some '0') :
    fractionDigits places (ofDigits f * 10 ^ (places - f.length)) = f := by
  -- with zeros up to the last place they are the padded digits
  have hpadded : List.leftpad places '0'
        (Nat.toDigits 10 (ofDigits f * 10 ^ (places - f.length)))
      = f ++ List.replicate (places - f.length) '0' := by
    have hlt := ofDigits_mul_lt hlength hall
    refine Numeral.eq_of_ofDigits_eq ?_ ?_ ?_ ?_
    · rw [List.length_leftpad, List.length_append, List.length_replicate,
        Nat.add_sub_cancel' hlength]
      exact Nat.max_eq_left
        ((Nat.length_toDigits_le_iff (by decide) hplaces).mpr hlt)
    · intro c hc
      rcases List.mem_append.mp hc with hpad | hdigit
      · rw [List.eq_of_mem_replicate hpad]
        rfl
      · exact Numeral.isDigit_of_mem_toDigits hdigit
    · intro c hc
      rcases List.mem_append.mp hc with hf | hzero
      · exact hall c hf
      · rw [List.eq_of_mem_replicate hzero]
        rfl
    · rw [List.leftpad, Numeral.ofDigits_append,
        Numeral.ofDigits_replicate_zero, Nat.zero_mul, Nat.zero_add,
        Numeral.ofDigits_toDigits, Numeral.ofDigits_append,
        Numeral.ofDigits_replicate_zero, List.length_replicate, Nat.add_zero]
  rw [fractionDigits, hpadded, Text.trimEnd_append]
  · refine Text.trimEnd_eq_self ?_
    intro c hc
    rw [beq_eq_false_iff_ne]
    rintro rfl
    exact hlast hc
  · intro c hc
    rw [List.eq_of_mem_replicate hc]
    rfl

end Decimal

/-! ## Canonical texts -/

namespace Numeral

/-- The number that digits before and behind a point denote. -/
def digitsValue (whole : Text) (fraction : Option Text) : ℚ :=
  ofDigits whole + ofDigits (fraction.getD []) / 10 ^ (fraction.getD []).length

/-- The parts of a canonical text with at most so many places: digits that
    denote the number exactly, a sign only for a negative one, no superfluous
    zero in front, and behind the point, which only a number that is not whole
    has, no superfluous zero at the end. -/
structure CanonicalParts (places : Nat) (q : ℚ) (negative : Bool) (whole : Text)
    (fraction : Option Text) : Prop where
  denotes : q = if negative then -digitsValue whole fraction
    else digitsValue whole fraction
  minus : negative = true → q < 0
  digits : ∀ c ∈ whole ++ fraction.getD [], c.isDigit = true
  whole_ne_nil : whole ≠ []
  leading : whole.head? = some '0' → whole = ['0']
  behind : ∀ f ∈ fraction, (∀ k : ℤ, q ≠ k) ∧ 1 ≤ f.length
    ∧ f.length ≤ places ∧ f.getLast? ≠ some '0'

/-- The text is a canonical one of the number: a minus or none, and digits with
    a point or without. -/
def Canonical (places : Nat) (q : ℚ) (t : Text) : Prop :=
  ∃ negative whole fraction, CanonicalParts places q negative whole fraction
    ∧ t = (if negative then ['-'] else []) ++ digitsText whole fraction

variable {places : Nat} {q : ℚ} {negative : Bool} {whole : Text}
  {fraction : Option Text} {t : Text}

/-! ## Counts of places -/

/-- The count of places in a number in digits. -/
def countOf (places : Nat) (whole : Text) (fraction : Option Text) : Nat :=
  10 ^ places * ofDigits whole
    + ofDigits (fraction.getD []) * 10 ^ (places - (fraction.getD []).length)

/-- A number in digits is its count of places. -/
theorem digitsValue_eq (hlength : (fraction.getD []).length ≤ places) :
    digitsValue whole fraction
      = (countOf places whole fraction : ℚ) / 10 ^ places := by
  have hshift : (ofDigits whole * 10 ^ (fraction.getD []).length
        + ofDigits (fraction.getD [])) * 10 ^ places
      = countOf places whole fraction * 10 ^ (fraction.getD []).length :=
    Decimal.shift_places hlength rfl
  have hten : ∀ k : Nat, (10 : ℚ) ^ k ≠ 0 := fun k =>
    pow_ne_zero k (by norm_num)
  rw [digitsValue, add_div' _ _ _ (hten _), div_eq_div_iff (hten _) (hten _)]
  exact_mod_cast hshift

namespace CanonicalParts

theorem length_le (h : CanonicalParts places q negative whole fraction) :
    (fraction.getD []).length ≤ places := by
  cases fraction with
  | none => exact Nat.zero_le places
  | some f => exact (h.behind f rfl).2.2.1

theorem last_ne_zero (h : CanonicalParts places q negative whole fraction) :
    (fraction.getD []).getLast? ≠ some '0' := by
  cases fraction with
  | none => nofun
  | some f => exact (h.behind f rfl).2.2.2

theorem ne_some_nil (h : CanonicalParts places q negative whole fraction) :
    fraction ≠ some [] := by
  rintro rfl
  have hpos : 1 ≤ 0 := (h.behind [] rfl).2.1
  omega

/-- Canonical digits are the text of their count of places. -/
theorem digitsText_eq (h : CanonicalParts places q negative whole fraction)
    (hplaces : 0 < places) :
    digitsText whole fraction
      = Decimal.magnitudeText places (countOf places whole fraction) := by
  obtain ⟨fraction', htext, hne, hgetD⟩ :=
    Decimal.exists_magnitudeText_eq places (countOf places whole fraction)
  have hwhole : ∀ c ∈ whole, c.isDigit = true := fun c hc =>
    h.digits c (List.mem_append_left _ hc)
  have hfraction : ∀ c ∈ fraction.getD [], c.isDigit = true := fun c hc =>
    h.digits c (List.mem_append_right _ hc)
  have hlt := Decimal.ofDigits_mul_lt h.length_le hfraction
  have hten : 0 < 10 ^ places := Nat.pow_pos (by decide)
  rw [countOf, Nat.mul_add_mod, Nat.mod_eq_of_lt hlt,
    Decimal.fractionDigits_ofDigits hplaces h.length_le hfraction
      h.last_ne_zero] at hgetD
  have hsame : fraction' = fraction := by
    cases fraction' with
    | none =>
        cases fraction with
        | none => rfl
        | some f => exact absurd (congrArg some hgetD.symm) h.ne_some_nil
    | some f' =>
        cases fraction with
        | none => exact absurd (congrArg some hgetD) hne
        | some f => exact congrArg some hgetD
  rw [htext, hsame, countOf, Nat.mul_add_div hten, Nat.div_eq_of_lt hlt,
    Nat.add_zero, toDigits_ofDigits h.whole_ne_nil hwhole h.leading]

end CanonicalParts

/-! ## One canonical text -/

/-- The text of a count of places, with a minus if it is negative. -/
def countText (places : Nat) (n : ℤ) : Text :=
  (if n < 0 then ['-'] else []) ++ Decimal.magnitudeText places n.natAbs

/-- A canonical text of a count of places is the text of that count. -/
theorem Canonical.eq_countText {n : ℤ} (hplaces : 0 < places)
    (h : Canonical places ((n : ℚ) / 10 ^ places) t) :
    t = countText places n := by
  obtain ⟨negative, whole, fraction, hparts, rfl⟩ := h
  have hten : (0 : ℚ) < 10 ^ places := pow_pos (by norm_num) places
  have hdenotes := hparts.denotes
  rw [digitsValue_eq hparts.length_le] at hdenotes
  rw [hparts.digitsText_eq hplaces, countText]
  cases negative with
  | false =>
      have hn : n = countOf places whole fraction := by
        rw [if_neg Bool.false_ne_true, div_left_inj' hten.ne'] at hdenotes
        exact_mod_cast hdenotes
      have hpos : ¬ n < 0 := by omega
      rw [if_neg hpos, if_neg Bool.false_ne_true, hn, Int.natAbs_natCast]
  | true =>
      have hn : n = -(countOf places whole fraction : ℤ) := by
        rw [if_pos rfl, ← neg_div, div_left_inj' hten.ne'] at hdenotes
        exact_mod_cast hdenotes
      have hneg : n < 0 := by
        have hq := hparts.minus rfl
        rw [div_neg_iff] at hq
        rcases hq with ⟨-, hlt⟩ | ⟨hlt, -⟩
        · exact absurd hlt hten.not_gt
        · exact_mod_cast hlt
      rw [if_pos hneg, if_pos rfl, hn, Int.natAbs_neg, Int.natAbs_natCast]

/-- A whole number of places that is a whole number has no digits behind the
    point. -/
theorem mod_eq_zero_of_whole {n k : ℤ} (h : (n : ℚ) / 10 ^ places = k) :
    n.natAbs % 10 ^ places = 0 := by
  have hten : (10 : ℚ) ^ places ≠ 0 := pow_ne_zero places (by norm_num)
  rw [div_eq_iff hten] at h
  have hn : n = k * (10 ^ places : Nat) := by exact_mod_cast h
  rw [hn, Int.natAbs_mul, Int.natAbs_natCast]
  exact Nat.mul_mod_left _ _

/-- The digits of a count of places are canonical. -/
theorem CanonicalParts.of_count {n : ℤ} (hplaces : 0 < places)
    (hne : fraction ≠ some [])
    (hgetD : fraction.getD []
      = Decimal.fractionDigits places (n.natAbs % 10 ^ places)) :
    CanonicalParts places ((n : ℚ) / 10 ^ places) (decide (n < 0))
      (Nat.toDigits 10 (n.natAbs / 10 ^ places)) fraction := by
  have hten : 0 < 10 ^ places := Nat.pow_pos (by decide)
  obtain ⟨hlength, hvalue⟩ :=
    Decimal.ofDigits_fractionDigits hplaces (Nat.mod_lt n.natAbs hten)
  rw [← hgetD] at hlength hvalue
  constructor
  case denotes =>
    have hcount : countOf places (Nat.toDigits 10 (n.natAbs / 10 ^ places))
        fraction = n.natAbs := by
      rw [countOf, hvalue, ofDigits_toDigits, Nat.div_add_mod]
    rw [digitsValue_eq hlength, hcount, Nat.cast_natAbs]
    by_cases hneg : n < 0
    · rw [if_pos (decide_eq_true hneg), abs_of_neg hneg, Int.cast_neg, neg_div,
        neg_neg]
    · rw [if_neg (mt of_decide_eq_true hneg), abs_of_nonneg (not_lt.mp hneg)]
  case minus =>
    intro hneg
    have hneg' : (n : ℚ) < 0 := by exact_mod_cast of_decide_eq_true hneg
    exact div_neg_of_neg_of_pos hneg' (pow_pos (by norm_num) places)
  case digits =>
    intro c hc
    rw [hgetD] at hc
    rcases List.mem_append.mp hc with hw | hf
    · exact isDigit_of_mem_toDigits hw
    · exact Decimal.isDigit_of_mem_fractionDigits hf
  case whole_ne_nil => exact Nat.toDigits_ne_nil
  case leading => exact toDigits_head _
  case behind =>
    rintro f rfl
    rw [Option.getD_some] at hgetD hlength
    refine ⟨?_, ?_, hlength, ?_⟩
    · intro k hk
      rw [mod_eq_zero_of_whole hk, Decimal.fractionDigits_zero] at hgetD
      exact hne (congrArg some hgetD)
    · exact List.length_pos_iff.mpr fun hnil => hne (congrArg some hnil)
    · intro hlast
      rw [hgetD] at hlast
      cases Text.of_getLast?_trimEnd (p := (· == '0')) hlast

/-- The text of a count of places is canonical. -/
theorem canonical_countText (n : ℤ) (hplaces : 0 < places) :
    Canonical places ((n : ℚ) / 10 ^ places) (countText places n) := by
  obtain ⟨fraction, htext, hne, hgetD⟩ :=
    Decimal.exists_magnitudeText_eq places n.natAbs
  refine ⟨_, _, fraction, .of_count hplaces hne hgetD, ?_⟩
  rw [countText, htext]
  by_cases hneg : n < 0
  · rw [if_pos hneg, if_pos (decide_eq_true hneg)]
  · rw [if_neg hneg, if_neg (mt of_decide_eq_true hneg)]

/-- **ONE CANONICAL TEXT**: the canonical texts of a count of places are the
    text of that count. -/
theorem canonical_iff {n : ℤ} (hplaces : 0 < places) :
    Canonical places ((n : ℚ) / 10 ^ places) t ↔ t = countText places n := by
  constructor
  · exact Canonical.eq_countText hplaces
  · rintro rfl
    exact canonical_countText n hplaces

/-! ## The look of a canonical text -/

/-- A minus or none, then digits with at most one point among them, and a digit
    at either end. -/
theorem Canonical.look (h : Canonical places q t) :
    ∃ m, (t = m ∨ t = '-' :: m)
      ∧ (∀ c ∈ m, c.isDigit = true ∨ c = '.') ∧ m.count '.' ≤ 1
      ∧ (∃ c ∈ m.head?, c.isDigit = true)
      ∧ (∃ c ∈ m.getLast?, c.isDigit = true) := by
  obtain ⟨negative, whole, fraction, hparts, rfl⟩ := h
  have hshown : Shown (digitsText whole fraction) :=
    ⟨whole, fraction, rfl, hparts.whole_ne_nil, hparts.ne_some_nil,
      hparts.digits⟩
  have hpoint : ∀ u : Text, (∀ c ∈ u, c.isDigit = true) → u.count '.' = 0 := by
    intro u hu
    rw [List.count_eq_zero]
    intro hmem
    cases hu '.' hmem
  refine ⟨digitsText whole fraction, ?_, ?_, ?_, ?_, ?_⟩
  · cases negative with
    | false => exact Or.inl rfl
    | true => exact Or.inr rfl
  · intro c hc
    have hnumeric := hshown.numeric c hc
    rw [Token.isNumeric, Bool.or_eq_true] at hnumeric
    exact hnumeric.imp_right eq_of_beq
  · have hwhole := hpoint whole fun c hc =>
      hparts.digits c (List.mem_append_left _ hc)
    have hfraction := hpoint (fraction.getD []) fun c hc =>
      hparts.digits c (List.mem_append_right _ hc)
    cases fraction with
    | none =>
        rw [digitsText, hwhole]
        exact Nat.zero_le 1
    | some f =>
        rw [Option.getD_some] at hfraction
        rw [digitsText, List.count_append, List.count_cons_self, hwhole,
          hfraction]
  · obtain ⟨c, u, htext, hc⟩ := hshown.head
    rw [htext]
    exact ⟨c, rfl, hc⟩
  · exact hshown.last

end Numeral

/-! ## What is shown -/

namespace SignedDyadic

/-- The exact value of a float with its sign and its size. -/
def value (d : SignedDyadic) : ℚ := if d.negative then -d.size else d.size

theorem exactValue?_eq {x : Float} {d : SignedDyadic}
    (h : SignedDyadic.ofFloat? x = some d) :
    Binary64.exactValue? x = some d.value := by
  rw [exactValue?_of_ofFloat? h, value, size]
  cases d.negative with
  | false => rfl
  | true => rw [if_pos rfl, if_pos rfl, neg_mul]

/-- The count of hundred-thousandths that is shown, with the sign. -/
def signedCount (d : SignedDyadic) : ℤ :=
  if d.negative then -(d.shownCount : ℤ) else d.shownCount

/-- The count that is shown is the nearest one. -/
theorem nearestInt_signedCount (d : SignedDyadic) :
    NearestInt (d.value * 10 ^ 5) d.signedCount := by
  have hnearest : NearestInt (d.size * 10 ^ 5) d.shownCount := by
    rw [← cast_num_mul_div]
    exact NearestInt.of_roundDiv d.den_pos
  rw [value, signedCount]
  cases d.negative with
  | false => exact hnearest
  | true =>
      rw [if_pos rfl, if_pos rfl, neg_mul]
      exact hnearest.neg

end SignedDyadic

/-- The text that is shown is that of the signed count. -/
theorem shownText_eq_countText {x : Float} {d : SignedDyadic}
    (h : SignedDyadic.ofFloat? x = some d) :
    shownText x = Numeral.countText 5 d.signedCount := by
  rw [shownText_of_ofFloat? h, Numeral.countText, SignedDyadic.signedCount]
  cases d.negative with
  | false =>
      have hpos : ¬ ((d.shownCount : ℤ) < 0) := by omega
      rw [if_neg (fun hminus => Bool.false_ne_true hminus.1),
        if_neg Bool.false_ne_true, if_neg hpos, Int.natAbs_natCast,
        List.nil_append]
  | true =>
      rw [if_pos rfl, Int.natAbs_neg, Int.natAbs_natCast]
      by_cases hzero : d.shownCount = 0
      · have hpos : ¬ (-(d.shownCount : ℤ) < 0) := by omega
        rw [if_neg (fun hminus => hminus.2 hzero), if_neg hpos,
          List.nil_append]
      · have hneg : -(d.shownCount : ℤ) < 0 := by omega
        rw [if_pos ⟨rfl, hzero⟩, if_pos hneg, List.singleton_append]

/-- **WHAT IS SHOWN IS CANONICAL.**  A finite value has an exact value, the
    exact value has one nearest multiple of 10^-5, that multiple has one
    canonical text, and this is the text that is shown. -/
theorem shownText_canonical {x : Float} (h : x.isFinite = true) :
    ∃ (v : ℚ) (n : ℤ), Binary64.exactValue? x = some v
      ∧ (∀ m : ℤ, NearestInt (v * 10 ^ 5) m ↔ m = n)
      ∧ (∀ t, Numeral.Canonical 5 ((n : ℚ) / 10 ^ 5) t ↔ t = shownText x)
      ∧ ∃ m, (shownText x = m ∨ shownText x = '-' :: m)
        ∧ (∀ c ∈ m, c.isDigit = true ∨ c = '.') ∧ m.count '.' ≤ 1
        ∧ (∃ c ∈ m.head?, c.isDigit = true)
        ∧ (∃ c ∈ m.getLast?, c.isDigit = true) := by
  rw [← SignedDyadic.isSome_ofFloat?] at h
  obtain ⟨d, hd⟩ := Option.isSome_iff_exists.mp h
  have htext := shownText_eq_countText hd
  have hcanonical : Numeral.Canonical 5 ((d.signedCount : ℚ) / 10 ^ 5)
      (shownText x) := by
    rw [htext]
    exact Numeral.canonical_countText d.signedCount (by decide)
  refine ⟨d.value, d.signedCount, SignedDyadic.exactValue?_eq hd, ?_, ?_,
    hcanonical.look⟩
  · intro m
    constructor
    · exact d.nearestInt_signedCount.unique
    · rintro rfl
      exact d.nearestInt_signedCount
  · intro t
    rw [htext]
    exact Numeral.canonical_iff (by decide)

/-- The minus of one sixty-fourth is half way between two multiples, and is
    shown as the even one. -/
theorem shownText_canonical_tie :
    Binary64.exactValue? (-0.015625) = some (-1 / 64)
      ∧ (∀ m : ℤ, NearestInt (-1 / 64 * 10 ^ 5) m ↔ m = -1562)
      ∧ ∀ t, Numeral.Canonical 5 (((-1562 : ℤ) : ℚ) / 10 ^ 5) t
          ↔ t = "-0.01562".toList := by
  have hread : SignedDyadic.ofFloat? (-0.015625)
      = some ⟨true, 4503599627370496, -58⟩ := by decide +kernel
  have hvalue : (SignedDyadic.mk true 4503599627370496 (-58)).value
      = -1 / 64 := by
    norm_num [SignedDyadic.value, SignedDyadic.size]
  have hexact : Binary64.exactValue? (-0.015625) = some (-1 / 64) := by
    rw [SignedDyadic.exactValue?_eq hread, hvalue]
  have hshown : shownText (-0.015625) = "-0.01562".toList := by decide +kernel
  obtain ⟨v, n, hv, hn, ht, -⟩ :=
    shownText_canonical (x := -0.015625) (by decide +kernel)
  obtain rfl : -1 / 64 = v := Option.some.inj (hexact.symm.trans hv)
  have htie : NearestInt (-1 / 64 * 10 ^ 5) (-1562) :=
    .of_near (by norm_num [abs_le]) fun _ => by decide
  obtain rfl : -1562 = n := (hn (-1562)).mp htie
  rw [hshown] at ht
  exact ⟨hexact, hn, ht⟩

end Keypad
