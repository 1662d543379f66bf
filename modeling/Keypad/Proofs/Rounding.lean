import Keypad.Number.Bits
import Keypad.Number.Display
import Mathlib

/-! # Rounding — what is shown is what is kept

    A value goes through two roundings before it becomes the answer: to five
    decimal places, and from that decimal back to a float.  This file
    measures both on the rational line and shows that a second pass changes
    nothing.  Two ranges need two reasons:

    * below 2^36 floats lie closer together than half a hundred-thousandth
      on either side, so the float nearest to a decimal leads back to that
      decimal;
    * from 2^36 on they lie so far apart that the decimal nearest to a float
      leads back to that float.

    `shownDecimal?_shownValue` puts the two together. -/

namespace Keypad

/-! ## The nearest natural number -/

/-- The rounded quotient is within half of the exact one. -/
theorem abs_roundDiv_sub_le (num den : Nat) (h : 0 < den) :
    |(roundDiv num den : ℚ) - num / den| ≤ 1 / 2 := by
  obtain ⟨hle, hge⟩ := roundDiv_near num den h
  have hden : (0 : ℚ) < den := by exact_mod_cast h
  have hle' : 2 * ((roundDiv num den : ℚ) * den) ≤ 2 * num + den := by
    exact_mod_cast hle
  have hge' : 2 * (num : ℚ) ≤ 2 * (roundDiv num den * den) + den := by
    exact_mod_cast hge
  have hupper : (roundDiv num den : ℚ) ≤ (num + den / 2) / den := by
    rw [le_div_iff₀ hden]
    linarith
  have hlower : ((num : ℚ) - den / 2) / den ≤ roundDiv num den := by
    rw [div_le_iff₀ hden]
    linarith
  have hhalf : (den : ℚ) / 2 / den = 1 / 2 := by
    rw [div_right_comm, div_self hden.ne']
  rw [add_div, hhalf] at hupper
  rw [sub_div, hhalf] at hlower
  exact abs_le.mpr ⟨by linarith, by linarith⟩

/-- A natural number less than half away from a quotient is its rounding. -/
theorem roundDiv_eq_of_near {num den k : Nat} (h : 0 < den)
    (hnear : |(num : ℚ) / den - k| < 1 / 2) : roundDiv num den = k := by
  -- both are within half of the quotient, hence less than one apart
  have hround := abs_le.mp (abs_roundDiv_sub_le num den h)
  have hk := abs_lt.mp hnear
  have hlt : (roundDiv num den : ℚ) < k + 1 := by linarith
  have hgt : (k : ℚ) < roundDiv num den + 1 := by linarith
  have hlt' : roundDiv num den < k + 1 := by exact_mod_cast hlt
  have hgt' : k < roundDiv num den + 1 := by exact_mod_cast hgt
  omega

/-- A factor common to both terms of a quotient does not matter. -/
theorem roundDiv_mul_mul_left (k num den : Nat) (h : 0 < k) :
    roundDiv (k * num) (k * den) = roundDiv num den := by
  have hlt : ∀ a b : Nat, k * a < k * b ↔ a < b := fun a b =>
    Nat.mul_lt_mul_left h
  simp only [roundDiv, Nat.mul_div_mul_left _ _ h, Nat.mul_mod_mul_left,
    Nat.mul_left_comm 2 k, hlt]

/-- Equal quotients have equal roundings, ties included. -/
theorem roundDiv_congr {num den num' den' : Nat} (h : 0 < den) (h' : 0 < den')
    (heq : num * den' = num' * den) :
    roundDiv num den = roundDiv num' den' := by
  calc roundDiv num den
      = roundDiv (den' * num) (den' * den) :=
        (roundDiv_mul_mul_left den' num den h').symm
    _ = roundDiv (den * num') (den * den') := by
        rw [Nat.mul_comm den' num, heq, Nat.mul_comm num' den,
          Nat.mul_comm den' den]
    _ = roundDiv num' den' := roundDiv_mul_mul_left den num' den' h

/-! ## Powers of two -/

/-- A power of two as a quotient of natural powers. -/
theorem two_zpow_eq_div (e : Int) :
    (2 : ℚ) ^ e = 2 ^ e.toNat / 2 ^ (-e).toNat := by
  rcases Int.le_total 0 e with hpos | hneg
  · obtain ⟨n, rfl⟩ := Int.eq_ofNat_of_zero_le hpos
    simp
  · obtain ⟨n, hn⟩ := Int.eq_ofNat_of_zero_le (Int.neg_nonneg.mpr hneg)
    have he : e = -(n : Int) := by omega
    subst he
    simp

theorem two_zpow_pos (e : Int) : (0 : ℚ) < 2 ^ e := zpow_pos (by norm_num) e

theorem two_zpow_le {a b : Int} (h : a ≤ b) : (2 : ℚ) ^ a ≤ 2 ^ b :=
  zpow_le_zpow_right₀ (by norm_num) h

theorem two_zpow_succ (e : Int) : (2 : ℚ) ^ (e + 1) = 2 * 2 ^ e := by
  rw [zpow_add_one₀ (by norm_num), mul_comm]

/-- A natural number lies between two neighbouring powers. -/
theorem two_zpow_log2_bounds {n : Nat} (h : 0 < n) :
    (2 : ℚ) ^ (n.log2 : Int) ≤ n ∧ (n : ℚ) < 2 ^ ((n.log2 : Int) + 1) := by
  constructor
  · rw [zpow_natCast]
    exact_mod_cast Nat.log2_self_le h.ne'
  · rw [show ((n.log2 : Int) + 1) = ((n.log2 + 1 : Nat) : Int) from rfl,
      zpow_natCast]
    exact_mod_cast Nat.lt_log2_self

/-- A number has one binary logarithm. -/
theorem eq_of_two_zpow_le_of_lt {q : ℚ} {a b : Int} (ha : 2 ^ a ≤ q)
    (ha' : q < 2 ^ (a + 1)) (hb : 2 ^ b ≤ q) (hb' : q < 2 ^ (b + 1)) :
    a = b := by
  -- a gap between the two would put `q` on both sides of a power
  have hab : a < b + 1 := by
    by_contra hge
    have := two_zpow_le (show b + 1 ≤ a by omega)
    linarith
  have hba : b < a + 1 := by
    by_contra hge
    have := two_zpow_le (show a + 1 ≤ b by omega)
    linarith
  omega

namespace Binary64

/-- The leading powers of two of a quotient's terms have a quotient that is
    off by less than a factor of two. -/
theorem two_zpow_log2_sub_bounds {num den : Nat} (hnum : 0 < num)
    (hden : 0 < den) :
    (2 : ℚ) ^ ((num.log2 : Int) - den.log2 - 1) ≤ num / den
      ∧ (num : ℚ) / den < 2 ^ ((num.log2 : Int) - den.log2 + 1) := by
  have hnum' : (0 : ℚ) < num := by exact_mod_cast hnum
  have hden' : (0 : ℚ) < den := by exact_mod_cast hden
  obtain ⟨hnlo, hnhi⟩ := two_zpow_log2_bounds hnum
  obtain ⟨hdlo, hdhi⟩ := two_zpow_log2_bounds hden
  constructor
  · have hsplit : (2 : ℚ) ^ ((num.log2 : Int) - den.log2 - 1)
        = 2 ^ (num.log2 : Int) / 2 ^ ((den.log2 : Int) + 1) := by
      rw [← zpow_sub₀ (by norm_num)]
      congr 1
      omega
    rw [hsplit, div_le_div_iff₀ (two_zpow_pos _) hden']
    exact mul_le_mul hnlo hdhi.le hden'.le hnum'.le
  · have hsplit : (2 : ℚ) ^ ((num.log2 : Int) - den.log2 + 1)
        = 2 ^ ((num.log2 : Int) + 1) / 2 ^ (den.log2 : Int) := by
      rw [← zpow_sub₀ (by norm_num)]
      congr 1
      omega
    rw [hsplit, div_lt_div_iff₀ hden' (two_zpow_pos _)]
    exact mul_lt_mul hnhi hdlo (two_zpow_pos _) (two_zpow_pos _).le

/-- Comparing a quotient with a power of two, without leaving the natural
    numbers. -/
theorem mul_two_pow_le_iff {num den : Nat} (hden : 0 < den) (e : Int) :
    den * 2 ^ e.toNat ≤ num * 2 ^ (-e).toNat ↔ (2 : ℚ) ^ e ≤ num / den := by
  have hden' : (0 : ℚ) < den := by exact_mod_cast hden
  rw [two_zpow_eq_div, div_le_div_iff₀ (by positivity) hden',
    mul_comm _ (den : ℚ)]
  exact_mod_cast Iff.rfl

/-- The floor of the logarithm lies below the logarithm and within one. -/
theorem floorLog_spec {num den : Nat} (hnum : 0 < num) (hden : 0 < den) :
    (2 : ℚ) ^ floorLog num den ≤ num / den
      ∧ (num : ℚ) / den < 2 ^ (floorLog num den + 1) := by
  obtain ⟨hlower, hupper⟩ := two_zpow_log2_sub_bounds hnum hden
  simp only [floorLog, Nat.shiftLeft_eq]
  split
  · rename_i htest
    exact ⟨(mul_two_pow_le_iff hden _).mp htest, hupper⟩
  · rename_i htest
    refine ⟨hlower, ?_⟩
    rw [sub_add_cancel, ← not_le, ← mul_two_pow_le_iff hden]
    exact htest

theorem floorLog_eq {num den : Nat} (hnum : 0 < num) (hden : 0 < den) {e : Int}
    (hlo : (2 : ℚ) ^ e ≤ num / den) (hhi : (num : ℚ) / den < 2 ^ (e + 1)) :
    floorLog num den = e :=
  have h := floorLog_spec hnum hden
  eq_of_two_zpow_le_of_lt h.1 h.2 hlo hhi

end Binary64

/-! ## The size of a float -/

namespace SignedDyadic

/-- The number that a dyadic stands for, less its sign. -/
def size (d : SignedDyadic) : ℚ := d.mantissa * 2 ^ d.exponent

theorem size_eq_div (d : SignedDyadic) : d.size = d.num / d.den := by
  rw [size, num, den, Nat.shiftLeft_eq, Nat.one_shiftLeft, two_zpow_eq_div]
  push_cast
  ring

/-- The mantissa of a float fills its 53 places, unless the exponent is
    already the least. -/
theorem bounds_of_ofFloat? {x : Float} {d : SignedDyadic}
    (h : ofFloat? x = some d) :
    d.mantissa < 2 ^ 53 ∧ -1074 ≤ d.exponent ∧ d.exponent ≤ 971
      ∧ (d.exponent = -1074 ∨ 2 ^ 52 ≤ d.mantissa) := by
  simp only [ofFloat?, Nat.one_shiftLeft] at h
  split at h
  · cases h
  · split at h
    · cases h
      refine ⟨?_, Int.le_refl _, ?_, Or.inl rfl⟩
      · show _ % 2 ^ 52 < 2 ^ 53
        omega
      · show (-1074 : Int) ≤ 971
        omega
    · cases h
      refine ⟨?_, ?_, ?_, Or.inr ?_⟩
      · show 2 ^ 52 + _ % 2 ^ 52 < 2 ^ 53
        omega
      · show (-1074 : Int) ≤ (_ : Nat) - 1075
        omega
      · show ((_ : Nat) : Int) - 1075 ≤ 971
        omega
      · show 2 ^ 52 ≤ 2 ^ 52 + _
        omega

/-- Up to 53 places are a float as they stand. -/
theorem ofFloat?_of_count (negative : Bool) {e : Int} {count : Nat}
    (he : -1074 ≤ e) (hcount : count ≤ 2 ^ 53)
    (hfull : e = -1074 ∨ 2 ^ 52 ≤ count)
    (hfinite : (e + 1074).toNat * 2 ^ 52 + count < Binary64.infinity) :
    ∃ d, ofFloat? (Binary64.ofMagnitude negative
        ((e + 1074).toNat * 2 ^ 52 + count)) = some d
      ∧ d.negative = negative ∧ d.size = count * 2 ^ e := by
  obtain ⟨k, hk⟩ := Int.eq_ofNat_of_zero_le (show 0 ≤ e + 1074 by omega)
  have hek : e = (k : Int) - 1074 := by omega
  subst hek
  rw [show ((k : Int) - 1074 + 1074).toNat = k by omega] at hfinite ⊢
  rw [ofFloat?_ofMagnitude negative _ hfinite]
  refine ⟨_, rfl, ?_, ?_⟩
  · split <;> rfl
  · by_cases hsmall : k * 2 ^ 52 + count < 2 ^ 52
    · -- below the normal range the count is the mantissa
      rw [if_pos hsmall]
      have hk0 : k = 0 := by omega
      subst hk0
      show (((0 * 2 ^ 52 + count : Nat) : ℚ) * 2 ^ (-1074 : Int)) = _
      rw [Nat.zero_mul, Nat.zero_add]
      norm_num
    · rw [if_neg hsmall]
      rcases Nat.lt_or_ge count (2 ^ 53) with hlt | hge
      · have hdiv : (k * 2 ^ 52 + count) / 2 ^ 52 = k + 1 := by omega
        have hmod : 2 ^ 52 + (k * 2 ^ 52 + count) % 2 ^ 52 = count := by omega
        show ((2 ^ 52 + (k * 2 ^ 52 + count) % 2 ^ 52 : Nat) : ℚ)
          * 2 ^ ((((k * 2 ^ 52 + count) / 2 ^ 52 : Nat) : Int) - 1075) = _
        rw [hdiv, hmod]
        congr 2
        omega
      · -- the rounding carried into the next power of two
        have hcarry : count = 2 ^ 53 := by omega
        subst hcarry
        have hdiv : (k * 2 ^ 52 + 2 ^ 53) / 2 ^ 52 = k + 2 := by omega
        have hmod : (k * 2 ^ 52 + 2 ^ 53) % 2 ^ 52 = 0 := by omega
        show ((2 ^ 52 + (k * 2 ^ 52 + 2 ^ 53) % 2 ^ 52 : Nat) : ℚ)
          * 2 ^ ((((k * 2 ^ 52 + 2 ^ 53) / 2 ^ 52 : Nat) : Int) - 1075) = _
        rw [hdiv, hmod, show ((k + 2 : Nat) : Int) - 1075 = (k : Int) - 1074 + 1
          by omega, two_zpow_succ]
        push_cast
        ring

end SignedDyadic

/-! ## The nearest float -/

namespace Binary64

/-- The quotient measured in units of its last place. -/
theorem scaled_eq (num den : Nat) (e : Int) :
    ((num * 2 ^ (-e).toNat : Nat) : ℚ) / ((den * 2 ^ e.toNat : Nat) : ℚ)
      = num / den / 2 ^ e := by
  rw [two_zpow_eq_div]
  push_cast
  rw [div_div_div_eq]

/-- The count of last places that is kept of a quotient. -/
def count (num den : Nat) : Nat :=
  roundDiv (num * 2 ^ (-lastPlace num den).toNat)
    (den * 2 ^ (lastPlace num den).toNat)

section Count

variable {num den : Nat}

/-- The count is within half of the exact number of places. -/
theorem count_near (num : Nat) (hden : 0 < den) :
    |(count num den : ℚ) - num / den / 2 ^ lastPlace num den| ≤ 1 / 2 := by
  rw [← scaled_eq]
  exact abs_roundDiv_sub_le _ _ (Nat.mul_pos hden (Nat.two_pow_pos _))

/-- What is kept of a quotient is within half a place of it. -/
theorem count_mul_near (hden : 0 < den) :
    |(count num den : ℚ) * 2 ^ lastPlace num den - num / den|
      ≤ 2 ^ lastPlace num den / 2 := by
  have he : (0 : ℚ) < 2 ^ lastPlace num den := two_zpow_pos _
  have hfactor : (count num den : ℚ) * 2 ^ lastPlace num den - num / den
      = (count num den - num / den / 2 ^ lastPlace num den)
        * 2 ^ lastPlace num den := by
    rw [sub_mul, div_mul_cancel₀ _ he.ne']
  rw [hfactor, abs_mul, abs_of_pos he]
  calc |(count num den : ℚ) - num / den / 2 ^ lastPlace num den|
          * 2 ^ lastPlace num den
      ≤ 1 / 2 * 2 ^ lastPlace num den :=
        mul_le_mul_of_nonneg_right (count_near num hden) he.le
    _ = 2 ^ lastPlace num den / 2 := by ring

/-- A power of two in units of a lower one. -/
theorem two_zpow_add_div (e : Int) (k : Nat) :
    (2 : ℚ) ^ (e + k) / 2 ^ e = 2 ^ k := by
  rw [zpow_add₀ (by norm_num), mul_div_cancel_left₀ _ (two_zpow_pos e).ne',
    zpow_natCast]

/-- The count fits into 53 places. -/
theorem count_le (hnum : 0 < num) (hden : 0 < den) :
    count num den ≤ 2 ^ 53 := by
  have hplace : lastPlace num den = max (floorLog num den - 52) (-1074) := rfl
  have hquot : (num : ℚ) / den / 2 ^ lastPlace num den < 2 ^ 53 := by
    rw [← two_zpow_add_div (lastPlace num den) 53]
    refine div_lt_div_of_pos_right ?_ (two_zpow_pos _)
    refine lt_of_lt_of_le (floorLog_spec hnum hden).2 (two_zpow_le ?_)
    omega
  obtain ⟨-, hle⟩ := abs_le.mp (count_near num hden)
  have hlt : (count num den : ℚ) < (2 ^ 53 + 1 : Nat) := by
    push_cast
    linarith
  have hlt' : count num den < 2 ^ 53 + 1 := by exact_mod_cast hlt
  omega

/-- The count fills its 53 places, unless the last place is the least there
    is. -/
theorem count_full (hnum : 0 < num) (hden : 0 < den) :
    lastPlace num den = -1074 ∨ 2 ^ 52 ≤ count num den := by
  have hplace : lastPlace num den = max (floorLog num den - 52) (-1074) := rfl
  rcases Int.lt_or_le (-1074) (lastPlace num den) with hnormal | hleast
  · right
    have hquot : (2 : ℚ) ^ 52 ≤ num / den / 2 ^ lastPlace num den := by
      rw [← two_zpow_add_div (lastPlace num den) 52]
      refine div_le_div_of_nonneg_right ?_ (two_zpow_pos _).le
      refine le_trans (two_zpow_le ?_) (floorLog_spec hnum hden).1
      omega
    obtain ⟨hge, -⟩ := abs_le.mp (count_near num hden)
    have hlt : ((2 ^ 52 : Nat) : ℚ) < count num den + 1 := by
      push_cast
      linarith
    have hlt' : 2 ^ 52 < count num den + 1 := by exact_mod_cast hlt
    omega
  · left
    omega

theorem magnitude_eq (hnum : 0 < num)
    (hfinite : (lastPlace num den + 1074).toNat * 2 ^ 52 + count num den
      < infinity) :
    magnitude num den
      = (lastPlace num den + 1074).toNat * 2 ^ 52 + count num den := by
  simp only [magnitude, if_neg hnum.ne', Nat.shiftLeft_eq]
  exact Nat.min_eq_right (Nat.le_of_lt hfinite)

/-- The float nearest to a quotient has the sign asked for and is within
    half a last place of the quotient. -/
theorem ofFloat?_nearest (negative : Bool) (hnum : 0 < num) (hden : 0 < den)
    (hsmall : lastPlace num den < 970) :
    ∃ d, SignedDyadic.ofFloat? (nearest negative num den) = some d
      ∧ d.negative = negative
      ∧ |d.size - num / den| ≤ 2 ^ lastPlace num den / 2 := by
  have hle := count_le hnum hden
  have hleast : -1074 ≤ lastPlace num den := Int.le_max_right ..
  -- such a place leaves room for a carry below infinity
  have hfinite : (lastPlace num den + 1074).toNat * 2 ^ 52 + count num den
      < infinity := by
    show _ < 2047 * 2 ^ 52
    omega
  obtain ⟨d, hd, hsign, hsize⟩ := SignedDyadic.ofFloat?_of_count negative hleast
    hle (count_full hnum hden) hfinite
  refine ⟨d, ?_, hsign, ?_⟩
  · rw [nearest, magnitude_eq hnum hfinite]
    exact hd
  · rw [hsize]
    exact count_mul_near hden

end Count

/-- A quotient less than half a place away from a float with 53 places, and
    between the same powers of two, is rounded to that float. -/
theorem ofFloat?_nearest_of_near (negative : Bool) {num den m : Nat} {e : Int}
    (hnum : 0 < num) (hden : 0 < den) (hm : m < 2 ^ 53) (hm' : 2 ^ 52 ≤ m)
    (he : -1074 ≤ e) (he' : e ≤ 971)
    (hlo : (2 : ℚ) ^ (e + 52) ≤ num / den)
    (hhi : (num : ℚ) / den < 2 ^ (e + 53))
    (hnear : |(num : ℚ) / den - m * 2 ^ e| < 2 ^ e / 2) :
    ∃ d, SignedDyadic.ofFloat? (nearest negative num den) = some d
      ∧ d.negative = negative ∧ d.size = m * 2 ^ e := by
  have hpos : (0 : ℚ) < 2 ^ e := two_zpow_pos e
  have hlog : floorLog num den = e + 52 := floorLog_eq hnum hden hlo
    (by rw [show e + 52 + 1 = e + 53 by omega]; exact hhi)
  have hplace : lastPlace num den = e := by
    rw [lastPlace, hlog]
    omega
  have hcount : count num den = m := by
    rw [count, hplace]
    refine roundDiv_eq_of_near (Nat.mul_pos hden (Nat.two_pow_pos _)) ?_
    have hfactor : (num : ℚ) / den / 2 ^ e - m
        = (num / den - m * 2 ^ e) / 2 ^ e := by
      rw [sub_div, mul_div_cancel_right₀ _ hpos.ne']
    rw [scaled_eq, hfactor, abs_div, abs_of_pos hpos, div_lt_iff₀ hpos]
    linarith
  have hfinite : (e + 1074).toNat * 2 ^ 52 + m < infinity := by
    show _ < 2047 * 2 ^ 52
    omega
  obtain ⟨d, hd, hsign, hsize⟩ := SignedDyadic.ofFloat?_of_count negative he
    (Nat.le_of_lt hm) (Or.inr hm') hfinite
  refine ⟨d, ?_, hsign, hsize⟩
  rw [nearest, magnitude_eq hnum (by rw [hplace, hcount]; exact hfinite),
    hplace, hcount]
  exact hd

/-- Zero is a float of either sign. -/
theorem ofFloat?_nearest_zero (negative : Bool) (den : Nat) :
    SignedDyadic.ofFloat? (nearest negative 0 den)
      = some ⟨negative, 0, -1074⟩ := by
  rw [nearest, show magnitude 0 den = 0 from rfl,
    SignedDyadic.ofFloat?_ofMagnitude negative 0 (by decide)]
  rfl

end Binary64

/-! ## Five places and back

    From here on `c` counts hundred-thousandths: it is the coefficient of the
    decimal that is shown. -/

/-- The float of a count of decimal places. -/
theorem Decimal.toFloat_of_places (negative : Bool) (c places : Nat) :
    (⟨negative, c, -(places : Int)⟩ : Decimal).toFloat
      = Binary64.nearest negative c (10 ^ places) := by
  rw [toFloat, Int.toNat_neg_natCast, Int.neg_neg, Int.toNat_natCast,
    Nat.pow_eq, Nat.pow_eq, Nat.pow_zero, Nat.mul_one]

namespace SignedDyadic

/-- The number of hundred-thousandths nearest to the size of a float. -/
def shownCount (d : SignedDyadic) : Nat := roundDiv (d.num * 10 ^ 5) d.den

theorem cast_num_mul_div (d : SignedDyadic) :
    ((d.num * 10 ^ 5 : Nat) : ℚ) / (d.den : ℚ) = d.size * 10 ^ 5 := by
  rw [size_eq_div]
  push_cast
  ring

theorem shownCount_near (d : SignedDyadic) :
    |(d.shownCount : ℚ) - d.size * 10 ^ 5| ≤ 1 / 2 := by
  rw [← cast_num_mul_div]
  exact abs_roundDiv_sub_le _ _ d.den_pos

theorem shownCount_eq_of_near {d : SignedDyadic} {c : Nat}
    (h : |d.size * 10 ^ 5 - c| < 1 / 2) : d.shownCount = c := by
  refine roundDiv_eq_of_near d.den_pos ?_
  rw [cast_num_mul_div]
  exact h

/-- A whole number is shown as it is. -/
theorem shownCount_of_whole {d : SignedDyadic} {n : Nat} (h : d.size = n) :
    d.shownCount = n * 10 ^ 5 := by
  refine shownCount_eq_of_near ?_
  rw [h, Nat.cast_mul, Nat.cast_pow, Nat.cast_ofNat, sub_self, abs_zero]
  norm_num

/-- Floats of one size show the same digits, ties included. -/
theorem shownCount_congr {d d' : SignedDyadic} (h : d.size = d'.size) :
    d.shownCount = d'.shownCount := by
  refine roundDiv_congr d.den_pos d'.den_pos ?_
  have hden : (d.den : ℚ) ≠ 0 := by exact_mod_cast d.den_pos.ne'
  have hden' : (d'.den : ℚ) ≠ 0 := by exact_mod_cast d'.den_pos.ne'
  rw [size_eq_div, size_eq_div, div_eq_div_iff hden hden'] at h
  have hcross : d.num * d'.den = d'.num * d.den := by exact_mod_cast h
  rw [Nat.mul_right_comm, hcross, Nat.mul_right_comm]

end SignedDyadic

/-- The float nearest to a decimal shows that decimal again. -/
def ShowsAgain (negative : Bool) (c : Nat) : Prop :=
  ∃ d, SignedDyadic.ofFloat? (Binary64.nearest negative c (10 ^ 5)) = some d
    ∧ d.negative = negative ∧ d.shownCount = c

theorem showsAgain_zero (negative : Bool) : ShowsAgain negative 0 := by
  refine ⟨_, Binary64.ofFloat?_nearest_zero negative _, rfl,
    SignedDyadic.shownCount_eq_of_near ?_⟩
  show |((0 : Nat) : ℚ) * _ * 10 ^ 5 - ((0 : Nat) : ℚ)| < 1 / 2
  rw [Nat.cast_zero, zero_mul, zero_mul, sub_zero, abs_zero]
  norm_num

/-- Below 2^36 the nearest float is within reach of the decimal. -/
theorem showsAgain_of_small (negative : Bool) {c : Nat} (hpos : 0 < c)
    (h : c < 2 ^ 36 * 10 ^ 5) : ShowsAgain negative c := by
  have hden : 0 < 10 ^ 5 := by decide
  have hten : ((10 ^ 5 : Nat) : ℚ) = 100000 := by norm_num
  have hquot : (c : ℚ) / (10 ^ 5 : Nat) < 2 ^ (36 : Int) := by
    have hc : (c : ℚ) < (2 ^ 36 * 10 ^ 5 : Nat) := by exact_mod_cast h
    rw [div_lt_iff₀ (by norm_num)]
    push_cast at hc ⊢
    linarith
  have hlog : Binary64.floorLog c (10 ^ 5) < 36 := by
    by_contra hge
    exact absurd ((two_zpow_le (not_lt.mp hge)).trans
      (Binary64.floorLog_spec hpos hden).1) (not_le.mpr hquot)
  -- the last place is fine enough for half of it to go unseen
  have hplace : Binary64.lastPlace c (10 ^ 5) ≤ -17 := by
    rw [Binary64.lastPlace]
    omega
  obtain ⟨d, hd, hsign, hnear⟩ :=
    Binary64.ofFloat?_nearest negative hpos hden (by omega)
  refine ⟨d, hd, hsign, SignedDyadic.shownCount_eq_of_near ?_⟩
  have hreach : (2 : ℚ) ^ Binary64.lastPlace c (10 ^ 5) / 2 ≤ 1 / 262144 := by
    have hhalf := two_zpow_le hplace
    rw [show (2 : ℚ) ^ (-17 : Int) = 1 / 131072 by norm_num] at hhalf
    rw [div_le_iff₀ two_pos]
    exact hhalf.trans (by norm_num)
  obtain ⟨hge, hle⟩ := abs_le.mp (hnear.trans hreach)
  rw [hten] at hge hle
  rw [show (10 : ℚ) ^ 5 = 100000 by norm_num, abs_lt]
  constructor <;> linarith

theorem two_zpow_ge_of_coarse {e : Int} (he : -16 ≤ e) :
    1 / 65536 ≤ (2 : ℚ) ^ e := by
  have hpow := two_zpow_le he
  rwa [show (2 : ℚ) ^ (-16 : Int) = 1 / 65536 by norm_num] at hpow

namespace SignedDyadic

/-- What is shown is within half a hundred-thousandth of the float. -/
theorem shownCount_div_near (d : SignedDyadic) :
    |(d.shownCount : ℚ) / 100000 - d.size| ≤ 1 / 200000 := by
  obtain ⟨hge, hle⟩ := abs_le.mp d.shownCount_near
  rw [show (10 : ℚ) ^ 5 = 100000 by norm_num] at hge hle
  rw [abs_le]
  constructor <;> linarith

variable {d : SignedDyadic}

/-- From 2^36 on a float with 53 places shows a decimal that is no smaller than
    the power of two below it. -/
theorem le_shownCount_div (hm : 2 ^ 52 ≤ d.mantissa) (he : -16 ≤ d.exponent) :
    (2 : ℚ) ^ (d.exponent + 52) ≤ d.shownCount / 100000 := by
  have hplace := two_zpow_ge_of_coarse he
  have hlo : (2 : ℚ) ^ (d.exponent + 52) = 2 ^ 52 * 2 ^ d.exponent := by
    rw [zpow_add₀ (by norm_num), mul_comm]
    rfl
  have hsize : d.size = d.mantissa * 2 ^ d.exponent := rfl
  rcases Nat.eq_or_lt_of_le hm with heq | hlt
  · -- a power of two from 2^36 on is whole, so its decimal is exact
    obtain ⟨k, hk⟩ := Int.eq_ofNat_of_zero_le
      (show 0 ≤ d.exponent + 52 by omega)
    have hwhole : d.size = (2 ^ k : Nat) := by
      rw [hsize, ← heq, Nat.cast_pow, Nat.cast_ofNat, ← hlo, hk,
        zpow_natCast, Nat.cast_pow, Nat.cast_ofNat]
    rw [shownCount_of_whole hwhole, hk, zpow_natCast]
    push_cast
    exact le_of_eq (by ring)
  · -- any other float is a whole place above it
    have hmq : (2 : ℚ) ^ 52 + 1 ≤ d.mantissa := by exact_mod_cast hlt
    have hmul := mul_le_mul_of_nonneg_right hmq (two_zpow_pos d.exponent).le
    have hnear := (abs_le.mp d.shownCount_div_near).1
    linarith

/-- A float with 53 places shows a decimal below the power of two above it. -/
theorem shownCount_div_lt (hm : d.mantissa < 2 ^ 53) (he : -16 ≤ d.exponent) :
    (d.shownCount : ℚ) / 100000 < 2 ^ (d.exponent + 53) := by
  have hplace := two_zpow_ge_of_coarse he
  have hhi : (2 : ℚ) ^ (d.exponent + 53) = 2 ^ 53 * 2 ^ d.exponent := by
    rw [zpow_add₀ (by norm_num), mul_comm]
    rfl
  have hsize : d.size = d.mantissa * 2 ^ d.exponent := rfl
  have hmq : (d.mantissa : ℚ) + 1 ≤ 2 ^ 53 := by exact_mod_cast hm
  have hmul := mul_le_mul_of_nonneg_right hmq (two_zpow_pos d.exponent).le
  have hnear := (abs_le.mp d.shownCount_div_near).2
  linarith

end SignedDyadic

/-- A float with 53 places and a last place of at least 2^-16 is what its
    decimal leads back to. -/
theorem ofFloat?_nearest_shownCount {d : SignedDyadic} (negative : Bool)
    (hm : d.mantissa < 2 ^ 53) (hm' : 2 ^ 52 ≤ d.mantissa)
    (he : -16 ≤ d.exponent) (he' : d.exponent ≤ 971) :
    ∃ d', SignedDyadic.ofFloat?
        (Binary64.nearest negative d.shownCount (10 ^ 5)) = some d'
      ∧ d'.negative = negative ∧ d'.size = d.size := by
  have hden : 0 < 10 ^ 5 := by decide
  have hten : ((10 ^ 5 : Nat) : ℚ) = 100000 := by norm_num
  have hsize : d.size = d.mantissa * 2 ^ d.exponent := rfl
  have hlower := SignedDyadic.le_shownCount_div hm' he
  have hcount : 0 < d.shownCount := by
    have hpos := lt_of_lt_of_le (two_zpow_pos _) hlower
    have hpos' : (0 : ℚ) < d.shownCount := by linarith
    exact_mod_cast hpos'
  refine Binary64.ofFloat?_nearest_of_near negative hcount hden hm hm'
    (by omega) he' ?_ ?_ ?_
  · rw [hten]
    exact hlower
  · rw [hten]
    exact SignedDyadic.shownCount_div_lt hm he
  · -- half a hundred-thousandth is less than half a place
    have hplace := two_zpow_ge_of_coarse he
    rw [hten, ← hsize]
    exact lt_of_le_of_lt d.shownCount_div_near (by linarith)

/-- **SHOWING TWICE SHOWS THE SAME**: the float kept for a shown decimal has
    its sign and shows its digits again. -/
theorem showsAgain {x : Float} {d : SignedDyadic}
    (h : SignedDyadic.ofFloat? x = some d) :
    ShowsAgain d.negative d.shownCount := by
  obtain ⟨hm, -, he', hfull⟩ := SignedDyadic.bounds_of_ofFloat? h
  rcases Int.lt_or_le d.exponent (-16) with hfine | hcoarse
  · -- with a last place below 2^-16 the float lies below 2^36
    have hsize : d.size < 2 ^ 36 := by
      have hmq : (d.mantissa : ℚ) < 2 ^ 53 := by exact_mod_cast hm
      calc d.size = d.mantissa * 2 ^ d.exponent := rfl
        _ < 2 ^ 53 * 2 ^ d.exponent :=
          mul_lt_mul_of_pos_right hmq (two_zpow_pos _)
        _ ≤ 2 ^ 53 * 2 ^ (-17 : Int) :=
          mul_le_mul_of_nonneg_left (two_zpow_le (by omega)) (by norm_num)
        _ = 2 ^ 36 := by norm_num
    have hle : d.shownCount ≤ 2 ^ 36 * 10 ^ 5 := by
      have hnear := (abs_le.mp d.shownCount_near).2
      have hlt : (d.shownCount : ℚ) < (2 ^ 36 * 10 ^ 5 + 1 : Nat) := by
        push_cast
        linarith
      have : d.shownCount < 2 ^ 36 * 10 ^ 5 + 1 := by exact_mod_cast hlt
      omega
    rcases Nat.eq_zero_or_pos d.shownCount with hzero | hpos
    · rw [hzero]
      exact showsAgain_zero d.negative
    rcases Nat.lt_or_eq_of_le hle with hlt | heq
    · exact showsAgain_of_small d.negative hpos hlt
    · -- the boundary 2^36 is itself a float, with the last place 2^-16
      have hedge : (⟨d.negative, 2 ^ 52, -16⟩ : SignedDyadic).shownCount
          = d.shownCount := by
        rw [heq]
        refine SignedDyadic.shownCount_of_whole ?_
        show ((2 ^ 52 : Nat) : ℚ) * 2 ^ (-16 : Int) = (2 ^ 36 : Nat)
        norm_num
      obtain ⟨d', hd', hsign, hsame⟩ := ofFloat?_nearest_shownCount
        (d := ⟨d.negative, 2 ^ 52, -16⟩) d.negative (by norm_num) (by norm_num)
        (by norm_num) (by norm_num)
      rw [hedge] at hd'
      exact ⟨d', hd', hsign, (SignedDyadic.shownCount_congr hsame).trans hedge⟩
  · obtain ⟨d', hd', hsign, hsame⟩ := ofFloat?_nearest_shownCount d.negative hm
      (by omega) hcoarse he'
    exact ⟨d', hd', hsign, SignedDyadic.shownCount_congr hsame⟩

/-! ## The value that is kept -/

/-- The decimal that is shown for a float with an exact value. -/
theorem shownDecimal?_of_ofFloat? {x : Float} {d : SignedDyadic}
    (h : SignedDyadic.ofFloat? x = some d) :
    shownDecimal? x = some ⟨d.negative, d.shownCount, -5⟩ := by
  rw [shownDecimal?, Decimal.ofFloat?, h]
  rfl

/-- The text that is shown for a float with an exact value: its count in
    digits, with a minus in front of a negative one. -/
theorem shownText_of_ofFloat? {x : Float} {d : SignedDyadic}
    (h : SignedDyadic.ofFloat? x = some d) :
    shownText x
      = if d.negative = true ∧ d.shownCount ≠ 0 then
          '-' :: Decimal.magnitudeText 5 d.shownCount
        else Decimal.magnitudeText 5 d.shownCount := by
  rw [shownText, shownDecimal?_of_ofFloat? h]
  rfl

/-- The float that is kept for a float with an exact value. -/
theorem shownValue_of_ofFloat? {x : Float} {d : SignedDyadic}
    (h : SignedDyadic.ofFloat? x = some d) :
    shownValue x = Binary64.nearest d.negative d.shownCount (10 ^ 5) := by
  rw [shownValue, shownDecimal?_of_ofFloat? h]
  exact Decimal.toFloat_of_places d.negative d.shownCount 5

/-- The decimal of a value and the one of the value kept for it are the
    same. -/
theorem shownDecimal?_shownValue (x : Float) :
    shownDecimal? (shownValue x) = shownDecimal? x := by
  cases h : SignedDyadic.ofFloat? x with
  | none =>
      have hnone : shownDecimal? x = none := by
        rw [shownDecimal?, Decimal.ofFloat?, h]
        rfl
      rw [shownValue, hnone]
      exact hnone
  | some d =>
      obtain ⟨d', hd', hsign, hcount⟩ := showsAgain h
      rw [shownValue_of_ofFloat? h, shownDecimal?_of_ofFloat? h,
        shownDecimal?_of_ofFloat? hd', hsign, hcount]

/-- What is kept of a value shows as the value does. -/
@[simp] theorem shownText_shownValue (x : Float) :
    shownText (shownValue x) = shownText x := by
  rw [shownText, shownText, shownDecimal?_shownValue]

/-- A value is kept once and for all. -/
@[simp] theorem shownValue_shownValue (x : Float) :
    shownValue (shownValue x) = shownValue x := by
  cases h : shownDecimal? x with
  | none =>
      have hkept : shownValue x = x := by rw [shownValue, h]
      rw [hkept, hkept]
  | some d =>
      have hkept : shownValue x = d.toFloat := by rw [shownValue, h]
      rw [shownValue, shownDecimal?_shownValue, h, hkept]

theorem isFinite_eq_isSome_shownDecimal? (x : Float) :
    x.isFinite = (shownDecimal? x).isSome := by
  rw [← SignedDyadic.isSome_ofFloat?, shownDecimal?, Decimal.ofFloat?,
    Option.isSome_map]

/-- What is kept of a value is finite just when the value is. -/
@[simp] theorem isFinite_shownValue (x : Float) :
    (shownValue x).isFinite = x.isFinite := by
  rw [isFinite_eq_isSome_shownDecimal?, shownDecimal?_shownValue,
    ← isFinite_eq_isSome_shownDecimal?]

end Keypad
