import Keypad.Number.Binary64
import Mathlib

/-! # Bits — magnitudes and floats are the same thing

    Core gives every float a meaning by unpacking its word and packing it
    again.  This file shows that the two directions of `Binary64` agree with
    that meaning: a float has an exact value just when it is finite, and the
    float of a magnitude up to infinity has that magnitude and sign in its
    bits.  The law behind the second is that packing undoes unpacking on
    every word that encodes no NaN. -/

namespace Keypad

open Float.Model (Format)
open Float.Model.UnpackedFloat (isNaNBits packComponents pack pack_unpack
  unpack unpackExponent unpackMantissa unpackSign
  unpackExponent_packComponents unpackMantissa_packComponents
  unpackSign_packComponents)
open Float.Model.UnpackedFloat.Sign (ofBitVec_toBitVec)

/-! ## The fields of a word -/

/-- The sign of a boolean mark. -/
private def signOf (negative : Bool) : Float.Model.UnpackedFloat.Sign :=
  if negative then .negative else .positive

private theorem toNat_unpackExponent (b : BitVec 64) :
    (@unpackExponent Format.binary64 b).toNat = (b.toNat >>> 52) % 2048 := by
  show (BitVec.extractLsb _ _ b).toNat = _
  rw [BitVec.extractLsb_toNat]
  rfl

private theorem toNat_unpackMantissa (b : BitVec 64) :
    (@unpackMantissa Format.binary64 b).toNat = b.toNat % 2 ^ 52 := by
  show (BitVec.extractLsb _ _ b).toNat = _
  rw [BitVec.extractLsb_toNat, Nat.shiftRight_zero]
  rfl

private theorem ofBitVec_unpackSign (b : BitVec 64) :
    Float.Model.UnpackedFloat.Sign.ofBitVec (@unpackSign Format.binary64 b)
      = signOf (b.toNat >>> 63 == 1) := by
  have hsign : (@unpackSign Format.binary64 b).toNat = b.toNat >>> 63 := by
    show (BitVec.extractLsb _ _ b).toNat = _
    rw [BitVec.extractLsb_toNat]
    exact Nat.mod_eq_of_lt (by
      rw [Nat.shiftRight_eq_div_pow]
      exact Nat.div_lt_of_lt_mul b.isLt)
  rw [Float.Model.UnpackedFloat.Sign.ofBitVec, ← hsign]
  have hbit : (@unpackSign Format.binary64 b).toNat < 2 := BitVec.isLt _
  split
  · rename_i hzero
    rw [hzero]
    rfl
  · rename_i hone
    have hone' : (@unpackSign Format.binary64 b).toNat ≠ 0 :=
      fun hzero => hone (BitVec.eq_of_toNat_eq hzero)
    rw [show (@unpackSign Format.binary64 b).toNat = 1 by omega]
    rfl

/-- A full exponent field, as a word and as a number. -/
private theorem unpackExponent_eq_full (b : BitVec 64) :
    @unpackExponent Format.binary64 b = -1#_
      ↔ (b.toNat >>> 52) % 2048 = 2047 := by
  rw [← toNat_unpackExponent, ← BitVec.toNat_inj]
  exact Iff.rfl

/-- An empty exponent field, as a word and as a number. -/
private theorem unpackExponent_eq_zero (b : BitVec 64) :
    @unpackExponent Format.binary64 b = 0#_
      ↔ (b.toNat >>> 52) % 2048 = 0 := by
  rw [← toNat_unpackExponent, ← BitVec.toNat_inj]
  exact Iff.rfl

/-! ## Finite floats -/

/-- A float has an exact value just when it is finite. -/
theorem SignedDyadic.isSome_ofFloat? (x : Float) :
    (SignedDyadic.ofFloat? x).isSome = x.isFinite := by
  -- both look for a full exponent field
  have hall := unpackExponent_eq_full x.toBits.toBitVec
  show _ = (unpack Format.binary64 x.toBits.toBitVec).isFinite
  unfold SignedDyadic.ofFloat? unpack
  simp only
  by_cases h : (x.toBits.toNat >>> 52) % 2048 = 2047
  · rw [if_pos h, if_pos (hall.mpr h)]
    split <;> rfl
  · rw [if_neg h, if_neg (mt hall.mp h)]
    split <;> split
    · split <;> rfl
    · rfl
    · split <;> rfl
    · rfl

/-- The number that an unpacked float stands for.  Infinities and what is not
    a number stand for none. -/
def Binary64.exactValue? (x : Float) : Option ℚ :=
  match x.toModel.unpack with
  | .zero _ => some 0
  | .finite s m e _ => some (s.apply m * 2 ^ e)
  | .infinity _ | .notANumber => none

private theorem cast_apply_signOf (negative : Bool) (m : Nat) :
    (((signOf negative).apply (m : Int) : Int) : ℚ)
      = if negative then -(m : ℚ) else m := by
  cases negative with
  | false => exact Int.cast_natCast m
  | true =>
      show ((-(m : Int) : Int) : ℚ) = -(m : ℚ)
      rw [Int.cast_neg, Int.cast_natCast]

/-- The leading one stands above the mantissa field. -/
private theorem toNat_one_append (m : BitVec 52) :
    (1#1 ++ m).toNat = 2 ^ 52 + m.toNat := by
  rw [BitVec.toNat_append, ← Nat.shiftLeft_add_eq_or_of_lt m.isLt]
  rfl

/-- What is read off the bits of a float is the number it stands for. -/
theorem SignedDyadic.exactValue?_of_ofFloat? {x : Float} {d : SignedDyadic}
    (h : SignedDyadic.ofFloat? x = some d) :
    Binary64.exactValue? x
      = some ((if d.negative then -(d.mantissa : ℚ) else d.mantissa)
          * 2 ^ d.exponent) := by
  have hfull := unpackExponent_eq_full x.toBits.toBitVec
  have hempty := unpackExponent_eq_zero x.toBits.toBitVec
  have hexponent := toNat_unpackExponent x.toBits.toBitVec
  have hmantissa := toNat_unpackMantissa x.toBits.toBitVec
  have hsign := ofBitVec_unpackSign x.toBits.toBitVec
  unfold SignedDyadic.ofFloat? at h
  show (match unpack Format.binary64 x.toBits.toBitVec with
    | .zero _ => some 0
    | .finite s m e _ => some ((s.apply m : ℚ) * 2 ^ e)
    | .infinity _ | .notANumber => none) = _
  unfold unpack
  simp only [Nat.one_shiftLeft] at h ⊢
  by_cases hinfinite : (x.toBits.toNat >>> 52) % 2048 = 2047
  · rw [if_pos hinfinite] at h
    cases h
  rw [if_neg hinfinite] at h
  rw [if_neg (mt hfull.mp hinfinite)]
  by_cases hsmall : (x.toBits.toNat >>> 52) % 2048 = 0
  · rw [if_pos hsmall] at h
    rw [if_pos (hempty.mpr hsmall)]
    obtain rfl := Option.some.inj h
    by_cases hzero : @unpackMantissa Format.binary64 x.toBits.toBitVec = 0#52
    · -- either zero is the number zero
      have hnone : x.toBits.toNat % 2 ^ 52 = 0 :=
        hmantissa.symm.trans (congrArg BitVec.toNat hzero)
      rw [dif_pos hzero, hnone, Nat.cast_zero, neg_zero, ite_self, zero_mul]
    · rw [dif_neg hzero]
      show some (((Float.Model.UnpackedFloat.Sign.ofBitVec _).apply _ : ℚ)
        * 2 ^ _) = _
      rw [hsign, cast_apply_signOf, hmantissa, hexponent,
        show x.toBits.toBitVec.toNat >>> 52 % 2048 = 0 from hsmall]
      rfl
  · rw [if_neg hsmall] at h
    rw [if_neg (mt hempty.mp hsmall)]
    obtain rfl := Option.some.inj h
    show some (((Float.Model.UnpackedFloat.Sign.ofBitVec _).apply _ : ℚ)
      * 2 ^ _) = _
    rw [hsign, toNat_one_append, cast_apply_signOf, hmantissa, hexponent]
    rfl

/-! ## The float of a magnitude -/

/-- The word of three fields as a number. -/
private theorem toNat_packComponents (s : Float.Model.UnpackedFloat.Sign)
    (e : BitVec 11) (m : BitVec 52) :
    (packComponents Format.binary64 s e m).toNat
      = s.toBitVec.toNat * 2 ^ 63 + (e.toNat * 2 ^ 52 + m.toNat) := by
  have hm : m.toNat < 2 ^ 52 := m.isLt
  have he : e.toNat < 2 ^ 11 := e.isLt
  show (s.toBitVec ++ e ++ m).toNat = _
  rw [BitVec.toNat_append, BitVec.toNat_append,
    ← Nat.shiftLeft_add_eq_or_of_lt hm, ← Nat.shiftLeft_add_eq_or_of_lt he]
  simp only [Nat.shiftLeft_eq]
  omega

/-- The word of a sign and a magnitude falls into its three fields. -/
private theorem word_eq_packComponents (negative : Bool) (magnitude : Nat)
    (h : magnitude ≤ Binary64.infinity) :
    (UInt64.ofNat (negative.toNat <<< 63 + magnitude)).toBitVec
      = packComponents Format.binary64 (signOf negative)
          (BitVec.ofNat 11 (magnitude / 2 ^ 52))
          (BitVec.ofNat 52 (magnitude % 2 ^ 52)) := by
  have hinf : magnitude ≤ 2047 * 2 ^ 52 := h
  have hneg : negative.toNat ≤ 1 := Bool.toNat_le negative
  have hsign : (signOf negative).toBitVec.toNat = negative.toNat := by
    cases negative <;> rfl
  apply BitVec.eq_of_toNat_eq
  rw [toNat_packComponents, UInt64.toBitVec_ofNat', BitVec.toNat_ofNat,
    BitVec.toNat_ofNat, BitVec.toNat_ofNat, hsign, Nat.shiftLeft_eq]
  omega

/-- No magnitude up to infinity encodes a NaN: infinity alone has a full
    exponent field, and its mantissa is empty. -/
private theorem not_isNaNBits_word (negative : Bool) (magnitude : Nat)
    (h : magnitude ≤ Binary64.infinity) :
    ¬ @isNaNBits Format.binary64
        (UInt64.ofNat (negative.toNat <<< 63 + magnitude)).toBitVec := by
  have hinf : magnitude ≤ 2047 * 2 ^ 52 := h
  rw [word_eq_packComponents negative magnitude h, isNaNBits, decide_eq_true_eq,
    unpackExponent_packComponents, unpackMantissa_packComponents]
  rintro ⟨hfull, hmantissa⟩
  have hval : (BitVec.ofNat 11 (magnitude / 2 ^ 52)).toNat = 2047 := by
    rw [hfull]
    rfl
  rw [BitVec.toNat_ofNat] at hval
  apply hmantissa
  apply BitVec.eq_of_toNat_eq
  rw [BitVec.toNat_ofNat, BitVec.toNat_ofNat]
  omega

/-- Packing undoes unpacking on the word of a magnitude. -/
private theorem pack_unpack_word (negative : Bool) (magnitude : Nat)
    (h : magnitude ≤ Binary64.infinity) :
    pack Format.binary64 (unpack Format.binary64
        (UInt64.ofNat (negative.toNat <<< 63 + magnitude)).toBitVec)
      = (UInt64.ofNat (negative.toNat <<< 63 + magnitude)).toBitVec := by
  rw [pack_unpack, if_neg (not_isNaNBits_word negative magnitude h)]

/-- The float of a magnitude has the sign in its highest bit and the
    magnitude in the others. -/
theorem Binary64.toBits_ofMagnitude (negative : Bool) (magnitude : Nat)
    (h : magnitude ≤ Binary64.infinity) :
    (Binary64.ofMagnitude negative magnitude).toBits.toNat
      = negative.toNat * 2 ^ 63 + magnitude := by
  have hinf : magnitude ≤ 2047 * 2 ^ 52 := h
  have hneg : negative.toNat ≤ 1 := Bool.toNat_le negative
  show (UInt64.ofBitVec (pack Format.binary64 (unpack Format.binary64
    (UInt64.ofNat (negative.toNat <<< 63 + magnitude)).toBitVec))).toNat = _
  rw [pack_unpack_word negative magnitude h, UInt64.ofBitVec_toBitVec,
    UInt64.toNat_ofNat', Nat.shiftLeft_eq]
  omega

/-! ## Changing the sign -/

/-- A sign can be changed before unpacking as well as after it. -/
private theorem neg_unpack (s : Float.Model.UnpackedFloat.Sign)
    (e : BitVec 11) (m : BitVec 52) :
    (unpack Format.binary64 (packComponents Format.binary64 s e m)).neg
      = unpack Format.binary64 (packComponents Format.binary64 (-s) e m) := by
  simp only [unpack, unpackMantissa_packComponents,
    unpackExponent_packComponents, unpackSign_packComponents,
    ofBitVec_toBitVec]
  split
  · split <;> rfl
  · split
    · split <;> rfl
    · rfl

/-- The negative of a float has the same magnitude and the other sign. -/
theorem Binary64.neg_ofMagnitude (negative : Bool) (magnitude : Nat)
    (h : magnitude ≤ Binary64.infinity) :
    -Binary64.ofMagnitude negative magnitude
      = Binary64.ofMagnitude (!negative) magnitude := by
  have hflip : -signOf negative = signOf (!negative) := by
    cases negative <;> rfl
  have hunpacked :
      (unpack Format.binary64 (pack Format.binary64 (unpack Format.binary64
        (UInt64.ofNat (negative.toNat <<< 63 + magnitude)).toBitVec))).neg
      = unpack Format.binary64
        (UInt64.ofNat ((!negative).toNat <<< 63 + magnitude)).toBitVec := by
    rw [pack_unpack_word negative magnitude h,
      word_eq_packComponents negative magnitude h, neg_unpack, hflip,
      ← word_eq_packComponents (!negative) magnitude h]
  exact congrArg (fun u => Float.ofModel (Float.Model.pack u)) hunpacked

/-- The negative of the nearest float is the float nearest to the
    negative. -/
theorem Binary64.neg_nearest (negative : Bool) (num den : Nat) :
    -Binary64.nearest negative num den
      = Binary64.nearest (!negative) num den :=
  Binary64.neg_ofMagnitude negative _ (Binary64.magnitude_le_infinity num den)

/-! ## The exact value of a magnitude -/

/-- Below infinity the exact value is read off the magnitude: its last 52
    bits and the exponent field above them. -/
theorem SignedDyadic.ofFloat?_ofMagnitude (negative : Bool) (magnitude : Nat)
    (h : magnitude < Binary64.infinity) :
    SignedDyadic.ofFloat? (Binary64.ofMagnitude negative magnitude)
      = some (if magnitude < 2 ^ 52 then ⟨negative, magnitude, -1074⟩
        else ⟨negative, 2 ^ 52 + magnitude % 2 ^ 52,
          ((magnitude / 2 ^ 52 : Nat) : Int) - 1075⟩) := by
  have hinf : magnitude < 2047 * 2 ^ 52 := h
  have hneg : negative.toNat ≤ 1 := Bool.toNat_le negative
  unfold SignedDyadic.ofFloat?
  rw [Binary64.toBits_ofMagnitude negative magnitude (Nat.le_of_lt h)]
  have hfield : ((negative.toNat * 2 ^ 63 + magnitude) >>> 52) % 2048
      = magnitude / 2 ^ 52 := by
    rw [Nat.shiftRight_eq_div_pow]
    omega
  have hfraction : (negative.toNat * 2 ^ 63 + magnitude) % (1 <<< 52)
      = magnitude % 2 ^ 52 := by
    rw [Nat.one_shiftLeft]
    omega
  have hsign : ((negative.toNat * 2 ^ 63 + magnitude) >>> 63 == 1)
      = negative := by
    have hdiv : (negative.toNat * 2 ^ 63 + magnitude) >>> 63
        = negative.toNat := by
      rw [Nat.shiftRight_eq_div_pow]
      omega
    rw [hdiv]
    cases negative <;> rfl
  simp only [hfield, hfraction, hsign]
  rw [if_neg (by omega)]
  by_cases hsmall : magnitude < 2 ^ 52
  · rw [if_pos (by omega), if_pos hsmall, Nat.mod_eq_of_lt hsmall]
  · rw [if_neg (by omega), if_neg hsmall, Nat.one_shiftLeft]

end Keypad
