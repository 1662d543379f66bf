/-! # Nearest — rounding a quotient to a natural number

    One rounding rule serves the whole library: to the nearest, and of two
    equally near neighbours to the even one.  The decimal that is shown and
    the binary64 value that is stored are both such roundings, at different
    scales. -/

namespace Keypad

/-- The natural number nearest to `num / den`; a tie goes to the even
    neighbour. -/
def roundDiv (num den : Nat) : Nat :=
  let quotient := num / den
  let remainder := num % den
  if 2 * remainder < den then quotient
  else if den < 2 * remainder then quotient + 1
  else quotient + quotient % 2

/-- Rounding goes to the quotient or to the number after it. -/
theorem roundDiv_eq_or (num den : Nat) :
    roundDiv num den = num / den ∨ roundDiv num den = num / den + 1 := by
  unfold roundDiv
  simp only
  split
  · exact Or.inl rfl
  · split
    · exact Or.inr rfl
    · omega

/-- The rounded quotient is within half a unit of the exact one. -/
theorem roundDiv_near (num den : Nat) (h : 0 < den) :
    2 * (roundDiv num den * den) ≤ 2 * num + den
      ∧ 2 * num ≤ 2 * (roundDiv num den * den) + den := by
  have hsum : den * (num / den) + num % den = num := Nat.div_add_mod num den
  have hlt : num % den < den := Nat.mod_lt _ h
  have hcomm : num / den * den = den * (num / den) := Nat.mul_comm ..
  have hparity : num / den % 2 = 0 ∨ num / den % 2 = 1 := by omega
  unfold roundDiv
  simp only
  split
  · omega
  · split
    · rw [Nat.add_mul]
      omega
    · rcases hparity with heven | hodd
      · rw [heven, Nat.add_zero]
        omega
      · rw [hodd, Nat.add_mul]
        omega

/-- On a tie the rounded quotient is even. -/
theorem roundDiv_even (num den : Nat) (h : 2 * (num % den) = den) :
    roundDiv num den % 2 = 0 := by
  unfold roundDiv
  simp only
  rw [if_neg (by omega), if_neg (by omega)]
  omega

end Keypad
