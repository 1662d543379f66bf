import Keypad.Number.Numeral
import Keypad.Tree

/-! # Sentences — the grammar of arithmetic

    A sentence is a list of lexemes: numbers, operators and parentheses,
    whatever text or keys they were read from.  The grammar has one category
    for each way of binding, from the loosest to the tightest, so every
    sentence has its structure written into its derivation: signs bind
    tightest, then multiplication, division and remainder, then addition and
    subtraction, and operators of one category associate to the left.

    `Sentence c w t` says that the lexemes `w` form a phrase of category `c`
    with the structure `t`. -/

namespace Keypad

/-- The smallest unit that carries meaning in a sentence. -/
inductive Lexeme where
  | number (x : Float)
  | operator (o : Operator)
  | opening
  | closing
deriving DecidableEq

/-- The operator that looks like a sign. -/
def Sign.lexeme : Sign → Lexeme
  | .positive => .operator .add
  | .negative => .operator .subtract

namespace Operator

/-- The operators between the terms of a sum. -/
inductive Additive : Operator → Prop where
  | add : Additive .add
  | subtract : Additive .subtract

/-- The operators between the factors of a product. -/
inductive Multiplicative : Operator → Prop where
  | multiply : Multiplicative .multiply
  | divide : Multiplicative .divide
  | remainder : Multiplicative .remainder

theorem additive_or_multiplicative (o : Operator) :
    o.Additive ∨ o.Multiplicative := by
  cases o with
  | add => exact .inl .add
  | subtract => exact .inl .subtract
  | multiply => exact .inr .multiply
  | divide => exact .inr .divide
  | remainder => exact .inr .remainder

end Operator

/-- The categories of phrases. -/
inductive Category where
  /-- Operands joined by any operators. -/
  | sum
  /-- Operands joined by multiplication, division and remainder. -/
  | product
  /-- An operand with its signs. -/
  | signed
  /-- A number or a sentence in parentheses. -/
  | atom
deriving DecidableEq, Repr

/-- The phrases of arithmetic, each with its structure. -/
inductive Sentence : Category → List Lexeme → Tree → Prop where
  | number (x : Float) : Sentence .atom [.number x] (.number x)
  | group {w t} : Sentence .sum w t →
      Sentence .atom (.opening :: w ++ [.closing]) t
  | unsigned {w t} : Sentence .atom w t → Sentence .signed w t
  | sign {w t} (s : Sign) : Sentence .signed w t →
      Sentence .signed (s.lexeme :: w) (.sign s t)
  | factor {w t} : Sentence .signed w t → Sentence .product w t
  | product {v w l r} (o : Operator) : o.Multiplicative →
      Sentence .product v l → Sentence .signed w r →
      Sentence .product (v ++ .operator o :: w) (.operator o l r)
  | term {w t} : Sentence .product w t → Sentence .sum w t
  | sum {v w l r} (o : Operator) : o.Additive →
      Sentence .sum v l → Sentence .product w r →
      Sentence .sum (v ++ .operator o :: w) (.operator o l r)

/-! ## Sentences without their structure

    Which lexemes may stand in a row does not depend on how tightly they bind:
    a sentence is operands with any operators between them, an operand is an
    atom with any signs in front of it, and an atom is a number or a sentence
    in parentheses. -/

/-- The parts of a sentence. -/
inductive Part where
  /-- Operands joined by operators. -/
  | sentence
  /-- An atom with its signs. -/
  | operand
  /-- A number or a sentence in parentheses. -/
  | atom
deriving DecidableEq, Repr

/-- The lexemes that may stand in a row. -/
inductive Grammatical : Part → List Lexeme → Prop where
  | number (x : Float) : Grammatical .atom [.number x]
  | group {w} : Grammatical .sentence w →
      Grammatical .atom (.opening :: w ++ [.closing])
  | unsigned {w} : Grammatical .atom w → Grammatical .operand w
  | sign {w} (s : Sign) : Grammatical .operand w →
      Grammatical .operand (s.lexeme :: w)
  | single {w} : Grammatical .operand w → Grammatical .sentence w
  | joined {v w} (o : Operator) :
      Grammatical .sentence v → Grammatical .operand w →
      Grammatical .sentence (v ++ .operator o :: w)

/-! ## Numbers in digits -/

namespace Numeral

/-- The float nearest to the number with these digits before and after the
    point. -/
def digitsFloat (whole fraction : Text) : Float :=
  Binary64.nearest false (ofDigits (whole ++ fraction))
    (Nat.pow 10 fraction.length)

/-- A text of digits with at most one point among or around them, at least
    one digit, and the float that it denotes. -/
inductive Written : Text → Float → Prop where
  | whole {ds : Text} : ds ≠ [] → (∀ c ∈ ds, c.isDigit) →
      Written ds (digitsFloat ds [])
  | point {ds fs : Text} : ds ++ fs ≠ [] → (∀ c ∈ ds ++ fs, c.isDigit) →
      Written (ds ++ '.' :: fs) (digitsFloat ds fs)

end Numeral

end Keypad
