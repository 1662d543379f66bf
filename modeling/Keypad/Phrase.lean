import Keypad.Key
import Keypad.Number.Display
import Keypad.Sentence
import Mathlib.Data.List.Chain

/-! # Phrases — what a list of keys means

    The keypad has a grammar of its own, in which a product may be left
    implied and a minus may lead a sum.  A phrase is a list of keys with its
    meaning, a tree whose numbers are what the keys show: a number in
    digits, or the answer as it is written out.

    Multiplication, division, remainder and implied products bind alike, more
    tightly than addition and subtraction, and all associate to the left; a
    leading minus belongs to the first factor alone.

    Which keys make up a sentence at all is a simpler matter, and there it
    does not count how tightly an operator binds: products in a row with any
    operators between them, the first with a minus perhaps (`Formed`). -/

namespace Keypad

namespace Phrase

/-- The keys of a number: digits, and perhaps a point and more digits. -/
def numberKeys (whole : List (Fin 10)) : Option (List (Fin 10)) → List Key
  | none => whole.map .digit
  | some fraction => whole.map .digit ++ .point :: fraction.map .digit

/-- The float nearest to a number in digits. -/
def numberFloat (whole : List (Fin 10)) (fraction : Option (List (Fin 10))) :
    Float :=
  let digits := whole ++ fraction.getD []
  Binary64.nearest false (digits.foldl (fun n d => 10 * n + d.val) 0)
    (Nat.pow 10 (fraction.getD []).length)

/-- The float read from the answer as it is shown. -/
def answerFloat (answer : Float) : Float :=
  match Numeral.ofText? (shownText answer) with
  | some n => n.toFloat
  | none => Binary64.nan

/-- The categories of phrases.  The first product of a sum may have a
    leading minus. -/
inductive Kind where
  | sum
  | product (first : Bool)
  | factor
deriving DecidableEq, Repr

/-- Two factors may stand side by side if one of them is a group. -/
def Juxtaposed (v w : List Key) : Prop :=
  v.getLast? = some .closing ∨ w.head? = some .opening

/-- The meanings of keys, given the answer. -/
inductive Means (answer : Float) : Kind → List Key → Tree → Prop where
  | number (whole : List (Fin 10)) (fraction : Option (List (Fin 10))) :
      whole ≠ [] →
      Means answer .factor (numberKeys whole fraction)
        (.number (numberFloat whole fraction))
  | answer : Means answer .factor [.answer] (.number (answerFloat answer))
  | group {w t} : Means answer .sum w t →
      Means answer .factor (.opening :: w ++ [.closing]) t
  | single {first w t} : Means answer .factor w t →
      Means answer (.product first) w t
  | negated {w t} : Means answer .factor w t →
      Means answer (.product true) (.operator .subtract :: w)
        (.sign .negative t)
  | product {first v w l r} (o : Operator) : o.Multiplicative →
      Means answer (.product first) v l → Means answer .factor w r →
      Means answer (.product first) (v ++ .operator o :: w) (.operator o l r)
  | implied {first v w l r} : Juxtaposed v w →
      Means answer (.product first) v l → Means answer .factor w r →
      Means answer (.product first) (v ++ w) (.operator .multiply l r)
  | term {w t} : Means answer (.product true) w t → Means answer .sum w t
  | sum {v w l r} (o : Operator) : o.Additive →
      Means answer .sum v l → Means answer (.product false) w r →
      Means answer .sum (v ++ .operator o :: w) (.operator o l r)

/-! ## The form of keys -/

/-- The forms that keys may have.  A sentence that may be signed may lead
    with a minus. -/
inductive Form where
  | sentence (signed : Bool)
  | product
  | factor
deriving DecidableEq, Repr

/-- The keys of a form.  A product is a row of factors, a sentence a row of
    products with operators between them. -/
inductive Formed : Form → List Key → Prop where
  | number (whole : List (Fin 10)) (fraction : Option (List (Fin 10))) :
      whole ≠ [] → Formed .factor (numberKeys whole fraction)
  | answer : Formed .factor [.answer]
  | group {w} : Formed (.sentence true) w →
      Formed .factor (.opening :: w ++ [.closing])
  | single {w} : Formed .factor w → Formed .product w
  | implied {v w} : Juxtaposed v w → Formed .product v → Formed .factor w →
      Formed .product (v ++ w)
  | plain {signed w} : Formed .product w → Formed (.sentence signed) w
  | negated {w} : Formed .product w →
      Formed (.sentence true) (.operator .subtract :: w)
  | joined {signed v w} (o : Operator) : Formed (.sentence signed) v →
      Formed .product w →
      Formed (.sentence signed) (v ++ .operator o :: w)

/-- Behind a point come digits, an operator or nothing. -/
def PointsFollowed (keys : List Key) : Prop :=
  keys.IsChain fun a b => a = .point → b.isDigit = true ∨ b.isOperator = true

/-- The sentences of the keypad. -/
structure IsSentence (keys : List Key) : Prop where
  formed : Formed (.sentence true) keys
  /-- A number that ends in its point is followed by an operator or by
      nothing. -/
  followed : PointsFollowed keys

/-- Every point before an opening parenthesis, and at the end, has digits
    after it. -/
def PointsClosed (keys : List Key) : Prop :=
  ¬ [.point, .opening] <:+: keys ∧ keys.getLast? ≠ some .point

end Phrase

end Keypad
