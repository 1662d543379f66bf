import Keypad.Proofs.Grammar
import Mathlib.Data.List.Forall2

/-! # Written out — a negative number as a lexeme and as four

    A negative number is written with a minus and in parentheses where it is
    to be one operand.  That takes four lexemes, and no sentence notices: the
    four are walked over as the one (`walk_writtenOut`), and they have its
    value (`Sentence.writtenOut`). -/

namespace Keypad

/-- What corresponds to two lists in a row falls into two parts. -/
theorem forall₂_append {α β : Type} {R : α → β → Prop} {a b : List α}
    {l : List β} (h : List.Forall₂ R (a ++ b) l) :
    ∃ v w, l = v ++ w ∧ List.Forall₂ R a v ∧ List.Forall₂ R b w :=
  ⟨_, _, (List.take_append_drop a.length l).symm,
    (List.forall₂_take_append l a b h.flip).flip,
    (List.forall₂_drop_append l a b h.flip).flip⟩

namespace Lexeme

/-- A lexeme written out: as it stands, or, for a negative number, as a number
    with a minus in parentheses. -/
inductive WrittenOut : Lexeme → List Lexeme → Prop where
  | self (l : Lexeme) : WrittenOut l [l]
  | negative (x : Float) : WrittenOut (.number (-x))
      [.opening, .operator .subtract, .number x, .closing]

/-- A lexeme that is no number is written as it stands. -/
theorem WrittenOut.eq_self {l : Lexeme} {w : List Lexeme} (h : l.WrittenOut w)
    (hl : ∀ x, l ≠ .number x) : w = [l] := by
  cases h with
  | self => rfl
  | negative x => exact absurd rfl (hl (-x))

/-- Where a number may stand a negative one may stand written out. -/
theorem WrittenOut.walk {l : Lexeme} {w : List Lexeme} (h : l.WrittenOut w)
    (p : Position) : p.walk w = p.step l := by
  cases h with
  | self => exact p.walk_singleton l
  | negative x =>
      obtain ⟨slot, n⟩ := p
      cases slot <;> rfl

end Lexeme

theorem walk_writtenOut {w : List Lexeme} {parts : List (List Lexeme)}
    (h : List.Forall₂ Lexeme.WrittenOut w parts) :
    ∀ p : Position, p.walk parts.flatten = p.walk w := by
  induction h with
  | nil =>
      intro p
      rfl
  | cons hl _ ih =>
      intro p
      rw [List.flatten_cons, Position.walk_append, hl.walk,
        Position.walk_cons]
      exact congrArg _ (funext ih)

/-- What is written out of two phrases with an operator between them. -/
theorem writtenOut_operator {v w : List Lexeme} {o : Operator}
    {parts : List (List Lexeme)}
    (h : List.Forall₂ Lexeme.WrittenOut (v ++ .operator o :: w) parts) :
    ∃ left right, List.Forall₂ Lexeme.WrittenOut v left
      ∧ List.Forall₂ Lexeme.WrittenOut w right
      ∧ parts.flatten = left.flatten ++ .operator o :: right.flatten := by
  obtain ⟨left, rest, rfl, hleft, hrest⟩ := forall₂_append h
  obtain ⟨part, right, hoperator, hright, rfl⟩ :=
    List.forall₂_cons_left_iff.mp hrest
  refine ⟨left, right, hleft, hright, ?_⟩
  rw [hoperator.eq_self nofun, List.flatten_append, List.flatten_cons]
  rfl

/-- **WRITTEN OUT A PHRASE KEEPS ITS VALUE**. -/
theorem Sentence.writtenOut {c : Category} {w : List Lexeme} {t : Tree}
    (h : Sentence c w t) :
    ∀ {parts : List (List Lexeme)},
      List.Forall₂ Lexeme.WrittenOut w parts →
      ∃ t', Sentence c parts.flatten t' ∧ t'.value = t.value := by
  induction h with
  | number x =>
      intro parts hparts
      obtain ⟨part, rest, hpart, hrest, rfl⟩ :=
        List.forall₂_cons_left_iff.mp hparts
      obtain rfl := List.forall₂_nil_left_iff.mp hrest
      rw [List.flatten_cons, List.flatten_nil, List.append_nil]
      cases hpart with
      | self => exact ⟨_, .number x, rfl⟩
      | negative x =>
          exact ⟨_, .group (.term (.factor (.sign .negative (.unsigned
            (.number x))))), rfl⟩
  | group _ ih =>
      intro parts hparts
      obtain ⟨part, rest, hopening, hrest, rfl⟩ :=
        List.forall₂_cons_left_iff.mp hparts
      obtain ⟨inner, last, rfl, hinner, hlast⟩ := forall₂_append hrest
      obtain ⟨part', none', hclosing, hnone, rfl⟩ :=
        List.forall₂_cons_left_iff.mp hlast
      obtain rfl := List.forall₂_nil_left_iff.mp hnone
      obtain ⟨t', ht', hvalue⟩ := ih hinner
      refine ⟨t', ?_, hvalue⟩
      rw [hopening.eq_self nofun, hclosing.eq_self nofun, List.flatten_cons,
        List.flatten_append]
      exact .group ht'
  | unsigned _ ih =>
      intro parts hparts
      obtain ⟨t', ht', hvalue⟩ := ih hparts
      exact ⟨t', .unsigned ht', hvalue⟩
  | sign s _ ih =>
      intro parts hparts
      obtain ⟨part, rest, hsign, hrest, rfl⟩ :=
        List.forall₂_cons_left_iff.mp hparts
      obtain ⟨t', ht', hvalue⟩ := ih hrest
      refine ⟨.sign s t', ?_, ?_⟩
      · rw [hsign.eq_self (by cases s <;> nofun), List.flatten_cons]
        exact .sign s ht'
      · rw [Tree.value_sign, Tree.value_sign, hvalue]
  | factor _ ih =>
      intro parts hparts
      obtain ⟨t', ht', hvalue⟩ := ih hparts
      exact ⟨t', .factor ht', hvalue⟩
  | term _ ih =>
      intro parts hparts
      obtain ⟨t', ht', hvalue⟩ := ih hparts
      exact ⟨t', .term ht', hvalue⟩
  | product o ho _ _ ihl ihr =>
      intro parts hparts
      obtain ⟨left, right, hleft, hright, hflatten⟩ :=
        writtenOut_operator hparts
      obtain ⟨l', hl', hvaluel⟩ := ihl hleft
      obtain ⟨r', hr', hvaluer⟩ := ihr hright
      rw [hflatten]
      exact ⟨.operator o l' r', .product o ho hl' hr',
        Tree.value_operator_congr o hvaluel hvaluer⟩
  | sum o ho _ _ ihl ihr =>
      intro parts hparts
      obtain ⟨left, right, hleft, hright, hflatten⟩ :=
        writtenOut_operator hparts
      obtain ⟨l', hl', hvaluel⟩ := ihl hleft
      obtain ⟨r', hr', hvaluer⟩ := ihr hright
      rw [hflatten]
      exact ⟨.operator o l' r', .sum o ho hl' hr',
        Tree.value_operator_congr o hvaluel hvaluer⟩

end Keypad
