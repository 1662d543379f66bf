import Keypad.Proofs.WellFormed

/-! # Accepted again — what the guard says of a key that is there

    Toward: of the keys that stand in well-formed keys, the guard would accept
    all in their places but two kinds.

    The guard keeps keys well formed whatever the order in which they come.
    The other way round it is more particular: each rule is taken for a key
    that stands between its neighbours already, and what well-formed keys say
    of it leaves the rule nothing to reject, with two exceptions.  A point
    wants a digit in front of it, and a closing parenthesis wants no point
    there, while well-formed keys may have both: an operator or a parenthesis
    goes in between a digit and its point, and a point in front of a closing
    parenthesis. -/

namespace Keypad

/-- A point is accepted right after a digit only. -/
theorem Context.isDigit_before_of_accepted {left right : List Key}
    (h : accepted ⟨left, right, .point⟩ = true) :
    left.getLast?.any Key.isDigit = true := by
  have hpoint := accepted_iff.mp h .point
  cases hdigit : left.getLast?.any Key.isDigit with
  | true => rfl
  | false =>
      simp only [Rule.verdict, Context.before, hdigit] at hpoint
      exact absurd rfl hpoint

namespace WellFormed

variable {left right : List Key} {k : Key}

/-! ## The surroundings of a key -/

theorem meets_before (h : WellFormed (left ++ k :: right)) :
    ∀ a ∈ left.getLast?, a.meets k = true := by
  obtain ⟨-, -, hseam⟩ := List.isChain_append.mp h.neighbours
  intro a ha
  exact hseam a ha k rfl

theorem meets_after (h : WellFormed (left ++ k :: right)) :
    ∀ b ∈ right.head?, k.meets b = true := by
  obtain ⟨-, hright, -⟩ := List.isChain_append.mp h.neighbours
  exact (List.isChain_cons.mp hright).1

/-- The number around a point has no other point. -/
theorem numberHasPoint (h : WellFormed (left ++ Key.point :: right)) :
    Rule.numberHasPoint ⟨left, right, .point⟩ = false := by
  obtain ⟨front, hfront⟩ := List.reverse_suffix.mpr
    (List.takeWhile_prefix (l := left.reverse) Key.isNumeric)
  rw [List.reverse_reverse] at hfront
  obtain ⟨back, hback⟩ := List.takeWhile_prefix (l := right) Key.isNumeric
  -- the whole number, with its one point
  have hcount := h.points
    ((left.reverse.takeWhile Key.isNumeric).reverse
      ++ .point :: right.takeWhile Key.isNumeric)
    ⟨front, back, by
      rw [← List.append_assoc, hfront, List.append_assoc, List.cons_append,
        hback]⟩ ?_
  · rw [List.count_append, List.count_reverse, List.count_cons_self] at hcount
    have hleft : Key.point ∉ left.reverse.takeWhile Key.isNumeric :=
      List.count_eq_zero.mp (by omega)
    have hright : Key.point ∉ right.takeWhile Key.isNumeric :=
      List.count_eq_zero.mp (by omega)
    rw [Rule.numberHasPoint, Bool.or_eq_false_iff, ← Bool.not_eq_true,
      ← Bool.not_eq_true, List.contains_iff_mem, List.contains_iff_mem]
    exact ⟨hleft, hright⟩
  · intro a ha
    rcases List.mem_append.mp ha with hleft | hright
    · exact List.mem_takeWhile_imp (List.mem_reverse.mp hleft)
    · rcases List.mem_cons.mp hright with rfl | hright
      · rfl
      · exact List.mem_takeWhile_imp hright

/-! ## Rule by rule -/

/-- The first key may start. -/
theorem verdict_start (h : WellFormed (left ++ k :: right)) :
    Rule.verdict .start ⟨left, right, k⟩ ≠ some false := by
  cases left with
  | nil =>
      rw [Rule.verdict, h.start k rfl]
      cases right <;> rintro ⟨⟩
  | cons a left => rintro ⟨⟩

theorem verdict_afterOpening (h : WellFormed (left ++ k :: right)) :
    Rule.verdict .afterOpening ⟨left, right, k⟩ ≠ some false := by
  rw [Rule.verdict, Rule.rejectIf_ne_false, Context.before]
  by_cases hopening : left.getLast? = some .opening
  · have hmeets := h.meets_before .opening hopening
    rw [hopening]
    cases k with
    | operator o => cases o <;> first | rfl | cases hmeets
    | _ => rfl
  · rw [beq_eq_false_iff_ne.mpr hopening]
    rfl

theorem verdict_operatorNeighbours (h : WellFormed (left ++ k :: right)) :
    Rule.verdict .operatorNeighbours ⟨left, right, k⟩ ≠ some false := by
  rw [Rule.verdict, Rule.rejectIf_ne_false, Context.before, Context.after]
  cases k with
  | operator o =>
      have hleft : left.getLast?.any Key.isOperator = false := by
        rw [Option.any_eq_false]
        intro a ha
        have hmeets := h.meets_before a ha
        cases a with
        | operator _ => cases hmeets
        | _ => rfl
      have hright : right.head?.any Key.isOperator = false := by
        rw [Option.any_eq_false]
        intro b hb
        have hmeets := h.meets_after b hb
        cases b with
        | operator _ => cases hmeets
        | _ => rfl
      rw [hleft, hright]
      rfl
  | _ => rfl

theorem verdict_answerNeighbours (h : WellFormed (left ++ k :: right)) :
    Rule.verdict .answerNeighbours ⟨left, right, k⟩ ≠ some false := by
  rw [Rule.verdict, Context.before, Context.after]
  cases k with
  | answer =>
      have hleft : left.getLast?.any Key.isOperand = false := by
        rw [Option.any_eq_false]
        intro a ha
        have hmeets := h.meets_before a ha
        cases a with
        | digit _ | point | answer => cases hmeets
        | _ => rfl
      have hright : right.head?.any Key.isOperand = false := by
        rw [Option.any_eq_false]
        intro b hb
        have hmeets := h.meets_after b hb
        cases b with
        | digit _ | point | answer => cases hmeets
        | _ => rfl
      rw [Rule.rejectIf_ne_false, hleft, hright]
      rfl
  | digit _ | point =>
      have hleft : left.getLast? ≠ some .answer := by
        intro ha
        cases h.meets_before .answer ha
      have hright : right.head? ≠ some .answer := by
        intro hb
        cases h.meets_after .answer hb
      rw [Rule.rejectIf_ne_false, beq_eq_false_iff_ne.mpr hleft,
        beq_eq_false_iff_ne.mpr hright]
      rfl
  | _ => rintro ⟨⟩

theorem verdict_opening (h : WellFormed (left ++ k :: right)) :
    Rule.verdict .opening ⟨left, right, k⟩ ≠ some false := by
  rw [Rule.verdict, Context.before, Context.after]
  split
  · rintro ⟨⟩
  · rename_i hne
    obtain rfl : k = .opening := not_not.mp hne
    have hleft : left.getLast? ≠ some .point := by
      intro ha
      cases h.meets_before .point ha
    rw [Rule.rejectIf_ne_false, beq_eq_false_iff_ne.mpr hleft]
    cases hb : right.head? with
    | none => rfl
    | some b =>
        have hmeets := h.meets_after b hb
        cases b with
        | operator o => cases o <;> first | rfl | cases hmeets
        | _ => rfl

/-- A closing parenthesis has its partner and an operand in front of it. -/
theorem verdict_closing (h : WellFormed (left ++ k :: right))
    (hk : k = .closing → left.getLast? ≠ some .point) :
    Rule.verdict .closing ⟨left, right, k⟩ ≠ some false := by
  rw [Rule.verdict, Context.before, Context.after]
  split
  · rename_i hclosing
    obtain rfl : k = .closing := hclosing
    rw [Rule.rejectIf_ne_false, Bool.or_eq_false_iff]
    constructor
    · cases ha : left.getLast? with
      | none =>
          rw [List.getLast?_eq_none_iff.mp ha] at h
          cases h.start .closing rfl
      | some a =>
          have hmeets := h.meets_before a ha
          cases a with
          | point => exact absurd ha (hk rfl)
          | operator _ | opening => cases hmeets
          | digit _ | answer | closing => rfl
    · rw [Text.depth, depthFrom_keysText, Option.isNone_eq_false_iff]
      exact h.closes
  · rw [Rule.rejectIf_ne_false]
    show (right.head? == some .closing && (k.isOperator || k == .opening))
      = false
    by_cases hb : right.head? = some .closing
    · have hmeets := h.meets_after .closing hb
      rw [hb]
      cases k with
      | operator _ | opening => cases hmeets
      | _ => rfl
    · rw [beq_eq_false_iff_ne.mpr hb]
      rfl

/-- A point goes into a number that has none. -/
theorem verdict_point (h : WellFormed (left ++ k :: right))
    (hk : k = .point → left.getLast?.any Key.isDigit = true) :
    Rule.verdict .point ⟨left, right, k⟩ ≠ some false := by
  rw [Rule.verdict, Context.before, Context.after]
  split
  · rintro ⟨⟩
  · rename_i hne
    obtain rfl : k = .point := not_not.mp hne
    have hright : ¬ (right.head? == some .opening
        || right.head? == some .answer) = true := by
      rw [Bool.or_eq_true, beq_iff_eq, beq_iff_eq]
      rintro (hb | hb)
      · cases h.meets_after .opening hb
      · cases h.meets_after .answer hb
    rw [hk rfl, Bool.not_true, if_neg Bool.false_ne_true, if_neg hright,
      h.numberHasPoint]
    rintro ⟨⟩

/-- **WHAT THE GUARD WOULD ACCEPT AGAIN**: a key in well-formed keys would be
    accepted in its place, unless it is a point that follows no digit or a
    closing parenthesis that follows a point. -/
theorem accepted_iff (h : WellFormed (left ++ k :: right)) :
    Context.accepted ⟨left, right, k⟩ = true
      ↔ (k = .point → left.getLast?.any Key.isDigit = true)
        ∧ (k = .closing → left.getLast? ≠ some .point) := by
  constructor
  · intro hk
    constructor
    · rintro rfl
      exact Context.isDigit_before_of_accepted hk
    · rintro rfl hpoint
      have hlacks := (Context.closing_of_accepted hk).1
      rw [hpoint] at hlacks
      cases hlacks
  · rintro ⟨hpoint, hclosing⟩
    rw [Context.accepted_iff]
    intro r
    cases r with
    | start => exact h.verdict_start
    | afterOpening => exact h.verdict_afterOpening
    | operatorNeighbours => exact h.verdict_operatorNeighbours
    | closing => exact h.verdict_closing hclosing
    | answerNeighbours => exact h.verdict_answerNeighbours
    | point => exact h.verdict_point hpoint
    | opening => exact h.verdict_opening

end WellFormed

end Keypad
