import Keypad.Proofs.RuleOrder
import Keypad.Proofs.Structure
import Mathlib.Data.List.Chain
import Mathlib.Data.List.Infix

/-! # Well-formed keys — what the guard keeps up

    The guard looks at the keys around the caret only, but what it keeps up
    concerns the whole expression: the first key may start, neighbours go
    together, no number has two points, and no prefix closes more parentheses
    than it opens.  `WellFormed.insert` says that a key which the guard
    accepts, at any place, keeps all four.  Of the guard it needs only that
    none of the seven rules rejects the key (`Context.accepted_iff`). -/

namespace Keypad

/-! ## Well-formed keys -/

namespace Key

/-- Which key may come right after which. -/
def meets : Key → Key → Bool
  | .operator _, b => !b.isOperator && b != .closing
  | .opening, b => b != .closing && (!b.isOperator || b == Rule.minus)
  | .answer, b => !b.isOperand
  | .point, b => b != .opening && b != .answer
  | .digit _, b => b != .answer
  | .closing, _ => true

end Key

/-- What the guard keeps up. -/
structure WellFormed (keys : List Key) : Prop where
  /-- The first key may start. -/
  start : ∀ k ∈ keys.head?, k.canStart = true
  /-- Neighbours go together. -/
  neighbours : keys.IsChain fun a b => a.meets b = true
  /-- A run of digits and points has one point at most. -/
  points : ∀ run, run <:+: keys → (∀ k ∈ run, k.isNumeric = true) →
    run.count .point ≤ 1
  /-- No prefix closes more parentheses than it opens. -/
  closes : (Key.depthFrom 0 keys).isSome = true

namespace Context

variable {left right : List Key} {k : Key}

/-- An accepted key goes together with the key before it. -/
theorem meets_before (h : accepted ⟨left, right, k⟩ = true) :
    ∀ a ∈ left.getLast?, a.meets k = true := by
  -- for each kind of key, the rules that look at what stands before it
  intro a ha
  have hrule := accepted_iff.mp h
  have ha' : left.getLast? = some a := ha
  cases k with
  | operator o =>
      have hneighbours := hrule .operatorNeighbours
      have hopening := hrule .afterOpening
      simp only [Rule.verdict, Rule.rejectIf_ne_false, before, ha']
        at hneighbours hopening
      cases a with
      | operator _ => cases hneighbours
      | opening => cases o <;> first | rfl | cases hopening
      | _ => rfl
  | closing =>
      have hclosing := hrule .closing
      simp only [Rule.verdict, before, ha'] at hclosing
      cases a with
      | operator _ | opening => exact absurd rfl hclosing
      | _ => rfl
  | opening =>
      have hopening := hrule .opening
      simp only [Rule.verdict, before, ha'] at hopening
      cases a with
      | point => exact absurd rfl hopening
      | _ => rfl
  | answer =>
      have hanswer := hrule .answerNeighbours
      simp only [Rule.verdict, Rule.rejectIf_ne_false, before, ha'] at hanswer
      cases a with
      | digit _ | point | answer => cases hanswer
      | _ => rfl
  | digit d =>
      have hanswer := hrule .answerNeighbours
      simp only [Rule.verdict, Rule.rejectIf_ne_false, before, ha'] at hanswer
      cases a with
      | answer => cases hanswer
      | _ => rfl
  | point =>
      have hpoint := hrule .point
      simp only [Rule.verdict, before, ha'] at hpoint
      cases a with
      | digit _ => rfl
      | _ => exact absurd rfl hpoint

/-- An accepted key goes together with the key after it. -/
theorem meets_after (h : accepted ⟨left, right, k⟩ = true) :
    ∀ b ∈ right.head?, k.meets b = true := by
  -- for each kind of key, the rules that look at what stands after it
  intro b hb
  have hrule := accepted_iff.mp h
  have hb' : right.head? = some b := hb
  cases k with
  | operator o =>
      have hneighbours := hrule .operatorNeighbours
      have hclosing := hrule .closing
      simp only [Rule.verdict, after, hb'] at hneighbours hclosing
      cases b with
      | operator _ =>
          rw [Rule.rejectIf_ne_false, Bool.and_eq_false_iff,
            Bool.or_eq_false_iff] at hneighbours
          rcases hneighbours with hoperator | ⟨-, hoperator⟩
          · cases hoperator
          · cases hoperator
      | closing => exact absurd rfl hclosing
      | _ => rfl
  | opening =>
      have hclosing := hrule .closing
      have hopening := hrule .opening
      simp only [Rule.verdict, after, hb'] at hclosing hopening
      cases b with
      | closing => exact absurd rfl hclosing
      | operator o =>
          rw [if_neg (by decide), Rule.rejectIf_ne_false,
            Bool.or_eq_false_iff] at hopening
          cases o with
          | subtract => rfl
          | _ => cases hopening.2
      | _ => rfl
  | closing => rfl
  | answer =>
      have hanswer := hrule .answerNeighbours
      simp only [Rule.verdict, Rule.rejectIf_ne_false, after, hb',
        Bool.or_eq_false_iff] at hanswer
      show (!b.isOperand) = true
      rw [show b.isOperand = false from hanswer.2]
      rfl
  | digit d =>
      have hanswer := hrule .answerNeighbours
      simp only [Rule.verdict, Rule.rejectIf_ne_false, after, hb',
        Bool.or_eq_false_iff] at hanswer
      cases b with
      | answer => cases hanswer.2
      | _ => rfl
  | point =>
      have hpoint := hrule .point
      simp only [Rule.verdict, after, hb'] at hpoint
      cases b with
      | opening | answer =>
          rw [if_neg (by decide)] at hpoint
          split at hpoint
          · exact absurd rfl hpoint
          · exact absurd rfl hpoint
      | _ => rfl

/-- A key that is accepted at the front may start. -/
theorem canStart_of_left_nil (h : accepted ⟨[], right, k⟩ = true) :
    k.canStart = true := by
  have hstart := accepted_iff.mp h .start
  cases hk : k.canStart with
  | true => rfl
  | false =>
      simp only [Rule.verdict, hk] at hstart
      exact absurd rfl hstart

/-- A point is accepted into a number without one. -/
theorem numberHasPoint_of_accepted
    (h : accepted ⟨left, right, .point⟩ = true) :
    Rule.numberHasPoint ⟨left, right, .point⟩ = false := by
  have hpoint := accepted_iff.mp h .point
  simp only [Rule.verdict] at hpoint
  split at hpoint
  · rename_i hne
    exact absurd rfl hne
  split at hpoint
  · exact absurd rfl hpoint
  split at hpoint
  · exact absurd rfl hpoint
  · exact Rule.rejectIf_ne_false.mp hpoint

/-- A closing parenthesis is accepted where no operand is due and the
    parentheses stay paired. -/
theorem closing_of_accepted (h : accepted ⟨left, right, .closing⟩ = true) :
    Rule.lacksOperand left.getLast? = false
      ∧ (Key.depthFrom 0 (left ++ Key.closing :: right)).isSome = true := by
  have hclosing := accepted_iff.mp h .closing
  simp only [Rule.verdict] at hclosing
  rw [if_pos trivial, Rule.rejectIf_ne_false, Bool.or_eq_false_iff,
    Text.depth, depthFrom_keysText] at hclosing
  refine ⟨hclosing.1, ?_⟩
  rw [← Option.not_isNone, hclosing.2]
  rfl

end Context

/-! ## What a key keeps up -/

/-- Part of a list with a new element has the element or is part of the list
    without it. -/
theorem part_of_insert {α : Type} {w l r : List α} {k : α}
    (h : w <:+: l ++ k :: r) :
    w <:+: l ++ r ∨ ∃ a b, w = a ++ k :: b ∧ a <:+ l ∧ b <+: r := by
  obtain ⟨s, t, heq⟩ := h
  rw [List.append_assoc] at heq
  rcases List.append_eq_append_iff.mp heq with
    ⟨l', rfl, hrest⟩ | ⟨s', rfl, hrest⟩
  · -- the part starts in front of the element
    rcases List.append_eq_append_iff.mp hrest with ⟨x, rfl, -⟩ | ⟨x, rfl, hx⟩
    · left
      exact ⟨s, x ++ r, by simp⟩
    · cases x with
      | nil =>
          left
          exact ⟨s, r, by simp⟩
      | cons k' b =>
          obtain ⟨rfl, rfl⟩ := List.cons.inj hx
          right
          exact ⟨l', b, rfl, List.suffix_append s l', List.prefix_append b t⟩
  · -- the part starts at the element or after it
    cases s' with
    | nil =>
        cases w with
        | nil => exact Or.inl (List.nil_infix)
        | cons k' b =>
            obtain ⟨rfl, rfl⟩ := List.cons.inj hrest
            right
            exact ⟨[], b, rfl, List.nil_suffix, List.prefix_append b t⟩
    | cons k' s' =>
        obtain ⟨rfl, rfl⟩ := List.cons.inj hrest
        left
        exact ⟨l ++ s', t, by simp⟩

namespace Key

/-- One more open parenthesis at the start closes nothing too much. -/
theorem isSome_depthFrom_succ {d : Nat} {keys : List Key}
    (h : (depthFrom d keys).isSome = true) :
    (depthFrom (d + 1) keys).isSome = true := by
  induction keys generalizing d with
  | nil => rfl
  | cons k keys ih =>
      cases k with
      | opening => exact ih h
      | closing =>
          cases d with
          | zero => cases h
          | succ d => exact ih h
      | digit _ | point | operator _ | answer => exact ih h

/-- Any key but a closing parenthesis may go in anywhere, as far as the
    parentheses are concerned. -/
theorem isSome_depthFrom_insert {left right : List Key} {k : Key}
    (hk : k ≠ .closing) (h : (depthFrom 0 (left ++ right)).isSome = true) :
    (depthFrom 0 (left ++ k :: right)).isSome = true := by
  rw [depthFrom_append] at h ⊢
  cases hleft : depthFrom 0 left with
  | none =>
      rw [hleft] at h
      cases h
  | some d =>
      rw [hleft] at h
      cases k with
      | opening => exact isSome_depthFrom_succ h
      | closing => exact absurd rfl hk
      | digit _ | point | operator _ | answer => exact h

end Key

namespace WellFormed

theorem nil : WellFormed [] where
  start := by rintro k ⟨⟩
  neighbours := List.IsChain.nil
  points run hrun _ := by
    rw [List.infix_nil.mp hrun]
    exact Nat.zero_le 1
  closes := rfl

/-- What stands in front keeps it up as well. -/
theorem left {v w : List Key} (h : WellFormed (v ++ w)) : WellFormed v where
  start := by
    cases v with
    | nil => rintro _ ⟨⟩
    | cons k v => exact fun k' hk' => h.start k' hk'
  neighbours := h.neighbours.left_of_append
  points run hrun := h.points run (List.infix_append_of_infix_left hrun)
  closes := by
    have hcloses := h.closes
    rw [Key.depthFrom_append] at hcloses
    cases hv : Key.depthFrom 0 v with
    | none =>
        rw [hv] at hcloses
        cases hcloses
    | some d => rfl

/-- Neighbours go together wherever they stand. -/
theorem meets {v w : List Key} {a b : Key}
    (h : WellFormed (v ++ [a] ++ b :: w)) : a.meets b = true :=
  (List.isChain_append.mp h.neighbours).2.2 a List.getLast?_concat b rfl

/-- No point follows a point. -/
theorem not_point_point {v w : List Key}
    (h : WellFormed (v ++ [Key.point] ++ Key.point :: w)) : False := by
  have hcount := h.points [.point, .point] ⟨v, w, by simp⟩ (by decide)
  exact absurd hcount (by decide)

/-- A part of a number on one side of an accepted point has no point. -/
theorem count_point_eq_zero {run keys : List Key}
    (hrun : run <+: keys) (hnumeric : ∀ k ∈ run, k.isNumeric = true)
    (h : (keys.takeWhile Key.isNumeric).contains .point = false) :
    run.count .point = 0 := by
  obtain ⟨rest, rfl⟩ := hrun
  rw [List.count_eq_zero]
  intro hmem
  rw [List.takeWhile_append_of_pos hnumeric, ← Bool.not_eq_true,
    List.contains_iff_mem] at h
  exact h (List.mem_append_left _ hmem)

/-- A number that an accepted key goes into has one point at most. -/
theorem count_point_insert {left right a b : List Key} {k : Key}
    (h : WellFormed (left ++ right))
    (hk : Context.accepted ⟨left, right, k⟩ = true) (ha : a <:+ left)
    (hb : b <+: right) (hnumeric : ∀ k' ∈ a ++ k :: b, k'.isNumeric = true) :
    (a ++ k :: b).count .point ≤ 1 := by
  have ha' : ∀ k' ∈ a.reverse, k'.isNumeric = true := by
    intro k' hk'
    exact hnumeric k' (List.mem_append_left _ (List.mem_reverse.mp hk'))
  have hb' : ∀ k' ∈ b, k'.isNumeric = true := by
    intro k' hk'
    exact hnumeric k' (List.mem_append_right _ (List.mem_cons_of_mem _ hk'))
  have hnumeric' : k.isNumeric = true :=
    hnumeric k (List.mem_append_right _ (List.mem_cons_self ..))
  cases k with
  | point =>
      -- neither side of the number has a point
      have hnone := Context.numberHasPoint_of_accepted hk
      rw [Rule.numberHasPoint, Bool.or_eq_false_iff] at hnone
      have hzero := count_point_eq_zero (List.reverse_prefix.mpr ha) ha' hnone.1
      rw [List.count_reverse] at hzero
      rw [List.count_append, List.count_cons_self, hzero,
        count_point_eq_zero hb hb' hnone.2]
  | digit d =>
      -- without the digit the two sides were one number before
      obtain ⟨x, rfl⟩ := ha
      obtain ⟨y, rfl⟩ := hb
      have hbefore : (a ++ b).count .point ≤ 1 := by
        refine h.points (a ++ b) ⟨x, y, by simp⟩ ?_
        intro k' hk'
        rcases List.mem_append.mp hk' with hka | hkb
        · exact ha' k' (List.mem_reverse.mpr hka)
        · exact hb' k' hkb
      have hne : Key.digit d ≠ .point := Key.noConfusion
      rw [List.count_append] at hbefore ⊢
      rw [List.count_cons_of_ne hne]
      exact hbefore
  | operator _ | opening | closing | answer => cases hnumeric'

/-- **THE GUARD KEEPS KEYS WELL FORMED**: a key that is accepted between two
    lists of keys leaves them well formed. -/
theorem insert {left right : List Key} {k : Key}
    (h : WellFormed (left ++ right))
    (hk : Context.accepted ⟨left, right, k⟩ = true) :
    WellFormed (left ++ k :: right) where
  start := by
    cases left with
    | nil =>
        intro k' hk'
        obtain rfl := Option.some.inj hk'
        exact Context.canStart_of_left_nil hk
    | cons a left => exact fun k' hk' => h.start k' hk'
  neighbours := by
    obtain ⟨hleft, hright, -⟩ := List.isChain_append.mp h.neighbours
    have hafter : (k :: right).IsChain fun a b => a.meets b = true :=
      List.isChain_cons.mpr ⟨Context.meets_after hk, hright⟩
    refine List.isChain_append.mpr ⟨hleft, hafter, ?_⟩
    intro a ha b hb
    obtain rfl := Option.some.inj hb
    exact Context.meets_before hk a ha
  points := by
    -- a number of the new keys was there before, or the key went into it
    intro run hrun hnumeric
    rcases part_of_insert hrun with hpart | ⟨a, b, rfl, ha, hb⟩
    · exact h.points run hpart hnumeric
    · exact h.count_point_insert hk ha hb hnumeric
  closes := by
    by_cases hclosing : k = .closing
    · rw [hclosing] at hk ⊢
      exact (Context.closing_of_accepted hk).2
    · exact Key.isSome_depthFrom_insert hclosing h.closes

end WellFormed

end Keypad
