import Keypad.Guard

/-! # The order of the rules — which rule speaks first does not matter

    The guard asks its rules in a fixed order and goes by the first that
    decides.  A rule that accepts keeps the rules after it from being heard,
    so the order might matter wherever one accepts and another rejects.

    There is no such place.  Six of the seven rules can only reject; the rule
    of the start is the one that accepts (`Rule.alone_of_verdict`), and it does
    so for a key alone in an empty expression, which no rule rejects
    (`Rule.verdict_alone`).  So the guard accepts a key exactly when no rule
    rejects it, whatever the keys around it and whatever the order. -/

namespace Keypad

/-! ## What a rule says -/

namespace Rule

theorem rejectIf_ne_true (b : Bool) : rejectIf b ≠ some true := by
  cases b <;> rintro ⟨⟩

theorem rejectIf_ne_false {b : Bool} : rejectIf b ≠ some false ↔ b = false := by
  constructor
  · intro h
    cases b with
    | false => rfl
    | true => exact absurd rfl h
  · rintro rfl ⟨⟩

/-- Only the rule of the start accepts, and only a key that stands alone. -/
theorem alone_of_verdict {r : Rule} {c : Context}
    (h : r.verdict c = some true) :
    c.left = [] ∧ c.right = [] ∧ c.candidate.canStart = true := by
  cases r with
  | start =>
      simp only [verdict] at h
      split at h
      · cases h
      split at h
      · cases h
      split at h
      · simp_all
      · cases h
  | afterOpening | operatorNeighbours => exact absurd h (rejectIf_ne_true _)
  | closing =>
      simp only [verdict] at h
      split at h <;> exact absurd h (rejectIf_ne_true _)
  | answerNeighbours =>
      simp only [verdict] at h
      split at h
      · exact absurd h (rejectIf_ne_true _)
      · exact absurd h (rejectIf_ne_true _)
      · exact absurd h (rejectIf_ne_true _)
      · cases h
  | point =>
      simp only [verdict] at h
      split at h
      · cases h
      split at h
      · cases h
      split at h
      · cases h
      · exact absurd h (rejectIf_ne_true _)
  | opening =>
      simp only [verdict] at h
      split at h
      · cases h
      · exact absurd h (rejectIf_ne_true _)

/-- No rule rejects a key that may start and stands alone. -/
theorem verdict_alone {k : Key} (h : k.canStart = true) (r : Rule) :
    r.verdict ⟨[], [], k⟩ ≠ some false := by
  cases k with
  | digit _ | opening | answer => cases r <;> rintro ⟨⟩
  | operator o =>
      cases o with
      | subtract => cases r <;> rintro ⟨⟩
      | _ => cases h
  | point | closing => cases h

/-- Where one rule accepts, no rule rejects. -/
theorem ne_false_of_verdict {r : Rule} {c : Context}
    (h : r.verdict c = some true) (r' : Rule) :
    r'.verdict c ≠ some false := by
  obtain ⟨left, right, k⟩ := c
  obtain ⟨rfl, rfl, hstart⟩ := alone_of_verdict h
  exact verdict_alone hstart r'

theorem mem_all (r : Rule) : r ∈ all := by
  cases r <;> decide

end Rule

/-! ## What the rules say together -/

/-- As long as every rule is asked, a key is accepted when none rejects it. -/
theorem firstVerdict_iff {rules : List Rule} (hall : ∀ r, r ∈ rules)
    {c : Context} :
    (firstVerdict rules c).getD true = true
      ↔ ∀ r : Rule, r.verdict c ≠ some false := by
  rw [firstVerdict]
  cases hfirst : rules.findSome? fun r => r.verdict c with
  | none =>
      refine iff_of_true rfl ?_
      intro r
      rw [List.findSome?_eq_none_iff.mp hfirst r (hall r)]
      rintro ⟨⟩
  | some b =>
      obtain ⟨-, r, -, -, hr, -⟩ := List.findSome?_eq_some_iff.mp hfirst
      cases b with
      | true => exact iff_of_true rfl (Rule.ne_false_of_verdict hr)
      | false => exact iff_of_false Bool.false_ne_true fun h => h r hr

/-- A key is accepted when no rule rejects it. -/
theorem Context.accepted_iff {c : Context} :
    c.accepted = true ↔ ∀ r : Rule, r.verdict c ≠ some false :=
  firstVerdict_iff Rule.mem_all

/-- **THE ORDER OF THE RULES DOES NOT MATTER**: for any keys around the caret,
    any candidate and any order of the seven rules, the first rule that decides
    gives the same answer as in the order of the guard, and that answer is
    acceptance exactly when no rule on its own rejects. -/
theorem firstVerdict_of_perm (c : Context) {rules : List Rule}
    (h : rules.Perm Rule.all) :
    (firstVerdict rules c).getD true = c.accepted
      ∧ (c.accepted = true ↔ ∀ r ∈ rules, r.verdict c ≠ some false) := by
  have hall : ∀ r, r ∈ rules := fun r => h.mem_iff.mpr r.mem_all
  constructor
  · rw [Bool.eq_iff_iff, Context.accepted_iff]
    exact firstVerdict_iff hall
  · rw [Context.accepted_iff]
    exact forall_congr' fun r => (imp_iff_right (hall r)).symm

/-- An opening parenthesis between a point and a closing one, in keys that no
    session reaches: asked from the front the rule of closing parentheses
    rejects it first, asked from the back that of opening ones. -/
theorem firstVerdict_from_the_back :
    ∃ c : Context,
      c = ⟨[.operator .add, .point], [.closing, .point], .opening⟩
      ∧ Rule.all.reverse.Perm Rule.all
      ∧ Rule.all.find? (fun r => (r.verdict c).isSome) = some .closing
      ∧ Rule.all.reverse.find? (fun r => (r.verdict c).isSome)
        = some .opening
      ∧ (firstVerdict Rule.all.reverse c).getD true = c.accepted
      ∧ c.accepted = false := by
  have hreverse : Rule.all.reverse.Perm Rule.all := List.reverse_perm Rule.all
  exact ⟨_, rfl, hreverse, by decide, by decide,
    (firstVerdict_of_perm _ hreverse).1, by decide⟩

end Keypad
