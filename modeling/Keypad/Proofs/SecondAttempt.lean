import Keypad.Preview
import Keypad.Proofs.Continuation

/-! # The second attempt — a preview leaves the dangling tail out

    A preview of a plain text makes a second attempt, without the dangling tail,
    where the first one comes to no value.  It need not be known which of the
    two it was: the second one always counts (`ofPlain_eq`).  For a text that
    has a program ends with a number or a closing parenthesis, but for blanks
    behind it, and then both attempts run one program. -/

namespace Keypad

/-! ## Programs do not dangle -/

/-- Digits, points and closing parentheses do not dangle. -/
theorem Preview.isDangling_eq_false {c : Char}
    (h : Token.isNumeric c = true ∨ c = ')') : isDangling c = false := by
  rcases h with hnumeric | rfl
  · rw [isDangling, Token.isBlank_of_isNumeric hnumeric, Bool.false_or,
      ← Bool.not_eq_true, List.contains_iff_mem]
    intro hmem
    simp only [List.mem_cons, List.not_mem_nil, or_false] at hmem
    rcases hmem with rfl | rfl | rfl | rfl | rfl | rfl <;> cases hnumeric
  · rfl

/-- What dangles is no part of a number and no closing parenthesis. -/
theorem Preview.of_isDangling {c : Char} (h : isDangling c = true) :
    Token.isNumeric c = false ∧ c ≠ ')' := by
  constructor
  · by_contra hnumeric
    rw [isDangling_eq_false
      (Or.inl (Bool.eq_true_of_not_eq_false hnumeric))] at h
    cases h
  · rintro rfl
    cases h

/-- After a sign or an operator an operand is due. -/
theorem Position.slot_of_step_operator {p p' : Position} {o : Operator}
    (h : p.step (.operator o) = some p') : p'.slot = .operand := by
  obtain ⟨slot, n⟩ := p
  cases slot with
  | operator => rw [← Option.some.inj h]
  | operand =>
      cases o with
      | add | subtract => rw [← Option.some.inj h]
      | multiply | divide | remainder => cases h

/-- After an opening parenthesis an operand is due. -/
theorem Position.slot_of_step_opening {p p' : Position}
    (h : p.step .opening = some p') : p'.slot = .operand := by
  obtain ⟨slot, n⟩ := p
  cases slot with
  | operator => cases h
  | operand => rw [← Option.some.inj h]

/-- After a token that is no number and no closing parenthesis an operand is
    due. -/
theorem Yard.State.slot_of_next_single {s s' : Yard.State} {c : Char}
    {tok : Token} (hc : Token.single? c = some tok) (hne : c ≠ ')')
    (h : s.next tok = .ok s') : s'.slot = .operand := by
  obtain ⟨l, hl, hstep⟩ := next_walks h
  rcases Token.single?_cases hc with ⟨o, -, rfl⟩ | ⟨-, rfl⟩ | ⟨rfl, -⟩
  · rw [hl.unique (.operator o)] at hstep
    exact Position.slot_of_step_operator hstep
  · rw [hl.unique .opening] at hstep
    exact Position.slot_of_step_opening hstep
  · exact absurd rfl hne

/-- A character that dangles leaves a program only if it is a blank, and then
    the program was there before. -/
theorem Reader.finish_of_take_dangling {r : Reader} {c : Char} {p : Program}
    (hc : Preview.isDangling c = true) (h : (r.take c).bind finish = .ok p) :
    r.finish = .ok p := by
  obtain ⟨hnumeric, hne⟩ := Preview.of_isDangling hc
  rcases r.take_cases c with ⟨hnumeric', -⟩ | ⟨f, -, htake⟩
    | ⟨s, hsettle, ⟨-, htake⟩ | ⟨tok, hsingle, htake⟩ | htake⟩
  · rw [hnumeric] at hnumeric'
    cases hnumeric'
  · rw [htake] at h
    cases h
  · rw [htake] at h
    rw [finish, hsettle]
    exact h
  · -- an operand is due, so that nothing can be finished
    rw [htake] at h
    cases hnext : s.next tok with
    | error f =>
        rw [hnext] at h
        cases h
    | ok s' =>
        have hslot := Yard.State.slot_of_next_single hsingle hne hnext
        obtain ⟨slot, y⟩ := s'
        obtain rfl : slot = .operand := hslot
        rw [hnext] at h
        cases h
  · rw [htake] at h
    cases h

/-- **PROGRAMS DO NOT DANGLE**: a text that has a program has the same one
    without its dangling tail, which is made of blanks. -/
theorem Program.ofText_of_dangling {w tail : Text} {p : Program}
    (htail : ∀ c ∈ tail, Preview.isDangling c = true)
    (h : ofText (w ++ tail) = .ok p) : ofText w = .ok p := by
  induction tail using List.reverseRecOn with
  | nil =>
      rw [List.append_nil] at h
      exact h
  | append_singleton tail c ih =>
      have htail' : ∀ d ∈ tail, Preview.isDangling d = true := fun d hd =>
        htail d (List.mem_append_left _ hd)
      have hc : Preview.isDangling c = true :=
        htail c (List.mem_append_right _ (List.mem_singleton_self c))
      refine ih htail' ?_
      rw [← List.append_assoc, Reader.ofText_eq_read, Reader.read_append] at h
      rw [Reader.ofText_eq_read]
      cases hread : Reader.start.read (w ++ tail) with
      | error f =>
          rw [hread] at h
          cases h
      | ok r =>
          rw [hread] at h
          refine Reader.finish_of_take_dangling hc ?_
          rw [← h]
          show _ = ((r.take c).bind fun r' => .ok r').bind Reader.finish
          cases r.take c <;> rfl

/-- That a value is not finite is never said of a text that has no program. -/
theorem Program.ofText_ne_notFinite (t : Text) :
    ofText t ≠ .error .notFinite := by
  intro h
  rcases fault_of_ofText h with ⟨s, tok, hnext⟩ | ⟨c, hunknown⟩ | hearly
  · cases Yard.State.refusal_of_next hnext
  · cases hunknown
  · cases hearly

/-! ## The second attempt counts -/

namespace Preview

/-- **THE SECOND ATTEMPT COUNTS**: the preview of a plain text is that of the
    outcome without the dangling tail. -/
theorem ofPlain_eq (t : Text) :
    ofPlain t = ofOutcome (evaluatePlain (Text.trimEnd isDangling t)) := by
  cases hprogram : Program.ofText t with
  | ok p =>
      -- both attempts run the same program
      obtain ⟨tail, hsplit, htail⟩ := Text.exists_trimEnd_append isDangling t
      have hprogram' : Program.ofText (Text.trimEnd isDangling t) = .ok p := by
        rw [hsplit] at hprogram
        exact Program.ofText_of_dangling htail hprogram
      have hsame : evaluatePlain (Text.trimEnd isDangling t)
          = evaluatePlain t := by
        rw [evaluatePlain, evaluatePlain, hprogram, hprogram']
      rw [ofPlain, hsame]
      cases evaluatePlain t with
      | ok x => rfl
      | error f => cases f <;> rfl
  | error f =>
      have hfault : evaluatePlain t = .error f := by
        rw [evaluatePlain, hprogram]
      rw [ofPlain, hfault]
      cases f with
      | notFinite => exact absurd hprogram (Program.ofText_ne_notFinite t)
      | _ => rfl

/-- A dangling tail does not show. -/
theorem ofPlain_append {tail : Text}
    (h : ∀ c ∈ tail, isDangling c = true) (t : Text) :
    ofPlain (t ++ tail) = ofPlain t := by
  rw [ofPlain_eq, ofPlain_eq, Text.trimEnd_append t h]

end Preview

end Keypad
