import Keypad.Proofs.Acceptance
import Keypad.Proofs.AcceptedAgain
import Keypad.Proofs.PreviewCommit
import Keypad.Proofs.ReadingKeys

/-! # Careful use — sessions that only mathematics can fail

    Toward: a commit fails because something is still missing or because the
    value is not finite, and the preview of an expression waits for a closing
    parenthesis or for the operand of a lone minus and for nothing else.

    Two things get past the guard.  A deletion in the middle brings keys
    together that were never judged as neighbours, and an operator or a
    parenthesis may go in right in front of a point and take its number away.
    A session is used carefully when it does neither (`Session.Careful`), and
    then its keys are `Tidy`: well formed, every point with a digit in front
    of it.  What a commit and a preview make of tidy keys depends on the last
    key alone (`Tidy.evaluateComplete_cases`, `Tidy.preview_of_balanced`). -/

namespace Keypad

open Plain (ofKeys)

/-! ## Tidy keys -/

/-- Well-formed keys in which no point follows a key that is no digit. -/
structure Tidy (keys : List Key) : Prop where
  wellFormed : WellFormed keys
  led : keys.IsChain fun a b => b = .point → a.isDigit = true

namespace Tidy

theorem nil : Tidy [] := ⟨WellFormed.nil, List.IsChain.nil⟩

/-- What stands in front is tidy as well. -/
theorem left {v w : List Key} (h : Tidy (v ++ w)) : Tidy v :=
  ⟨h.wellFormed.left, h.led.left_of_append⟩

/-- An accepted key keeps keys tidy, unless it is an operator or a parenthesis
    and a point is right behind it. -/
theorem insert {left right : List Key} {k : Key} (h : Tidy (left ++ right))
    (hk : Context.accepted ⟨left, right, k⟩ = true)
    (hpoint : right.head? = some .point → k.isOperand = true) :
    Tidy (left ++ k :: right) := by
  have hw := h.wellFormed.insert hk
  refine ⟨hw, ?_⟩
  obtain ⟨hleft, hright, -⟩ := List.isChain_append.mp h.led
  refine List.isChain_append.mpr ⟨hleft, List.isChain_cons.mpr ⟨?_, hright⟩, ?_⟩
  · -- of the operands only a digit goes in front of a point
    rintro b hb rfl
    have hoperand := hpoint hb
    obtain ⟨rest, rfl⟩ : ∃ rest, right = .point :: rest := by
      cases right with
      | nil => cases hb
      | cons b rest => exact ⟨rest, by rw [Option.some.inj hb]⟩
    cases k with
    | digit _ => rfl
    | point =>
        refine (WellFormed.not_point_point (v := left) (w := rest) ?_).elim
        rw [List.append_assoc]
        exact hw
    | answer => cases Context.meets_after hk _ hb
    | operator _ | opening | closing => cases hoperand
  · rintro a ha b hb rfl
    obtain rfl := Option.some.inj hb
    have hdigit := Context.isDigit_before_of_accepted hk
    rw [show left.getLast? = some a from ha] at hdigit
    exact hdigit

/-- In front of every point is a digit. -/
theorem isDigit_before {left right : List Key}
    (h : Tidy (left ++ Key.point :: right)) :
    left.getLast?.any Key.isDigit = true := by
  rcases List.eq_nil_or_concat left with rfl | ⟨front, a, rfl⟩
  · cases h.wellFormed.start .point rfl
  · rw [List.concat_eq_append] at h ⊢
    rw [List.getLast?_concat]
    exact (List.isChain_append.mp h.led).2.2 a List.getLast?_concat .point rfl
      rfl

theorem not_stranded {keys : List Key} (h : Tidy keys) : ¬ Stranded keys := by
  rintro ⟨left, right, rfl, hwhy⟩
  have hdigit := h.isDigit_before
  rcases hwhy with hclosing | ⟨hnone, -⟩
  · rw [hclosing] at hdigit
    cases hdigit
  · rw [hnone] at hdigit
    cases hdigit

variable {answer : Float} {front keys : List Key} {a : Key}

/-- Where no operand is due and no parenthesis is open, tidy keys have a
    value, unless that is not finite. -/
theorem evaluatePlain_of_canEnd (hfinite : answer.isFinite = true)
    (h : Tidy (front ++ [a])) (ha : a.canEnd = true)
    (hdepth : Key.depthFrom 0 (front ++ [a]) = some 0) :
    (∃ x, evaluatePlain (ofKeys answer (front ++ [a])) = .ok x)
      ∨ evaluatePlain (ofKeys answer (front ++ [a])) = .error .notFinite := by
  have hpoint : a = .point → front.getLast?.any Key.isDigit = true := by
    rintro rfl
    exact h.isDigit_before
  obtain ⟨p, hp⟩ :=
    ofText_of_canEnd hfinite h.wellFormed h.not_stranded ha hpoint hdepth
  exact evaluatePlain_of_ofText hp

/-- The first key of tidy keys may start. -/
theorem startsWell (h : Tidy keys) (hne : keys ≠ []) :
    startsWell (keysText keys) = true := by
  obtain ⟨k, rest, rfl⟩ := List.exists_cons_of_ne_nil hne
  rw [startsWell_keysText]
  exact h.wellFormed.start k rfl

/-- **A COMMIT OF TIDY KEYS** gives a value or one of three faults: an operand
    is due at the end, parentheses are open, or the value is not finite. -/
theorem evaluateComplete_cases (hfinite : answer.isFinite = true)
    (h : Tidy keys) (hne : keys ≠ []) :
    (∃ x, evaluateComplete answer (keysText keys) = .ok x)
      ∨ evaluateComplete answer (keysText keys) = .error .notFinite
      ∨ (evaluateComplete answer (keysText keys) = .error (.malformed .badEnd)
        ∧ Rule.lacksOperand keys.getLast? = true)
      ∨ (evaluateComplete answer (keysText keys)
          = .error (.malformed .unbalanced)
        ∧ Text.isBalanced (keysText keys) = false) := by
  obtain ⟨front, a, rfl⟩ := (List.eq_nil_or_concat keys).resolve_left hne
  rw [List.concat_eq_append] at *
  rw [List.getLast?_concat, ← wantsOperand_keysText front a, evaluateComplete,
    malformation?, isEmpty_keysText hne, h.startsWell hne]
  -- the questions of the check that are left: the end and the parentheses
  cases hend : (keysText (front ++ [a])).getLast?.any wantsOperand with
  | true => exact Or.inr (Or.inr (Or.inl ⟨rfl, rfl⟩))
  | false =>
      cases hbalanced : Text.isBalanced (keysText (front ++ [a])) with
      | false => exact Or.inr (Or.inr (Or.inr ⟨rfl, rfl⟩))
      | true =>
          have ha : a.canEnd = true := by
            rw [wantsOperand_keysText] at hend
            exact Key.canEnd_of_lacksOperand hend
          have hdepth : Key.depthFrom 0 (front ++ [a]) = some 0 := by
            rw [Text.isBalanced, Text.depth, depthFrom_keysText] at hbalanced
            exact eq_of_beq hbalanced
          have hvalue := h.evaluatePlain_of_canEnd hfinite ha hdepth
          rw [← Plain.ofKeypad_keysText hfinite] at hvalue
          exact hvalue.imp_right Or.inl

end Tidy

/-! ## What a preview leaves out -/

/-- The keys without an operator at their end. -/
def withoutOperator (keys : List Key) : List Key :=
  if keys.getLast?.any Key.isOperator then keys.dropLast else keys

/-- An operator at the end leaves the parentheses as they are. -/
theorem Key.depthFrom_concat_operator (d : Nat) (keys : List Key)
    (o : Operator) :
    depthFrom d (keys ++ [Key.operator o]) = depthFrom d keys := by
  rw [depthFrom_append]
  cases depthFrom d keys <;> rfl

/-- The parentheses of keys that end with an opening one do not pair up. -/
theorem Key.depthFrom_concat_opening (d : Nat) (keys : List Key) :
    depthFrom d (keys ++ [Key.opening]) ≠ some 0 := by
  rw [depthFrom_append]
  cases depthFrom d keys <;> rintro ⟨⟩

/-- An operator at the end dangles. -/
theorem Preview.trimEnd_ofKeys_operator {answer : Float}
    (h : answer.isFinite = true) (keys : List Key) (o : Operator) :
    Text.trimEnd isDangling (ofKeys answer (keys ++ [Key.operator o]))
      = Text.trimEnd isDangling (ofKeys answer keys) := by
  have hdangling : isDangling o.symbol = true := by cases o <;> decide
  have hlast : ofKeys answer (keys ++ [Key.operator o])
      = ofKeys answer keys ++ [o.symbol] :=
    Plain.ofKeys_operator h keys o []
  rw [hlast]
  refine Text.trimEnd_append _ ?_
  intro c hc
  rw [List.mem_singleton.mp hc]
  exact hdangling

namespace Tidy

variable {answer : Float} {keys : List Key}

/-- Keys whose parentheses pair up end with an operand or a group, and perhaps
    one operator behind it, unless they are a minus alone. -/
theorem exists_canEnd (h : Tidy keys) (hne : keys ≠ [])
    (hminus : keys ≠ [.operator .subtract])
    (hdepth : Key.depthFrom 0 keys = some 0) :
    ∃ front a, a.canEnd = true ∧ Key.depthFrom 0 (front ++ [a]) = some 0
      ∧ (keys = front ++ [a]
        ∨ ∃ o, keys = front ++ [a] ++ [.operator o]) := by
  obtain ⟨keys', b, rfl⟩ := (List.eq_nil_or_concat keys).resolve_left hne
  rw [List.concat_eq_append] at *
  cases b with
  | digit _ | point | answer | closing =>
      exact ⟨keys', _, rfl, hdepth, Or.inl rfl⟩
  | opening => exact absurd hdepth (Key.depthFrom_concat_opening 0 keys')
  | operator o =>
      rw [Key.depthFrom_concat_operator] at hdepth
      rcases List.eq_nil_or_concat keys' with rfl | ⟨front, a, rfl⟩
      · -- the only operator that may start is the minus
        have hstart := h.wellFormed.start (.operator o) rfl
        cases o with
        | subtract => exact absurd rfl hminus
        | add | multiply | divide | remainder => cases hstart
      · rw [List.concat_eq_append] at *
        have hmeets : a.meets (.operator o) = true := h.wellFormed.meets
        cases a with
        | digit _ | point | answer | closing =>
            exact ⟨front, _, rfl, hdepth, Or.inr ⟨o, rfl⟩⟩
        | operator _ => cases hmeets
        | opening => exact absurd hdepth (Key.depthFrom_concat_opening 0 front)

/-- **THE PREVIEW OF TIDY KEYS**: where the parentheses pair up, one attempt
    without the operator at the end gives a value, or it is not finite; only a
    minus alone is left without one. -/
theorem preview_of_balanced (hfinite : answer.isFinite = true) (h : Tidy keys)
    (hne : keys ≠ []) (hminus : keys ≠ [.operator .subtract])
    (hbalanced : Text.isBalanced (keysText keys) = true) :
    (∃ x, evaluatePlain (ofKeys answer (withoutOperator keys)) = .ok x
        ∧ Preview.ofKeypad answer (keysText keys) = .value x)
      ∨ evaluatePlain (ofKeys answer (withoutOperator keys))
          = .error .notFinite
        ∧ Preview.ofKeypad answer (keysText keys) = .suppressed := by
  have hdepth : Key.depthFrom 0 keys = some 0 := by
    rw [Text.isBalanced, Text.depth, depthFrom_keysText] at hbalanced
    exact eq_of_beq hbalanced
  obtain ⟨front, a, ha, hdepth', hkeys⟩ := h.exists_canEnd hne hminus hdepth
  have htrim := Preview.trimEnd_ofKeys hfinite front ha
  -- with the operator or without, what is previewed ends with `a`
  have hsame : withoutOperator keys = front ++ [a]
      ∧ Tidy (front ++ [a])
      ∧ Preview.ofKeypad answer (keysText keys)
        = Preview.ofOutcome (evaluatePlain (ofKeys answer (front ++ [a]))) := by
    rw [Preview.ofKeypad_keysText hfinite hne, if_pos hbalanced]
    rcases hkeys with rfl | ⟨o, rfl⟩
    · refine ⟨?_, h, by rw [Preview.ofPlain_eq, htrim]⟩
      rw [withoutOperator, List.getLast?_concat]
      cases a with
      | operator _ | opening => cases ha
      | digit _ | point | answer | closing => rfl
    · refine ⟨?_, h.left, ?_⟩
      · rw [withoutOperator, List.getLast?_concat, List.dropLast_concat]
        rfl
      · rw [Preview.ofPlain_eq, Preview.trimEnd_ofKeys_operator hfinite, htrim]
  obtain ⟨hwithout, htidy, hpreview⟩ := hsame
  rw [hwithout, hpreview]
  rcases htidy.evaluatePlain_of_canEnd hfinite ha hdepth' with ⟨x, hx⟩ | hinfinite
  · rw [hx]
    exact Or.inl ⟨x, rfl, rfl⟩
  · rw [hinfinite]
    exact Or.inr ⟨rfl, rfl⟩

end Tidy

/-! ## Careful sessions -/

namespace Session

/-- The key would go in right in front of a point and part it from its
    number. -/
def Parts (s : Session) (k : Key) : Prop :=
  k.isOperand = false ∧ s.expression.right.head? = some .point
    ∧ Admission.of s.mode s.expression k = .inserted

/-- The sessions that a new one becomes when keys are deleted at the end of
    the expression only and no operator or parenthesis goes in right in front
    of a point. -/
inductive Careful : Session → Prop where
  | new : Careful Session.new
  | insert {s : Session} (name : Text) :
      (∀ k, Key.ofText name = .ok k → ¬ s.Parts k) →
      Careful s → Careful (s.insert name)
  | obey {s : Session} (c : Command) :
      (c = .delete → s.expression.right = []) →
      Careful s → Careful (s.obey c)

theorem Careful.exists_reached {s : Session} (h : s.Careful) :
    ∃ last, s.Reached last := by
  induction h with
  | new => exact ⟨none, .new⟩
  | insert name _ _ ih =>
      obtain ⟨last, hlast⟩ := ih
      exact ⟨last, .insert name hlast⟩
  | obey c _ _ ih =>
      obtain ⟨last, hlast⟩ := ih
      exact hlast.exists_obey c

end Session

/-- A key goes in where the guard accepts it. -/
theorem Admission.accepted_of_inserted {mode : Mode} {e : Expression} {k : Key}
    (h : Admission.of mode e k = .inserted) :
    Context.accepted ⟨e.left, e.right, k⟩ = true := by
  cases mode with
  | editing =>
      simp only [Admission.of] at h
      split at h
      · assumption
      · cases h
  | resultShown => cases k <;> cases h
  | faultShown => cases h

/-- An expression that starts anew holds accepted keys only: what holds of no
    keys and of accepted keys at the end holds of it. -/
theorem Admission.restarted_induction {P : List Key → Prop} (nil : P [])
    (concat : ∀ {keys k}, P keys → Context.accepted ⟨keys, [], k⟩ = true →
      P (keys ++ [k]))
    {mode : Mode} {e : Expression} {k : Key} {keys : List Key}
    (h : Admission.of mode e k = .restarted keys) : P keys := by
  have hfresh : ∀ keys, fresh k = .restarted keys → P keys := by
    rintro keys ⟨⟩
    by_cases hk : Context.accepted ⟨[], [], k⟩ = true
    · rw [if_pos hk]
      exact concat nil hk
    · rw [if_neg hk]
      exact nil
  cases mode with
  | editing =>
      simp only [Admission.of] at h
      split at h <;> cases h
  | faultShown => exact hfresh keys h
  | resultShown =>
      cases k with
      | closing => cases h
      | operator o =>
          cases h
          have hoperator : Context.accepted ⟨[.answer], [], .operator o⟩
              = true := by
            cases o <;> decide
          exact concat (concat nil (k := .answer) (by decide)) hoperator
      | digit _ | point | opening | answer => exact hfresh keys h

/-- An expression that starts anew is tidy. -/
theorem Admission.tidy_of_restarted {mode : Mode} {e : Expression} {k : Key}
    {keys : List Key} (h : Admission.of mode e k = .restarted keys) :
    Tidy keys := by
  refine Admission.restarted_induction Tidy.nil ?_ h
  intro keys k hkeys hk
  rw [← List.append_nil keys] at hkeys
  exact hkeys.insert hk nofun

namespace Session

/-- A key that parts no point from its number leaves the keys tidy. -/
theorem tidy_press {s : Session} {k : Key} (h : Tidy s.expression.keys)
    (hk : ¬ s.Parts k) : Tidy (s.press k).expression.keys := by
  rw [press]
  cases hadmission : Admission.of s.mode s.expression k with
  | rejected => exact h
  | restarted keys =>
      show Tidy (keys ++ [])
      rw [List.append_nil]
      exact Admission.tidy_of_restarted hadmission
  | inserted =>
      show Tidy (s.expression.insert k).keys
      rw [Expression.keys_insert]
      refine h.insert (Admission.accepted_of_inserted hadmission) ?_
      intro hpoint
      cases hoperand : k.isOperand with
      | true => rfl
      | false => exact absurd ⟨hoperand, hpoint, hadmission⟩ hk

/-- A deletion at the end leaves the keys in front. -/
theorem tidy_delete {s : Session} (h : Tidy s.expression.keys)
    (hright : s.expression.right = []) : Tidy s.delete.expression.keys := by
  have hleft : Tidy s.expression.left := by
    rw [Expression.keys, hright, List.append_nil] at h
    exact h
  obtain ⟨last, hlast⟩ := List.dropLast_prefix s.expression.left
  have hdropped : Tidy (s.expression.left.dropLast ++ s.expression.right) := by
    rw [← hlast] at hleft
    rw [hright, List.append_nil]
    exact hleft.left
  rw [delete]
  split
  · split
    · rename_i hremove
      obtain rfl := (Prod.mk.inj hremove).2
      exact hdropped
    · exact h
  · exact Tidy.nil

/-- The caret moves and the keys stay. -/
theorem tidy_move {s s' : Session} (h : Tidy s.expression.keys)
    (hmove : s' = s ∨ s.mode = .editing ∧ ∃ e, e.keys = s.expression.keys
      ∧ s' = { s with expression := e }) : Tidy s'.expression.keys := by
  rcases hmove with rfl | ⟨-, e, hkeys, rfl⟩
  · exact h
  · show Tidy e.keys
    rw [hkeys]
    exact h

/-- A commit that does anything leaves no keys. -/
theorem tidy_commit {s : Session} (h : Tidy s.expression.keys) :
    Tidy s.commit.expression.keys := by
  rcases s.commit_cases with ⟨hsame, -⟩ | ⟨x, -, -, hcommit⟩
    | ⟨f, -, -, hcommit⟩
  · rw [hsame]
    exact h
  · rw [hcommit]
    exact Tidy.nil
  · rw [hcommit]
    exact Tidy.nil

/-- **CAREFUL USE KEEPS THE KEYS TIDY**. -/
theorem Careful.tidy {s : Session} (h : s.Careful) :
    Tidy s.expression.keys := by
  induction h with
  | new => exact Tidy.nil
  | @insert s name hname _ ih =>
      rw [Session.insert]
      split
      · rename_i k hk
        exact tidy_press ih (hname k hk)
      · exact ih
  | @obey s c hc _ ih =>
      cases c with
      | delete => exact tidy_delete ih (hc rfl)
      | left => exact tidy_move ih s.moveLeft_cases
      | right => exact tidy_move ih s.moveRight_cases
      | commit => exact tidy_commit ih
      | clear => exact Tidy.nil

/-- **THE MARKER OF AN ERROR MEANS AN ERROR OF MATHEMATICS**: after careful
    use a commit does nothing where no operand is typed.  Else it shows a
    result, or the marker of a structure that is wrong because an operand is
    due at the end or the parentheses do not pair up, or the marker of an
    error because the value is not finite. -/
theorem commit_of_careful {s : Session} (h : s.Careful) :
    (s.expression.keys.any Key.isOperand = false ∧ s.commit = s)
      ∨ (s.commit.mode = .resultShown
        ∧ ∃ x, evaluateComplete s.answer s.expression.text = .ok x)
      ∨ (s.commit.mode = .faultShown
        ∧ s.commit.display = "Syntax Error".toList
        ∧ (evaluateComplete s.answer s.expression.text
              = .error (.malformed .badEnd)
            ∧ Rule.lacksOperand s.expression.keys.getLast? = true
          ∨ evaluateComplete s.answer s.expression.text
              = .error (.malformed .unbalanced)
            ∧ Text.isBalanced s.expression.text = false))
      ∨ (s.commit.mode = .faultShown ∧ s.commit.display = "Error".toList
        ∧ evaluateComplete s.answer s.expression.text = .error .notFinite) := by
  obtain ⟨last, hlast⟩ := h.exists_reached
  have hfinite := (coherent_of_reached hlast).finite
  cases hoperand : s.expression.keys.any Key.isOperand with
  | false =>
      refine Or.inl ⟨rfl, ?_⟩
      rw [commit, hoperand]
      rfl
  | true =>
      have hne : s.expression.keys ≠ [] := by
        intro hnil
        rw [hnil] at hoperand
        cases hoperand
      refine Or.inr ?_
      rw [commit, if_pos hoperand]
      rcases h.tidy.evaluateComplete_cases hfinite hne with ⟨x, hx⟩ | hx
        | ⟨hx, hend⟩ | ⟨hx, hbalanced⟩
      · refine Or.inl ⟨?_, x, hx⟩
        rw [show evaluateComplete s.answer s.expression.text = .ok x from hx]
      · refine Or.inr (Or.inr ?_)
        rw [show evaluateComplete s.answer s.expression.text = _ from hx]
        exact ⟨rfl, rfl, rfl⟩
      · refine Or.inr (Or.inl ?_)
        rw [show evaluateComplete s.answer s.expression.text = _ from hx]
        exact ⟨rfl, rfl, Or.inl ⟨rfl, hend⟩⟩
      · refine Or.inr (Or.inl ?_)
        rw [show evaluateComplete s.answer s.expression.text = _ from hx]
        exact ⟨rfl, rfl, Or.inr ⟨rfl, hbalanced⟩⟩

/-- One divided by zero, committed. -/
theorem commit_of_careful_division_by_zero :
    ∃ s : Session, s.Careful ∧ s.display = "1÷0".toList
      ∧ s.commit.display = "Error".toList
      ∧ evaluateComplete s.answer s.expression.text = .error .notFinite := by
  have hcareful : (((Session.new.insert ['1']).insert ['÷']).insert
      ['0']).Careful := by
    refine .insert _ ?_ (.insert _ ?_ (.insert _ ?_ .new)) <;>
      rintro k - ⟨-, ⟨⟩, -⟩
  refine ⟨_, hcareful, by rfl, by rfl, ?_⟩
  have hmarker : (((Session.new.insert ['1']).insert ['÷']).insert
      ['0']).commit.display = "Error".toList := by rfl
  rcases commit_of_careful hcareful with ⟨⟨⟩, -⟩ | ⟨hmode, -⟩
    | ⟨-, hsyntax, -⟩ | ⟨-, -, hfault⟩
  · cases hmode
  · rw [hmarker] at hsyntax
    cases hsyntax
  · exact hfault

/-- **WHAT A PREVIEW WAITS FOR**: after careful use the preview of an
    expression is pending exactly if its parentheses do not pair up or it is a
    minus alone.  Else it is the placeholder of an empty expression, or the
    value of the expression without an operator at its end, or suppressed for
    that value is not finite. -/
theorem preview_of_careful {s : Session} (h : s.Careful)
    (hmode : s.mode = .editing) :
    (s.preview = .pending ↔ Text.isBalanced s.expression.text = false
        ∨ s.expression.keys = [.operator .subtract])
      ∧ (s.preview ≠ .pending →
        (s.expression.keys = [] ∧ s.preview = .placeholder)
        ∨ (∃ x, evaluatePlain (Plain.ofKeypad s.answer
              (keysText (withoutOperator s.expression.keys))) = .ok x
            ∧ s.preview = .value x)
        ∨ (evaluatePlain (Plain.ofKeypad s.answer
              (keysText (withoutOperator s.expression.keys)))
              = .error .notFinite
            ∧ s.preview = .suppressed)) := by
  obtain ⟨last, hlast⟩ := h.exists_reached
  have hcoherent := coherent_of_reached hlast
  have hfinite := hcoherent.finite
  rw [(hcoherent.editing hmode).2, Expression.text,
    Plain.ofKeypad_keysText hfinite]
  have htidy := h.tidy
  generalize s.expression.keys = keys at htidy
  by_cases hne : keys = []
  · rw [hne]
    refine ⟨⟨?_, ?_⟩, fun _ => Or.inl ⟨rfl, rfl⟩⟩
    · rintro ⟨⟩
    · rintro (hbalanced | hminus)
      · cases hbalanced
      · cases hminus
  by_cases hminus : keys = [.operator .subtract]
  · rw [hminus]
    have hpending : Preview.ofKeypad s.answer
        (keysText [.operator .subtract]) = .pending := rfl
    exact ⟨iff_of_true hpending (Or.inr rfl), fun hnot => absurd hpending hnot⟩
  cases hbalanced : Text.isBalanced (keysText keys) with
  | false =>
      have hpending : Preview.ofKeypad s.answer (keysText keys) = .pending := by
        rw [Preview.ofKeypad_keysText hfinite hne, hbalanced]
        rfl
      exact ⟨iff_of_true hpending (Or.inl rfl), fun hnot => absurd hpending hnot⟩
  | true =>
      have hneither : ¬ (true = false ∨ keys = [.operator .subtract]) := by
        rintro (hfalse | hsame)
        · cases hfalse
        · exact hminus hsame
      have hpreview := htidy.preview_of_balanced hfinite hne hminus hbalanced
      refine ⟨iff_of_false ?_ hneither, fun _ => Or.inr hpreview⟩
      rcases hpreview with ⟨x, -, hvalue⟩ | ⟨-, hsuppressed⟩
      · rw [hvalue]
        rintro ⟨⟩
      · rw [hsuppressed]
        rintro ⟨⟩

/-- Five and a plus show the value of five. -/
theorem preview_of_careful_five_plus :
    ∃ s : Session, s.Careful ∧ s.mode = .editing ∧ s.display = "5+".toList
      ∧ s.preview ≠ .pending
      ∧ ∃ x, evaluatePlain (Plain.ofKeypad s.answer
          (keysText (withoutOperator s.expression.keys))) = .ok x
        ∧ s.preview = .value x := by
  have hcareful : ((Session.new.insert ['5']).insert ['+']).Careful := by
    refine .insert _ ?_ (.insert _ ?_ .new) <;> rintro k - ⟨-, ⟨⟩, -⟩
  obtain ⟨hpending, hshown⟩ := preview_of_careful hcareful rfl
  have hnot : ((Session.new.insert ['5']).insert ['+']).preview ≠ .pending := by
    rw [ne_eq, hpending]
    rintro (hbalanced | hminus)
    · cases hbalanced
    · cases hminus
  have hvalue : ((Session.new.insert ['5']).insert ['+']).preview
      = .value 5.0 := by
    rfl
  refine ⟨_, hcareful, rfl, by rfl, hnot, ?_⟩
  rcases hshown hnot with ⟨⟨⟩, -⟩ | hsome | ⟨-, hsuppressed⟩
  · exact hsome
  · rw [hvalue] at hsuppressed
    cases hsuppressed

end Session

end Keypad
