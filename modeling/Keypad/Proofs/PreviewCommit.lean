import Keypad.Proofs.PhraseValue
import Keypad.Proofs.SecondAttempt
import Keypad.Proofs.SessionInvariant

/-! # Preview and commit — two ways to one value

    A preview and a commit look at a text differently.  The preview trims it,
    wants its parentheses paired up, and where the plain text has no value it
    tries again without the dangling tail.  The commit checks the first
    character, the last one and the parentheses, and tries once.

    Where the check of the commit passes they agree: keys show no blanks, and
    the plain text of keys that end with an operand or a group ends with a
    digit or a closing parenthesis, so the second attempt, which is the one that
    counts, is the first one again (`ofKeypad_eq_ofOutcome`). -/

namespace Keypad

namespace Preview

/-- The plain text of keys that end with an operand or a group has no
    dangling tail. -/
theorem trimEnd_ofKeys {answer : Float} (h : answer.isFinite = true)
    (front : List Key) {k : Key} (hk : k.canEnd = true) :
    Text.trimEnd isDangling (Plain.ofKeys answer (front ++ [k]))
      = Plain.ofKeys answer (front ++ [k]) := by
  obtain ⟨c, hc, hcases⟩ := Key.last_plain h k
  -- a number or a parenthesis, also at the end of an answer
  have hdangling : isDangling c = false := by
    refine isDangling_eq_false ?_
    rcases hcases with ⟨hne, hdigit, hclosing⟩ | ⟨-, hdigit⟩
    · cases k with
      | digit _ => exact Or.inl (Token.isNumeric_of_isDigit hdigit)
      | point =>
          obtain rfl := Option.some.inj hc
          exact Or.inl rfl
      | closing => exact Or.inr (eq_of_beq hclosing)
      | answer => exact absurd rfl hne
      | operator _ | opening => cases hk
    · cases hclosing : c == ')' with
      | true => exact Or.inr (eq_of_beq hclosing)
      | false =>
          rw [hclosing] at hdigit
          exact Or.inl (Token.isNumeric_of_isDigit hdigit)
  have hlast : (Plain.ofKeys answer (front ++ [k])).getLast? = some c :=
    (Plain.getLast?_ofKeys h front k).trans hc
  refine Text.trimEnd_eq_self ?_
  rw [hlast]
  intro d hd
  rw [← Option.some.inj hd]
  exact hdangling

/-- The preview of keys is pending where their parentheses do not pair up, and
    elsewhere that of their plain text. -/
theorem ofKeypad_keysText {answer : Float} (h : answer.isFinite = true)
    {keys : List Key} (hne : keys ≠ []) :
    ofKeypad answer (keysText keys)
      = if Text.isBalanced (keysText keys) then
          ofPlain (Plain.ofKeys answer keys)
        else .pending := by
  rw [ofKeypad, trim_keysText, isEmpty_keysText hne, Plain.ofKeypad_keysText h]
  cases Text.isBalanced (keysText keys) <;> rfl

/-- **THE SECOND ATTEMPT CHANGES NOTHING**: the preview of keys that pass the
    check before a commit is that of the outcome of the commit. -/
theorem ofKeypad_eq_ofOutcome {answer : Float} (h : answer.isFinite = true)
    {keys : List Key} (hcheck : malformation? (keysText keys) = none) :
    ofKeypad answer (keysText keys)
      = ofOutcome (evaluateComplete answer (keysText keys)) := by
  obtain ⟨-, hend, -⟩ := malformation?_keysText_eq_none.mp hcheck
  obtain ⟨hempty, -, -, hbalanced⟩ := malformation?_eq_none.mp hcheck
  have hcomplete : evaluateComplete answer (keysText keys)
      = evaluatePlain (Plain.ofKeys answer keys) := by
    rw [evaluateComplete, hcheck, ← Plain.ofKeypad_keysText h]
  rcases List.eq_nil_or_concat keys with rfl | ⟨front, k, rfl⟩
  · cases hempty
  · rw [List.concat_eq_append] at *
    rw [List.getLast?_concat] at hend
    -- the second attempt is made with the same text
    have htrim := trimEnd_ofKeys h front (Key.canEnd_of_lacksOperand hend)
    have hne : front ++ [k] ≠ [] :=
      List.append_ne_nil_of_right_ne_nil _ (List.cons_ne_nil _ _)
    rw [ofKeypad_keysText h hne, if_pos hbalanced, ofPlain_eq, htrim, hcomplete]

theorem ofOutcome_eq_value {r : Except Fault Float} {v : Float} :
    ofOutcome r = .value v ↔ r = .ok v := by
  cases r with
  | ok x =>
      constructor
      · intro h
        rw [Preview.value.inj h]
      · intro h
        rw [Except.ok.inj h]
        rfl
  | error f => cases f <;> constructor <;> rintro ⟨⟩

theorem ofOutcome_eq_suppressed {r : Except Fault Float} :
    ofOutcome r = .suppressed ↔ r = .error .notFinite := by
  cases r with
  | ok x => constructor <;> rintro ⟨⟩
  | error f =>
      cases f with
      | notFinite => exact iff_of_true rfl rfl
      | _ => constructor <;> rintro ⟨⟩

theorem ofOutcome_eq_pending {r : Except Fault Float} :
    ofOutcome r = .pending ↔ ∃ f, f ≠ .notFinite ∧ r = .error f := by
  constructor
  · intro h
    cases r with
    | ok x => cases h
    | error f =>
        refine ⟨f, ?_, rfl⟩
        rintro rfl
        cases h
  · rintro ⟨f, hf, rfl⟩
    cases f with
    | notFinite => exact absurd rfl hf
    | _ => rfl

end Preview

/-- A value comes from a text that passed the check. -/
theorem malformation?_eq_none_of_ok {answer v : Float} {t : Text}
    (h : evaluateComplete answer t = .ok v) : malformation? t = none := by
  rw [evaluateComplete] at h
  split at h
  · cases h
  · rename_i hnone
    exact hnone

namespace Session

/-- A result on display is the value of a commit that was made with an
    operand. -/
theorem commit_resultShown {s : Session} (hmode : s.mode = .editing)
    (hresult : s.commit.mode = .resultShown) :
    ∃ v, evaluateComplete s.answer s.expression.text = .ok v
      ∧ s.commit.answer = shownValue v
      ∧ s.commit.display = shownText (shownValue v) := by
  rcases commit_cases s with ⟨hsame, -⟩ | ⟨v, hv, -, hcommit⟩
    | ⟨f, -, -, hcommit⟩
  · rw [hsame, hmode] at hresult
    cases hresult
  · refine ⟨v, hv, ?_, ?_⟩
    · rw [hcommit]
    · rw [hcommit]
      rfl
  · rw [hcommit] at hresult
    cases hresult

/-- **PREVIEW AND COMMIT AGREE**: where keys pass the check before a commit,
    the preview is a value, suppressed or pending exactly as the outcome of
    the commit is that value, the fault of a value that is not finite, or any
    other fault.  So a session that is being edited and whose commit shows a
    result had the value in its preview, the answer is the shown value, and
    the display what the preview said. -/
theorem preview_agrees_with_commit :
    (∀ (answer : Float) (keys : List Key), answer.isFinite = true →
      malformation? (keysText keys) = none →
        (∀ v, Preview.ofKeypad answer (keysText keys) = .value v
          ↔ evaluateComplete answer (keysText keys) = .ok v)
        ∧ (Preview.ofKeypad answer (keysText keys) = .suppressed
          ↔ evaluateComplete answer (keysText keys) = .error .notFinite)
        ∧ (Preview.ofKeypad answer (keysText keys) = .pending
          ↔ ∃ f, f ≠ .notFinite
            ∧ evaluateComplete answer (keysText keys) = .error f))
    ∧ ∀ (s : Session) (last : Option Float), s.Reached last →
        s.mode = .editing → s.commit.mode = .resultShown →
          ∃ v, s.preview = .value v ∧ s.commit.answer = shownValue v
            ∧ s.preview.text = ['=', ' '] ++ s.commit.display := by
  constructor
  · intro answer keys hfinite hcheck
    rw [Preview.ofKeypad_eq_ofOutcome hfinite hcheck]
    refine ⟨?_, Preview.ofOutcome_eq_suppressed, Preview.ofOutcome_eq_pending⟩
    intro v
    exact Preview.ofOutcome_eq_value
  · intro s last hreached hmode hresult
    have hcoherent := coherent_of_reached hreached
    obtain ⟨v, hv, hanswer, hdisplay⟩ := commit_resultShown hmode hresult
    have hpreview : s.preview = .value v := by
      rw [(hcoherent.editing hmode).2, Expression.text,
        Preview.ofKeypad_eq_ofOutcome hcoherent.finite
          (malformation?_eq_none_of_ok hv)]
      exact Preview.ofOutcome_eq_value.mpr hv
    refine ⟨v, hpreview, hanswer, ?_⟩
    -- the preview shows the value, the display what is kept of it
    rw [hpreview, hdisplay, shownText_shownValue]
    rfl

/-- A session in which two is typed and committed. -/
theorem preview_agrees_two :
    Preview.ofKeypad 0.0 (keysText [.digit 2]) = .value 2.0
      ∧ (Session.new.insert ['2']).Reached none
      ∧ (Session.new.insert ['2']).commit.mode = .resultShown
      ∧ ∃ v, (Session.new.insert ['2']).preview = .value v
        ∧ (Session.new.insert ['2']).commit.answer = shownValue v
        ∧ (Session.new.insert ['2']).preview.text
          = ['=', ' '] ++ (Session.new.insert ['2']).commit.display := by
  have hreached : (Session.new.insert ['2']).Reached none := .insert _ .new
  have hresult : (Session.new.insert ['2']).commit.mode = .resultShown := by rfl
  refine ⟨?_, hreached, hresult, ?_⟩
  · exact ((preview_agrees_with_commit.1 0.0 [.digit 2] (by decide +kernel)
      (by decide)).1 2.0).mpr (by rfl)
  · exact preview_agrees_with_commit.2 _ none hreached rfl hresult

end Session

end Keypad
