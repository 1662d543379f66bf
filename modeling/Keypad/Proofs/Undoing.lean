import Keypad.Keystroke
import Keypad.Proofs.KeyStructure

/-! # Undoing — insert and delete take each other back

    Toward: a deletion takes back the key that has just gone in, and a key
    that has just been deleted is taken again where the guard would accept it.

    Both ways the expression changes twice and ends as it began.  The preview
    is made anew each time and a key takes the banner away, so that the
    session ends as it began is a matter of the session invariant: there was
    no banner, and the preview had been made of that same expression
    (`Coherent.edit_expression`).  After an insertion nothing else is needed
    (`delete_press`).  After a deletion the guard is asked once more, about a
    key that stood in its place already (`press_delete_iff`). -/

namespace Keypad

namespace Session

variable {s : Session} {last : Option Float} {front : List Key} {k : Key}

/-- While editing, to edit the expression that is there changes nothing. -/
theorem Coherent.edit_expression (h : s.Coherent last)
    (hmode : s.mode = .editing) : s.edit s.expression = s := by
  obtain ⟨hbanner, hpreview⟩ := h.editing hmode
  show Session.mk s.expression s.answer .editing none
    (.ofKeypad s.answer s.expression.text) = s
  rw [← hpreview, ← hbanner, ← hmode]

/-- A key that goes in edits the expression. -/
theorem press_of_inserted
    (hk : Admission.of s.mode s.expression k = .inserted) :
    s.press k = s.edit (s.expression.insert k) := by
  rw [press, hk]

/-- While editing, a deletion takes the key before the caret out. -/
theorem delete_of_left (hmode : s.mode = .editing)
    (hleft : s.expression.left = front ++ [k]) :
    s.delete = refresh
      { s with expression := ⟨front, s.expression.right⟩ } := by
  have hremove : s.expression.remove
      = (some k, ⟨front, s.expression.right⟩) := by
    rw [← Expression.remove_concat, ← hleft]
  rw [delete, hmode, hremove]

/-- While editing, a key goes in exactly where the guard accepts it. -/
theorem inserted_iff {e : Expression} :
    Admission.of .editing e k = .inserted
      ↔ Context.accepted ⟨e.left, e.right, k⟩ = true := by
  constructor
  · exact Admission.accepted_of_inserted
  · exact fun hk => if_pos hk

/-- **DELETE TAKES BACK AN INSERTION**: in every session that a new one
    becomes, a key that goes in while editing is before the caret afterwards,
    and deleting it gives back the session there was, its preview included. -/
theorem delete_press (hs : s.Reached last) (hmode : s.mode = .editing)
    (hk : Admission.of s.mode s.expression k = .inserted) :
    (s.press k).expression
        = ⟨s.expression.left ++ [k], s.expression.right⟩
      ∧ (s.press k).delete = s := by
  rw [press_of_inserted hk]
  refine ⟨rfl, ?_⟩
  -- of the session in between nothing is left
  have hdelete : (s.edit (s.expression.insert k)).delete
      = s.edit s.expression :=
    delete_of_left rfl rfl
  rw [hdelete]
  exact (coherent_of_reached hs).edit_expression hmode

/-- A digit that goes in between keys, in a session that continues from a
    result and has seen a deletion. -/
theorem delete_press_after_result :
    ∃ (s : Session) (last : Option Float), s.Reached last
      ∧ s.expression = ⟨[.answer, .operator .multiply], [.opening]⟩
      ∧ s.mode = .editing
      ∧ Admission.of s.mode s.expression (.digit 7) = .inserted
      ∧ (s.press (.digit 7)).display = "ANS×7(".toList
      ∧ (s.press (.digit 7)).delete = s := by
  have hreached : (((((((Session.new.insert ['4']).commit).insert ['×']).insert
      ['(']).insert ['2']).obey .delete).obey .left).Reached _ :=
    .obey .left (by decide) (.obey .delete (by decide) (.insert _ (.insert _
      (.insert _ (.commit (.insert _ .new))))))
  have hexpression : (((((((Session.new.insert ['4']).commit).insert
      ['×']).insert ['(']).insert ['2']).obey .delete).obey .left).expression
        = ⟨[.answer, .operator .multiply], [.opening]⟩ := by
    rfl
  have hk : Admission.of .editing
      ⟨[.answer, .operator .multiply], [.opening]⟩ (.digit 7) = .inserted := by
    decide
  rw [← hexpression] at hk
  obtain ⟨-, hdelete⟩ := delete_press hreached rfl hk
  exact ⟨_, _, hreached, hexpression, rfl, hk, rfl, hdelete⟩

/-! ## Keys that are taken again -/

theorem Undeleted.exists_reached (h : s.Undeleted) :
    ∃ last, s.Reached last := by
  induction h with
  | new => exact ⟨none, .new⟩
  | insert name _ ih =>
      obtain ⟨last, hlast⟩ := ih
      exact ⟨last, .insert name hlast⟩
  | obey c _ _ ih =>
      obtain ⟨last, hlast⟩ := ih
      exact hlast.exists_obey c

/-- **WHAT CAN BE RETYPED**: in a session without deletions, the key before the
    caret can be deleted and inserted again, to give back the session there
    was, unless it is a point that follows no digit or a closing parenthesis
    that follows a point. -/
theorem press_delete_iff (hs : s.Undeleted) (hmode : s.mode = .editing)
    (hleft : s.expression.left = front ++ [k]) :
    s.delete.expression = ⟨front, s.expression.right⟩
      ∧ ((Admission.of s.delete.mode s.delete.expression k = .inserted
          ∧ s.delete.press k = s)
        ↔ (k = .point → front.getLast?.any Key.isDigit = true)
          ∧ (k = .closing → front.getLast? ≠ some .point)) := by
  have hw : WellFormed (front ++ k :: s.expression.right) := by
    have hkeys := guarded_structured.of_undeleted hs
    rw [structured_iff_wellFormed, Expression.keys, hleft, List.append_assoc]
      at hkeys
    exact hkeys
  have hdelete := delete_of_left hmode hleft
  have hmode' : s.delete.mode = .editing := by
    rw [hdelete]
    exact hmode
  have hexpression : s.delete.expression = ⟨front, s.expression.right⟩ := by
    rw [hdelete]
    rfl
  have hinserted : Admission.of .editing ⟨front, s.expression.right⟩ k
      = .inserted ↔ _ := inserted_iff.trans hw.accepted_iff
  rw [← hmode', ← hexpression] at hinserted
  refine ⟨hexpression, ?_⟩
  rw [hinserted, and_iff_left_of_imp]
  intro hk
  have hpress : s.delete.press k
      = s.edit ⟨front ++ [k], s.expression.right⟩ := by
    rw [press_of_inserted (hinserted.mpr hk), hdelete]
    rfl
  rw [hpress, ← hleft]
  obtain ⟨last, hreached⟩ := hs.exists_reached
  exact (coherent_of_reached hreached).edit_expression hmode

/-- The point of `1.+2`, parted from its digit by a plus, is not taken again
    when it has been deleted. -/
theorem not_retyped_point :
    ∃ s : Session, s.Undeleted ∧ s.mode = .editing
      ∧ s.display = "1+.+2".toList
      ∧ s.expression.left = [.digit 1, .operator .add] ++ [.point]
      ∧ s.delete.display = "1++2".toList
      ∧ ¬ (Admission.of s.delete.mode s.delete.expression .point = .inserted
        ∧ s.delete.press .point = s) := by
  have hundeleted : ((((((((((Session.new.insert ['1']).insert ['.']).insert
      ['+']).insert ['2']).obey .left).obey .left).obey .left).insert
      ['+']).obey .right)).Undeleted :=
    .obey .right (by decide) (.insert _ (.obey .left (by decide)
      (.obey .left (by decide) (.obey .left (by decide) (.insert _ (.insert _
        (.insert _ (.insert _ .new))))))))
  refine ⟨_, hundeleted, rfl, by rfl, by rfl, by rfl, ?_⟩
  intro htaken
  obtain ⟨-, htaken_iff⟩ := @press_delete_iff _ [.digit 1, .operator .add] _
    hundeleted rfl rfl
  obtain ⟨hdigit, -⟩ := htaken_iff.mp htaken
  cases hdigit rfl

-- Nor is a parenthesis taken again that a point has come in front of.
example : ((new.strikes (Keystroke.ofText "(2)[.]".toList)).delete.press
    .closing).display = "(2.".toList := by rfl

end Session

end Keypad
