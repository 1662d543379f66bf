import Keypad.Proofs.Rounding
import Keypad.Session

/-! # The session invariant — nothing on the calculator is stale

    A session keeps its expression, its answer, its mode, its banner and its
    preview in five fields, and every operation writes some of them and leaves
    others.  `Coherent` says how they belong together in each of the three
    modes, and that the answer is the shown value of the last commit that
    succeeded.  In particular there is a banner exactly while nothing is
    edited (`Coherent.banner_eq_none_iff`).

    A session changes in two ways, whatever the user does.  Keys and moves
    keep the answer and end with an expression that is edited: a key writes
    every other field, a deletion while editing leaves mode and banner to
    what they are, and a caret that moves leaves the preview too.  A commit
    ends the expression.  `Coherent` is shown for both
    (`Coherent.of_editing`, `Coherent.commit`), and `coherent_of_reached` for
    every session that a new one can become. -/

namespace Keypad

/-! ## Only finite values come out -/

theorem Program.isFinite_of_evaluate {p : Program} {x : Float}
    (h : p.evaluate = .ok x) : x.isFinite = true := by
  rw [Program.evaluate] at h
  split at h
  · split at h
    · rename_i hfinite
      obtain rfl := Except.ok.inj h
      exact hfinite
    · cases h
  · cases h

theorem isFinite_of_evaluatePlain {t : Text} {x : Float}
    (h : evaluatePlain t = .ok x) : x.isFinite = true := by
  rw [evaluatePlain] at h
  split at h
  · exact Program.isFinite_of_evaluate h
  · cases h

theorem isFinite_of_evaluateComplete {answer x : Float} {t : Text}
    (h : evaluateComplete answer t = .ok x) : x.isFinite = true := by
  rw [evaluateComplete] at h
  split at h
  · cases h
  · exact isFinite_of_evaluatePlain h

theorem Fault.marker_cases (f : Fault) :
    f.marker = errorMarker ∨ f.marker = syntaxMarker := by
  rw [marker]
  split
  · exact Or.inr rfl
  · exact Or.inl rfl

namespace Session

/-! ## What the operations do -/

/-- The value of a commit, where it succeeds. -/
def committed? (s : Session) : Option Float :=
  if s.expression.keys.any Key.isOperand then
    (evaluateComplete s.answer s.expression.text).toOption
  else none

/-- A key edits the expression or does nothing. -/
theorem press_cases (k : Key) (s : Session) :
    s.press k = s ∨ ∃ e, s.press k = s.edit e := by
  rw [press]
  split
  · exact Or.inl rfl
  · exact Or.inr ⟨_, rfl⟩
  · exact Or.inr ⟨_, rfl⟩

theorem insert_cases (name : Text) (s : Session) :
    s.insert name = s ∨ ∃ e, s.insert name = s.edit e := by
  rw [insert]
  split
  · exact press_cases _ s
  · exact Or.inl rfl

/-- To clear is to edit nothing. -/
theorem clear_eq_edit (s : Session) : s.clear = s.edit .empty := rfl

/-- A deletion does nothing, takes a key out while editing, or clears. -/
theorem delete_cases (s : Session) :
    s.delete = s
      ∨ (s.mode = .editing ∧ ∃ e, s.delete = refresh { s with expression := e })
      ∨ s.delete = s.clear := by
  rw [delete]
  split
  · rename_i hmode
    split
    · exact Or.inr (Or.inl ⟨hmode, _, rfl⟩)
    · exact Or.inl rfl
  · exact Or.inr (Or.inr rfl)

/-- The caret moves while editing only, and the keys stay. -/
theorem moveLeft_cases (s : Session) :
    s.moveLeft = s ∨ s.mode = .editing ∧ ∃ e, e.keys = s.expression.keys
      ∧ s.moveLeft = { s with expression := e } := by
  rw [moveLeft]
  split
  · rename_i hmode
    refine Or.inr ⟨hmode, _, ?_, rfl⟩
    cases hmove : s.expression.moveLeft? with
    | none => rfl
    | some e => exact Expression.keys_of_moveLeft? hmove
  · exact Or.inl rfl

theorem moveRight_cases (s : Session) :
    s.moveRight = s ∨ s.mode = .editing ∧ ∃ e, e.keys = s.expression.keys
      ∧ s.moveRight = { s with expression := e } := by
  rw [moveRight]
  split
  · rename_i hmode
    refine Or.inr ⟨hmode, _, ?_, rfl⟩
    cases hmove : s.expression.moveRight? with
    | none => rfl
    | some e => exact Expression.keys_of_moveRight? hmove
  · exact Or.inl rfl

/-- A commit does nothing, shows a value that is the new answer, or shows a
    fault. -/
theorem commit_cases (s : Session) :
    (s.commit = s ∧ s.committed? = none)
      ∨ (∃ x, evaluateComplete s.answer s.expression.text = .ok x
        ∧ s.committed? = some x
        ∧ s.commit = ⟨.empty, shownValue x, .resultShown,
            some (shownText (shownValue x)), .suppressed⟩)
      ∨ ∃ f, evaluateComplete s.answer s.expression.text = .error f
        ∧ s.committed? = none
        ∧ s.commit = { s with
            expression := .empty
            mode := .faultShown
            banner := some f.marker
            preview := .suppressed } := by
  rw [commit, committed?]
  split
  · cases evaluateComplete s.answer s.expression.text with
    | ok x => exact Or.inr (Or.inl ⟨x, rfl, rfl, rfl⟩)
    | error f => exact Or.inr (Or.inr ⟨f, rfl, rfl, rfl⟩)
  · exact Or.inl ⟨rfl, rfl⟩

/-! ## The invariant -/

/-- The fields of a session belong together; `last` is the value of the last
    commit that succeeded. -/
structure Coherent (s : Session) (last : Option Float) : Prop where
  /-- While editing there is no banner, and the preview is that of the
      text. -/
  editing : s.mode = .editing →
    s.banner = none ∧ s.preview = .ofKeypad s.answer s.expression.text
  /-- Over a result nothing is typed and the banner shows the answer. -/
  resultShown : s.mode = .resultShown →
    s.expression = .empty ∧ s.preview = .suppressed
      ∧ s.banner = some (shownText s.answer)
  /-- Over a fault nothing is typed and the banner is the marker of one. -/
  faultShown : s.mode = .faultShown →
    s.expression = .empty ∧ s.preview = .suppressed
      ∧ ∃ f : Fault, s.banner = some f.marker
  finite : s.answer.isFinite = true
  rounded : shownValue s.answer = s.answer
  /-- The answer is what was shown of the last value. -/
  committed : s.answer = (last.map shownValue).getD 0.0

namespace Coherent

variable {s s' : Session} {last : Option Float}

/-- There is a banner exactly while nothing is edited. -/
theorem banner_eq_none_iff (h : s.Coherent last) :
    s.banner = none ↔ s.mode = .editing := by
  cases hmode : s.mode with
  | editing => exact iff_of_true (h.editing hmode).1 rfl
  | resultShown =>
      obtain ⟨-, -, hbanner⟩ := h.resultShown hmode
      rw [hbanner]
      exact iff_of_false nofun nofun
  | faultShown =>
      obtain ⟨-, -, f, hbanner⟩ := h.faultShown hmode
      rw [hbanner]
      exact iff_of_false nofun nofun

theorem new : Coherent Session.new none where
  editing _ := ⟨rfl, rfl⟩
  resultShown := by rintro ⟨⟩
  faultShown := by rintro ⟨⟩
  finite := by decide +kernel
  rounded := by decide +kernel
  committed := rfl

/-- What keeps the answer and ends in editing, without a banner and with the
    preview of the text, keeps a session coherent. -/
theorem of_editing (h : s.Coherent last) (hanswer : s'.answer = s.answer)
    (hmode : s'.mode = .editing) (hbanner : s'.banner = none)
    (hpreview : s'.preview = .ofKeypad s'.answer s'.expression.text) :
    s'.Coherent last where
  editing _ := ⟨hbanner, hpreview⟩
  resultShown hresult := by cases hmode.symm.trans hresult
  faultShown hfault := by cases hmode.symm.trans hfault
  finite := hanswer ▸ h.finite
  rounded := hanswer ▸ h.rounded
  committed := hanswer.trans h.committed

theorem edit (h : s.Coherent last) (e : Expression) :
    (s.edit e).Coherent last :=
  h.of_editing rfl rfl rfl rfl

theorem of_edit (h : s.Coherent last)
    (hs' : s' = s ∨ ∃ e, s' = s.edit e) : s'.Coherent last := by
  rcases hs' with rfl | ⟨e, rfl⟩
  · exact h
  · exact h.edit e

theorem clear (h : s.Coherent last) : s.clear.Coherent last := by
  rw [clear_eq_edit]
  exact h.edit .empty

/-- A deletion leaves mode and banner alone only where they are those of
    editing. -/
theorem delete (h : s.Coherent last) : s.delete.Coherent last := by
  rcases s.delete_cases with hsame | ⟨hmode, e, hdelete⟩ | hclear
  · rw [hsame]
    exact h
  · rw [hdelete]
    exact h.of_editing rfl hmode (h.editing hmode).1 rfl
  · rw [hclear]
    exact h.clear

/-- While editing, a caret that moves leaves text and preview as they are. -/
theorem of_move (h : s.Coherent last)
    (hs' : s' = s ∨ s.mode = .editing ∧ ∃ e, e.keys = s.expression.keys
      ∧ s' = { s with expression := e }) : s'.Coherent last := by
  rcases hs' with rfl | ⟨hmode, e, hkeys, rfl⟩
  · exact h
  · obtain ⟨hbanner, hpreview⟩ := h.editing hmode
    have htext : e.text = s.expression.text := congrArg keysText hkeys
    refine h.of_editing rfl hmode hbanner ?_
    rw [htext]
    exact hpreview

/-- A commit that succeeds puts what is shown in place of the answer. -/
theorem commit (h : s.Coherent last) :
    s.commit.Coherent (s.committed?.or last) := by
  -- only a value that came out is the new answer, and it is finite
  rcases commit_cases s with ⟨hsame, hnone⟩ | ⟨x, hx, hsome, hcommit⟩
    | ⟨f, -, hnone, hcommit⟩
  · rw [hsame, hnone]
    exact h
  · rw [hcommit, hsome]
    constructor
    · rintro ⟨⟩
    · intro _
      exact ⟨rfl, rfl, rfl⟩
    · rintro ⟨⟩
    · rw [isFinite_shownValue]
      exact isFinite_of_evaluateComplete hx
    · exact shownValue_shownValue x
    · rfl
  · rw [hcommit, hnone]
    constructor
    · rintro ⟨⟩
    · rintro ⟨⟩
    · intro _
      exact ⟨rfl, rfl, f, rfl⟩
    · exact h.finite
    · exact h.rounded
    · exact h.committed

end Coherent

/-! ## Every session -/

/-- The sessions that a new one becomes, with the value of the last commit
    that succeeded.  Any text may be handed in for a key. -/
inductive Reached : Session → Option Float → Prop where
  | new : Reached Session.new none
  | insert {s : Session} {last : Option Float} (name : Text) :
      Reached s last → Reached (s.insert name) last
  | obey {s : Session} {last : Option Float} (c : Command) : c ≠ .commit →
      Reached s last → Reached (s.obey c) last
  | commit {s : Session} {last : Option Float} :
      Reached s last → Reached s.commit (s.committed?.or last)

theorem Reached.exists_obey {s : Session} {last : Option Float}
    (h : s.Reached last) (c : Command) :
    ∃ last', (s.obey c).Reached last' := by
  by_cases hc : c = .commit
  · rw [hc]
    exact ⟨_, .commit h⟩
  · exact ⟨last, .obey c hc h⟩

/-- Any key and any command but a commit keep a session coherent. -/
theorem Coherent.insert {s : Session} {last : Option Float}
    (h : s.Coherent last) (name : Text) : (s.insert name).Coherent last :=
  h.of_edit (insert_cases name s)

theorem Coherent.obey {s : Session} {last : Option Float}
    (h : s.Coherent last) {c : Command} (hc : c ≠ .commit) :
    (s.obey c).Coherent last := by
  cases c with
  | commit => exact absurd rfl hc
  | clear => exact h.clear
  | delete => exact h.delete
  | left => exact h.of_move s.moveLeft_cases
  | right => exact h.of_move s.moveRight_cases

/-- Every session that a new one becomes is coherent. -/
theorem coherent_of_reached {s : Session} {last : Option Float}
    (h : s.Reached last) : s.Coherent last := by
  induction h with
  | new => exact Coherent.new
  | insert name _ ih => exact ih.insert name
  | obey c hc _ ih => exact ih.obey hc
  | commit _ ih => exact ih.commit

/-- **NOTHING IS STALE**: in every session that a new one becomes, by any
    texts and commands in any order, there is no banner while editing, and the
    display and the preview belong to the expression; over a result the
    display shows the answer and over a fault a marker, and nothing is typed
    or previewed; and the answer is a finite value that is shown as itself,
    what was shown of the last value that was committed. -/
theorem reached_invariant {s : Session} {last : Option Float}
    (h : s.Reached last) :
    (s.mode = .editing →
      s.banner = none ∧ s.display = s.expression.text
        ∧ s.preview = .ofKeypad s.answer s.expression.text)
    ∧ (s.mode = .resultShown →
      s.expression = .empty ∧ s.preview = .suppressed
        ∧ s.display = shownText s.answer)
    ∧ (s.mode = .faultShown →
      s.expression = .empty ∧ s.preview = .suppressed
        ∧ (s.display = "Error".toList ∨ s.display = "Syntax Error".toList))
    ∧ s.answer.isFinite = true ∧ shownValue s.answer = s.answer
    ∧ s.answer = (last.map shownValue).getD 0.0 := by
  have hcoherent := coherent_of_reached h
  refine ⟨?_, ?_, ?_, hcoherent.finite, hcoherent.rounded,
    hcoherent.committed⟩
  · intro hmode
    obtain ⟨hbanner, hpreview⟩ := hcoherent.editing hmode
    exact ⟨hbanner, display_of_none hbanner, hpreview⟩
  · intro hmode
    obtain ⟨hexpression, hpreview, hbanner⟩ := hcoherent.resultShown hmode
    exact ⟨hexpression, hpreview, display_of_some hbanner⟩
  · intro hmode
    obtain ⟨hexpression, hpreview, f, hbanner⟩ := hcoherent.faultShown hmode
    refine ⟨hexpression, hpreview, ?_⟩
    rw [display_of_some hbanner]
    exact f.marker_cases

/-- Two and nothing else, committed. -/
theorem reached_invariant_two :
    ((Session.new.insert ['2']).commit).Reached (some 2.0)
      ∧ (Session.new.insert ['2']).commit.display
        = shownText (Session.new.insert ['2']).commit.answer
      ∧ (Session.new.insert ['2']).commit.answer = shownValue 2.0 := by
  have hreached : ((Session.new.insert ['2']).commit).Reached
      ((Session.new.insert ['2']).committed?.or none) :=
    .commit (.insert ['2'] .new)
  have hlast : (Session.new.insert ['2']).committed?.or none = some 2.0 := by
    rfl
  rw [hlast] at hreached
  obtain ⟨-, hresult, -, -, -, hcommitted⟩ := reached_invariant hreached
  have hmode : (Session.new.insert ['2']).commit.mode = .resultShown := by rfl
  exact ⟨hreached, (hresult hmode).2.2, hcommitted⟩

end Session

end Keypad
