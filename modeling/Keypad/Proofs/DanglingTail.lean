import Keypad.Proofs.PlainTexts
import Keypad.Proofs.SecondAttempt

/-! # The dangling tail — operators at the end do not show

    Toward: operators and blanks behind a text change nothing about its
    preview, whatever the text and the answer are.

    The attempt that counts is made without the dangling tail of the plain text
    (`ofPlain_eq`), so it is enough that every step before it leaves the tail in
    place.  Trimming drops nothing but blanks (`Text.exists_trim_append`); the
    tail has no parenthesis to count; and in plain text it is the tail once more
    (`Plain.ofKeypad_append`), for it has no letter of the answer in it and
    nothing that implies a product. -/

namespace Keypad

/-! ## The characters of a tail -/

namespace Text

/-- Blanks, and operators in either spelling. -/
def isTail (c : Char) : Bool :=
  isBlank c || ['+', '-', '*', '/', '%', '×', '÷'].contains c

variable {c : Char}

theorem isTail_cases (h : isTail c = true) :
    isBlank c = true ∨ ∃ o : Operator, c = o.symbol ∨ c = o.glyph := by
  rw [isTail, Bool.or_eq_true] at h
  refine h.imp_right fun hmem => ?_
  have hmem' := List.contains_iff_mem.mp hmem
  simp only [List.mem_cons, List.not_mem_nil, or_false] at hmem'
  rcases hmem' with rfl | rfl | rfl | rfl | rfl | rfl | rfl
  · exact ⟨.add, Or.inl rfl⟩
  · exact ⟨.subtract, Or.inl rfl⟩
  · exact ⟨.multiply, Or.inl rfl⟩
  · exact ⟨.divide, Or.inl rfl⟩
  · exact ⟨.remainder, Or.inl rfl⟩
  · exact ⟨.multiply, Or.inr rfl⟩
  · exact ⟨.divide, Or.inr rfl⟩

theorem ne_of_isBlank {d : Char} (hc : isBlank c = true)
    (hd : isBlank d = false) : c ≠ d := by
  rintro rfl
  rw [hc] at hd
  cases hd

/-- No blank is a glyph. -/
theorem plainChar_of_isBlank (h : isBlank c = true) :
    Plain.plainChar c = c := by
  unfold Plain.plainChar
  split <;> first | exact absurd h (by decide) | rfl

theorem notMem_answerName_of_isTail (h : isTail c = true) :
    c ∉ Key.answerName := by
  rcases isTail_cases h with hblank | ⟨o, rfl | rfl⟩
  · exact Key.notMem_answerName_of_isBlank hblank
  · cases o <;> decide
  · cases o <;> decide

theorem ne_parenthesis_of_isTail (h : isTail c = true) :
    c ≠ '(' ∧ c ≠ ')' := by
  rcases isTail_cases h with hblank | ⟨o, rfl | rfl⟩
  · exact ⟨ne_of_isBlank hblank rfl, ne_of_isBlank hblank rfl⟩
  · cases o <;> decide
  · cases o <;> decide

/-- In plain text a tail dangles. -/
theorem isDangling_of_isTail (h : isTail c = true) :
    Preview.isDangling (Plain.plainChar c) = true := by
  rcases isTail_cases h with hblank | ⟨o, rfl | rfl⟩
  · rw [plainChar_of_isBlank hblank, Preview.isDangling, hblank, Bool.true_or]
  · cases o <;> decide
  · cases o <;> decide

/-! ## The tail stays the tail -/

/-- Trimming a text in two parts leaves the first part as it is, if that part
    does not end in the class. -/
theorem trimEnd_append_left {p : Char → Bool} {u : Text}
    (h : ∀ c ∈ u.getLast?, p c = false) (v : Text) :
    trimEnd p (u ++ v) = u ++ trimEnd p v := by
  obtain ⟨w, hsplit, hw⟩ := exists_trimEnd_append p v
  have hlast : ∀ c ∈ (u ++ trimEnd p v).getLast?, p c = false := by
    intro c hc
    rw [List.getLast?_append] at hc
    cases hv : (trimEnd p v).getLast? with
    | none =>
        rw [hv] at hc
        exact h c hc
    | some d =>
        rw [hv] at hc
        obtain rfl := Option.some.inj hc
        exact of_getLast?_trimEnd hv
  calc trimEnd p (u ++ v)
      = trimEnd p (u ++ trimEnd p v ++ w) := by
        rw [List.append_assoc, ← hsplit]
    _ = trimEnd p (u ++ trimEnd p v) := trimEnd_append _ hw
    _ = u ++ trimEnd p v := trimEnd_eq_self hlast

/-- What has no parentheses leaves the depth as it is. -/
theorem depthFrom_append_of_forall {d : Nat} {u v : Text}
    (h : ∀ c ∈ v, c ≠ '(' ∧ c ≠ ')') :
    depthFrom d (u ++ v) = depthFrom d u := by
  rw [depthFrom_append]
  cases depthFrom d u with
  | none => rfl
  | some n => exact depthFrom_of_forall n h

variable {t : Text}

/-- A text with more than blanks in it begins with something else once the
    blanks in front are left out. -/
theorem exists_dropWhile_isBlank (h : ∃ c ∈ t, isBlank c = false) :
    ∃ c u, t.dropWhile isBlank = c :: u ∧ isBlank c = false := by
  cases hfront : t.dropWhile isBlank with
  | nil =>
      obtain ⟨c, hc, hblank⟩ := h
      rw [List.dropWhile_eq_nil_iff.mp hfront c hc] at hblank
      cases hblank
  | cons c u =>
      have hstop := List.head?_dropWhile_not isBlank t
      rw [hfront] at hstop
      exact ⟨c, u, rfl, hstop⟩

/-- Something is left of a text with more than blanks in it. -/
theorem trim_ne_nil (h : ∃ c ∈ t, isBlank c = false) : trim t ≠ [] := by
  intro hnil
  obtain ⟨c, u, hfront, hc⟩ := exists_dropWhile_isBlank h
  obtain ⟨tail, hsplit, htail⟩ :=
    exists_trimEnd_append isBlank (t.dropWhile isBlank)
  have hnil' : trimEnd isBlank (t.dropWhile isBlank) = [] := hnil
  rw [hnil', List.nil_append, hfront] at hsplit
  rw [htail c (hsplit ▸ List.mem_cons_self)] at hc
  cases hc

/-- Behind a text with more than blanks in it, trimming leaves that text trimmed
    and a part of what stands behind. -/
theorem exists_trim_append (h : ∃ c ∈ t, isBlank c = false) (o : Text) :
    ∃ v, trim (t ++ o) = trim t ++ v
      ∧ ∀ c ∈ v, isBlank c = true ∨ c ∈ o := by
  obtain ⟨c, u, hfront, -⟩ := exists_dropWhile_isBlank h
  obtain ⟨b, hsplit, hb⟩ :=
    exists_trimEnd_append isBlank (t.dropWhile isBlank)
  refine ⟨trimEnd isBlank (b ++ o), ?_, ?_⟩
  · have hdrop : (t ++ o).dropWhile isBlank = t.dropWhile isBlank ++ o := by
      rw [List.dropWhile_append, hfront]
      rfl
    calc trim (t ++ o)
        = trimEnd isBlank (trim t ++ (b ++ o)) := by
          rw [trim, hdrop, ← List.append_assoc]
          exact congrArg (fun f => trimEnd isBlank (f ++ o)) hsplit
      _ = trim t ++ trimEnd isBlank (b ++ o) :=
          trimEnd_append_left (fun _ hc => of_getLast?_trimEnd hc) _
  · intro d hd
    obtain ⟨w, hw, -⟩ := exists_trimEnd_append isBlank (b ++ o)
    have hmem : d ∈ b ++ o := by
      rw [hw]
      exact List.mem_append_left w hd
    exact (List.mem_append.mp hmem).imp_left (hb d)

end Text

namespace Plain

/-- A tail without a letter of the answer stays what it is, but for its glyphs,
    while the answer is written out. -/
theorem resolve_append_tail {answer : Float} {tail : Text}
    (h : ∀ c ∈ tail, c ∉ Key.answerName) (t : Text) :
    resolve answer (t ++ tail) = resolve answer t ++ tail.map plainChar := by
  have hunnamed : ¬ Key.answerName <:+: tail := by
    intro hname
    have hletter : 'A' ∈ tail := hname.subset List.mem_cons_self
    exact h 'A' hletter List.mem_cons_self
  have hhead : ∀ c ∈ tail.head?, c ≠ 'N' ∧ c ≠ 'S' := by
    intro c hc
    have hletter := h c (List.mem_of_head? hc)
    constructor <;> (rintro rfl; exact hletter (by decide))
  rw [resolve_append hhead, resolve_of_unnamed hunnamed]

/-- A tail that implies no product gets no sign. -/
theorem insertTimes_implied_append {tail : Text}
    (h : ∀ c ∈ tail, c.isDigit = false ∧ (c == '(') = false
      ∧ (c == ')') = false) (t : Text) :
    insertTimes implied (t ++ tail) = insertTimes implied t ++ tail := by
  have hseam : seam implied t tail = [] := by
    refine seam_eq_nil ?_
    intro a _ b hb
    obtain ⟨hdigit, hopening, -⟩ := h b (List.mem_of_head? hb)
    exact implied_eq_false_of_right hdigit hopening a
  have htail : insertTimes implied tail = tail := by
    refine insertTimes_of_isChain
      (List.isChain_iff_forall_rel_of_append_cons_cons.mpr ?_)
    rintro a b l₁ l₂ rfl
    obtain ⟨hdigit, -, hclosing⟩ :=
      h a (List.mem_append_right l₁ List.mem_cons_self)
    exact implied_eq_false_of_left hdigit hclosing b
  rw [insertTimes_append, hseam, List.append_nil, htail]

/-- The plain text of a text with a tail has the plain tail behind it. -/
theorem ofKeypad_append {tail : Text} (h : ∀ c ∈ tail, Text.isTail c = true)
    (answer : Float) (t : Text) :
    ofKeypad answer (t ++ tail) = ofKeypad answer t ++ tail.map plainChar := by
  have hletters : ∀ c ∈ tail, c ∉ Key.answerName := fun c hc =>
    Text.notMem_answerName_of_isTail (h c hc)
  rw [ofKeypad_eq, ofKeypad_eq, resolve_append_tail hletters,
    insertTimes_implied_append]
  intro d hd
  obtain ⟨c, hc, rfl⟩ := List.mem_map.mp hd
  obtain ⟨hnumeric, hclosing⟩ :=
    Preview.of_isDangling (Text.isDangling_of_isTail (h c hc))
  have hopening : plainChar c ≠ '(' := fun hopening =>
    (Text.ne_parenthesis_of_isTail (h c hc)).1
      (eq_of_plainChar_eq hopening (by decide) (by decide))
  exact ⟨(Bool.or_eq_false_iff.mp hnumeric).1, beq_eq_false_iff_ne.mpr hopening,
    beq_eq_false_iff_ne.mpr hclosing⟩

end Plain

/-! ## Previews -/

namespace Preview

/-- **A TAIL DOES NOT SHOW.**  Operators and blanks behind a text with more than
    blanks in it leave its preview as it is, whatever the text and the answer
    are. -/
theorem ofKeypad_append_tail {t o : Text}
    (ht : ∃ c ∈ t, Text.isBlank c = false)
    (ho : ∀ c ∈ o, Text.isBlank c = true
      ∨ c ∈ ['+', '-', '*', '/', '%', '×', '÷'])
    (answer : Float) : ofKeypad answer (t ++ o) = ofKeypad answer t := by
  obtain ⟨v, htrim, hv⟩ := Text.exists_trim_append ht o
  have htail : ∀ c ∈ v, Text.isTail c = true := by
    intro c hc
    have hcases : Text.isBlank c = true
        ∨ c ∈ ['+', '-', '*', '/', '%', '×', '÷'] :=
      (hv c hc).elim Or.inl (ho c)
    rw [Text.isTail, Bool.or_eq_true]
    exact hcases.imp_right List.contains_iff_mem.mpr
  have hne : Text.trim t ≠ [] := Text.trim_ne_nil ht
  have hempty : (Text.trim t ++ v).isEmpty = (Text.trim t).isEmpty := by
    rw [List.isEmpty_eq_false_iff.mpr hne, List.isEmpty_eq_false_iff]
    exact List.append_ne_nil_of_left_ne_nil hne v
  have hbalanced : Text.isBalanced (Text.trim t ++ v)
      = Text.isBalanced (Text.trim t) := by
    rw [Text.isBalanced, Text.isBalanced, Text.depth, Text.depth,
      Text.depthFrom_append_of_forall fun c hc =>
        Text.ne_parenthesis_of_isTail (htail c hc)]
  have hplain : ∀ c ∈ v.map Plain.plainChar, isDangling c = true := by
    intro d hd
    obtain ⟨c, hc, rfl⟩ := List.mem_map.mp hd
    exact Text.isDangling_of_isTail (htail c hc)
  rw [ofKeypad, ofKeypad, htrim, hempty, hbalanced,
    Plain.ofKeypad_append htail, ofPlain_append hplain]

/-- A text that ends in an operator already, and more of them. -/
theorem ofKeypad_append_tail_operators :
    ofKeypad 0.0 ("7-2×".toList ++ " ÷ +".toList) = ofKeypad 0.0 "7-2×".toList
      ∧ ofKeypad 0.0 "7-2×".toList = .value 5.0 := by
  have ht : ∃ c ∈ "7-2×".toList, Text.isBlank c = false :=
    ⟨'7', by simp, by decide⟩
  have ho : ∀ c ∈ " ÷ +".toList, Text.isBlank c = true
      ∨ c ∈ ['+', '-', '*', '/', '%', '×', '÷'] := by
    simp [Text.isBlank, Text.blankRanges]
  exact ⟨ofKeypad_append_tail ht ho 0.0, by decide +kernel⟩

end Preview

end Keypad
