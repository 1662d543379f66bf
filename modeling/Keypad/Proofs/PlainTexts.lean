import Keypad.Proofs.Parentheses
import Keypad.Proofs.PhraseValue

/-! # Plain texts — what making a text plain leaves as it is

    A text is plain when it does not name the answer, has no glyph in it and
    leaves no product implied.  Every text is plain once it has been made so,
    whatever stood in it (`isPlain_ofKeypad`): an answer written out brings
    none of the letters of its name along, and a sign that goes in for a
    product stands in no juncture.  A plain text stays as it is, whatever the
    answer (`ofKeypad_of_isPlain`).

    So nothing is left to do the second time (`ofKeypad_ofKeypad`), and it
    makes no difference whether a product is typed or left implied
    (`ofKeypad_withTimes`). -/

namespace Keypad

namespace Plain

/-- Nothing is left to be made plain. -/
structure IsPlain (t : Text) : Prop where
  /-- The answer is not named. -/
  unnamed : ¬ Key.answerName <:+: t
  /-- No character is a glyph. -/
  symbols : ∀ c ∈ t, plainChar c = c
  /-- No product is implied. -/
  explicit : t.IsChain fun a b => implied a b = false

/-! ## The name of the answer -/

/-- A part that starts with a character which the front does not have lies
    behind the front. -/
theorem infix_of_infix_append {α : Type} {u v w : List α} {a : α}
    (ha : a ∉ u) (h : a :: w <:+: u ++ v) : a :: w <:+: v := by
  induction u with
  | nil => exact h
  | cons c u ih =>
      rcases List.infix_cons_iff.mp h with hfront | hbehind
      · have hac : a = c := (List.cons_prefix_cons.mp hfront).1
        exact absurd (hac ▸ List.mem_cons_self ..) ha
      · exact ih (fun hmem => ha (List.mem_cons_of_mem _ hmem)) hbehind

section Replacing

variable {operand : Text}

/-- What a replaced text starts with, apart from the operand, the text itself
    starts with. -/
theorem prefix_of_prefix_replaceAnswer (hne : operand ≠ []) :
    ∀ w t : Text, (∀ c ∈ w, c ∉ operand) → w <+: replaceAnswer operand t →
      w <+: t := by
  intro w
  induction w with
  | nil =>
      intro t _ _
      exact List.nil_prefix
  | cons a w ih =>
      intro t hw
      fun_cases replaceAnswer operand t with
      | case1 t =>
          -- the operand is in front
          intro h
          obtain ⟨o, rest, rfl⟩ := List.exists_cons_of_ne_nil hne
          have hao : a = o := (List.cons_prefix_cons.mp h).1
          exact absurd (hao ▸ List.mem_cons_self ..) (hw a (List.mem_cons_self ..))
      | case2 c t _ =>
          intro h
          obtain ⟨rfl, hrest⟩ := List.cons_prefix_cons.mp h
          have hw' : ∀ c ∈ w, c ∉ operand := fun c hc =>
            hw c (List.mem_cons_of_mem _ hc)
          exact List.cons_prefix_cons.mpr ⟨rfl, ih t hw' hrest⟩
      | case3 => exact fun h => h

/-- Where the operand has none of the letters of the name, no name is left and
    none comes about. -/
theorem unnamed_replaceAnswer (hne : operand ≠ [])
    (hletters : ∀ c ∈ Key.answerName, c ∉ operand) (t : Text) :
    ¬ Key.answerName <:+: replaceAnswer operand t := by
  intro h
  fun_induction replaceAnswer operand t with
  | case1 t ih =>
      exact ih (infix_of_infix_append (hletters 'A' (by decide)) h)
  | case2 c t hname ih =>
      rcases List.infix_cons_iff.mp h with hfront | hbehind
      · -- the text had the name here, and it was not replaced
        obtain ⟨rfl, hrest⟩ := List.cons_prefix_cons.mp hfront
        have hletters' : ∀ c ∈ ['N', 'S'], c ∉ operand := fun c hc =>
          hletters c (List.mem_cons_of_mem _ hc)
        obtain ⟨r, hr⟩ :=
          prefix_of_prefix_replaceAnswer hne ['N', 'S'] t hletters' hrest
        exact hname r rfl hr.symm
      · exact ih hbehind
  | case3 => cases List.infix_nil.mp h

/-- A text that does not name the answer stays as it is. -/
theorem replaceAnswer_of_unnamed {t : Text} (h : ¬ Key.answerName <:+: t) :
    replaceAnswer operand t = t := by
  fun_induction replaceAnswer operand t with
  | case1 t ih => exact absurd (List.prefix_append Key.answerName t).isInfix h
  | case2 c t _ ih => rw [ih fun hbehind => h (List.infix_cons hbehind)]
  | case3 => rfl

/-- A text in two parts is replaced part by part, where the second part cannot
    go on with a name that the first one begins. -/
theorem replaceAnswer_append {t : Text} (h : ∀ c ∈ t.head?, c ≠ 'N' ∧ c ≠ 'S')
    (s : Text) :
    replaceAnswer operand (s ++ t)
      = replaceAnswer operand s ++ replaceAnswer operand t := by
  fun_induction replaceAnswer operand s with
  | case1 s ih =>
      show operand ++ replaceAnswer operand (s ++ t) = _
      rw [ih, List.append_assoc]
  | case2 c s hname ih =>
      rw [List.cons_append, replaceAnswer, ih, List.cons_append]
      rintro r rfl hr
      -- a name at the front would end before the second part
      have hrest : ['N', 'S'] <+: s := by
        cases t with
        | nil =>
            rw [List.append_nil] at hr
            exact ⟨r, hr.symm⟩
        | cons d t =>
            have hd : d ∉ ['N', 'S'] := by simpa using h d rfl
            exact Text.isPrefix_of_isPrefix_append hd ⟨r, hr.symm⟩
      obtain ⟨r', hr'⟩ := hrest
      exact hname r' rfl hr'.symm
  | case3 => rfl

end Replacing

section Resolving

variable {answer : Float}

theorem resolve_append {t : Text} (h : ∀ c ∈ t.head?, c ≠ 'N' ∧ c ≠ 'S')
    (s : Text) : resolve answer (s ++ t) = resolve answer s ++ resolve answer t := by
  rw [resolve, replaceAnswer_append h, List.map_append]
  rfl

/-- A text that does not name the answer gets its symbols and nothing else. -/
theorem resolve_of_unnamed {t : Text} (h : ¬ Key.answerName <:+: t) :
    resolve answer t = t.map plainChar := by
  rw [resolve, replaceAnswer_of_unnamed h]

end Resolving

/-- The answer written out is not empty and has none of the letters of its
    name, be it a number or not. -/
theorem letter_notMem_answerOperand (answer : Float) :
    answerOperand answer ≠ []
      ∧ ∀ c ∈ Key.answerName, c ∉ answerOperand answer := by
  have hletter : ∀ c ∈ Key.answerName, Token.isNumeric c = false ∧ c ≠ '('
      ∧ c ≠ '-' ∧ c ≠ ')' := by
    simp [Key.answerName, Token.isNumeric]
  by_cases hfinite : answer.isFinite = true
  · obtain ⟨m, n, hm, -, hcase⟩ := answer_cases hfinite
    have hnumber : ∀ c ∈ Key.answerName, c ∉ m := by
      intro c hc hcm
      have hnumeric := hm.numeric c hcm
      rw [(hletter c hc).1] at hnumeric
      cases hnumeric
    rcases hcase with ⟨hplain, -⟩ | ⟨hminus, -⟩
    · rw [hplain]
      exact ⟨hm.ne_nil, hnumber⟩
    · rw [hminus]
      refine ⟨List.cons_ne_nil _ _, ?_⟩
      intro c hc hmem
      obtain ⟨-, hopening, hsign, hclosing⟩ := hletter c hc
      simp [hopening, hsign, hclosing, hnumber c hc] at hmem
  · have hmarker : Fault.errorMarker = ['E', 'r', 'r', 'o', 'r'] := by rfl
    rw [answerOperand_of_not_isFinite hfinite, hmarker]
    exact ⟨List.cons_ne_nil _ _, by simp [Key.answerName]⟩

/-! ## Glyphs -/

theorem plainChar_plainChar (c : Char) :
    plainChar (plainChar c) = plainChar c := by
  fun_cases plainChar c <;> simp_all [plainChar]

/-- Only the two symbols of glyphs have more than one character behind them. -/
theorem eq_of_plainChar_eq {c d : Char} (h : plainChar c = d) (htimes : d ≠ '*')
    (hdivide : d ≠ '/') : c = d := by
  unfold plainChar at h
  split at h
  · exact absurd h.symm htimes
  · exact absurd h.symm hdivide
  · exact h

/-- A text that names the answer once symbols stand for its glyphs did so
    before. -/
theorem named_of_named_map_plainChar {t : Text}
    (h : Key.answerName <:+: t.map plainChar) : Key.answerName <:+: t := by
  obtain ⟨name, hname, hmap⟩ := List.infix_map_iff.mp h
  have hsame : ∀ c ∈ name, plainChar c = c := by
    intro c hc
    have hletter : plainChar c ∈ Key.answerName := by
      rw [hmap]
      exact List.mem_map_of_mem hc
    have hsymbol : ∀ d ∈ Key.answerName, d ≠ '*' ∧ d ≠ '/' := by
      simp [Key.answerName]
    obtain ⟨htimes, hdivide⟩ := hsymbol _ hletter
    exact (eq_of_plainChar_eq rfl htimes hdivide).symm
  rw [List.map_congr_left hsame, List.map_id'] at hmap
  rw [hmap]
  exact hname

/-! ## Signs at junctures -/

section Junctures

variable {j : Char → Char → Bool}

theorem mem_of_mem_insertTimes {c : Char} (t : Text)
    (h : c ∈ insertTimes j t) : c = '*' ∨ c ∈ t := by
  induction t with
  | nil => cases h
  | cons a t ih =>
      cases t with
      | nil => exact Or.inr h
      | cons b t =>
          rw [insertTimes_cons_cons] at h
          split at h
          · rcases List.mem_cons.mp h with rfl | h
            · exact Or.inr (List.mem_cons_self ..)
            · rcases List.mem_cons.mp h with rfl | h
              · exact Or.inl rfl
              · exact (ih h).imp_right (List.mem_cons_of_mem _)
          · rcases List.mem_cons.mp h with rfl | h
            · exact Or.inr (List.mem_cons_self ..)
            · exact (ih h).imp_right (List.mem_cons_of_mem _)

/-- What has no sign in it and starts the text with its signs starts the text
    without them. -/
theorem prefix_of_prefix_insertTimes :
    ∀ w t : Text, '*' ∉ w → w <+: insertTimes j t → w <+: t := by
  intro w
  induction w with
  | nil =>
      intro t _ _
      exact List.nil_prefix
  | cons a w ih =>
      intro t hw h
      have hw' : '*' ∉ w := fun hmem => hw (List.mem_cons_of_mem _ hmem)
      cases t with
      | nil => exact h
      | cons c t =>
          cases t with
          | nil => exact h
          | cons d t =>
              rw [insertTimes_cons_cons] at h
              split at h
              · obtain ⟨rfl, hrest⟩ := List.cons_prefix_cons.mp h
                -- nothing but the first character stands before the sign
                cases w with
                | nil => exact List.prefix_append [a] (d :: t)
                | cons b w =>
                    have hsign : b = '*' := (List.cons_prefix_cons.mp hrest).1
                    exact absurd (hsign ▸ List.mem_cons_self ..) hw'
              · obtain ⟨rfl, hrest⟩ := List.cons_prefix_cons.mp h
                exact List.cons_prefix_cons.mpr ⟨rfl, ih (d :: t) hw' hrest⟩

/-- Signs do not make up a part that has no sign in it. -/
theorem infix_of_infix_insertTimes {a : Char} {w : Text} (hw : '*' ∉ a :: w) :
    ∀ t : Text, a :: w <:+: insertTimes j t → a :: w <:+: t := by
  intro t
  induction t with
  | nil => exact fun h => h
  | cons c t ih =>
      intro h
      cases t with
      | nil => exact h
      | cons d t =>
          have hsplit : a :: w <+: insertTimes j (c :: d :: t)
              ∨ a :: w <:+: insertTimes j (d :: t) := by
            rw [insertTimes_cons_cons] at h ⊢
            split at h
            · rename_i hj
              rw [if_pos hj]
              refine (List.infix_cons_iff.mp h).imp_right fun hbehind => ?_
              refine infix_of_infix_append (u := ['*']) ?_ hbehind
              intro hmem
              exact hw (List.mem_singleton.mp hmem ▸ List.mem_cons_self ..)
            · rename_i hj
              rw [if_neg hj]
              exact List.infix_cons_iff.mp h
          rcases hsplit with hfront | hbehind
          · exact (prefix_of_prefix_insertTimes _ _ hw hfront).isInfix
          · exact List.infix_cons (ih hbehind)

/-- Where no juncture has a sign in it, a text with its signs has no juncture
    left. -/
theorem isChain_insertTimes (hleft : ∀ c, j '*' c = false)
    (hright : ∀ c, j c '*' = false) (t : Text) :
    (insertTimes j t).IsChain fun a b => j a b = false := by
  induction t with
  | nil => exact List.IsChain.nil
  | cons a t ih =>
      cases t with
      | nil => exact List.IsChain.singleton a
      | cons b t =>
          obtain ⟨r, hr⟩ := insertTimes_cons j b t
          rw [insertTimes_cons_cons, hr]
          rw [hr] at ih
          split
          · exact List.isChain_cons_cons.mpr ⟨hright a,
              List.isChain_cons_cons.mpr ⟨hleft b, ih⟩⟩
          · rename_i hj
            exact List.isChain_cons_cons.mpr ⟨Bool.eq_false_iff.mpr hj, ih⟩

end Junctures

/-! ## Once and for all -/

/-- **A TEXT MADE PLAIN IS PLAIN**: it names no answer, has no glyph and leaves
    no product implied, whatever the text and the answer are. -/
theorem isPlain_ofKeypad (answer : Float) (t : Text) :
    IsPlain (ofKeypad answer t) := by
  obtain ⟨hne, hletters⟩ := letter_notMem_answerOperand answer
  rw [ofKeypad_eq, resolve]
  constructor
  · intro hnamed
    have hnamed' := infix_of_infix_insertTimes (by decide) _ hnamed
    exact unnamed_replaceAnswer hne hletters t
      (named_of_named_map_plainChar hnamed')
  · intro c hc
    rcases mem_of_mem_insertTimes _ hc with rfl | hmem
    · rfl
    · obtain ⟨d, -, rfl⟩ := List.mem_map.mp hmem
      exact plainChar_plainChar d
  · exact isChain_insertTimes (implied_eq_false_of_left rfl rfl)
      (implied_eq_false_of_right rfl rfl) _

/-- A plain text stays as it is. -/
theorem ofKeypad_of_isPlain {t : Text} (h : IsPlain t) (answer : Float) :
    ofKeypad answer t = t := by
  rw [ofKeypad_eq, resolve, replaceAnswer_of_unnamed h.unnamed,
    List.map_congr_left h.symbols, List.map_id', insertTimes_of_isChain h.explicit]

/-- The plain texts are the texts that stay as they are. -/
theorem isPlain_iff (answer : Float) {t : Text} :
    IsPlain t ↔ ofKeypad answer t = t := by
  constructor
  · intro h
    exact ofKeypad_of_isPlain h answer
  · intro h
    rw [← h]
    exact isPlain_ofKeypad answer t

/-- **ONCE IS ENOUGH**: making a text plain a second time changes nothing, even
    if another answer has come in between. -/
theorem ofKeypad_ofKeypad (a b : Float) (t : Text) :
    ofKeypad b (ofKeypad a t) = ofKeypad a t := by
  have hplain : IsPlain (ofKeypad a t) := isPlain_ofKeypad a t
  exact ofKeypad_of_isPlain hplain b

end Plain

/-! ## Products that are typed -/

namespace Key

/-- The keys with a multiplication typed wherever a product is implied. -/
def withTimes : List Key → List Key
  | a :: b :: w =>
      if a.implies b then a :: .operator .multiply :: withTimes (b :: w)
      else a :: withTimes (b :: w)
  | w => w

theorem withTimes_cons_cons (a b : Key) (w : List Key) :
    withTimes (a :: b :: w)
      = if a.implies b then a :: .operator .multiply :: withTimes (b :: w)
        else a :: withTimes (b :: w) := rfl

/-- The first key stays the first. -/
theorem withTimes_cons (a : Key) (w : List Key) :
    ∃ r, withTimes (a :: w) = a :: r := by
  cases w with
  | nil => exact ⟨[], rfl⟩
  | cons b w =>
      rw [withTimes_cons_cons]
      split
      · exact ⟨_, rfl⟩
      · exact ⟨_, rfl⟩

/-- Of two keys that imply a product one is a parenthesis. -/
theorem apart_of_implies {a b : Key} (h : a.implies b = true) : a.Apart b := by
  cases a with
  | closing => exact apart_of_left b rfl
  | digit _ | answer =>
      cases b with
      | opening => exact apart_of_right _ rfl
      | _ => cases h
  | point | operator _ | opening => cases h

end Key

namespace Plain

variable {answer : Float}

/-- A key at the front, with a sign behind it if its text and the next one
    imply a product. -/
theorem ofKeys_cons_cons (h : answer.isFinite = true) (a b : Key)
    (w : List Key) :
    ofKeys answer (a :: b :: w)
      = insertTimes implied (a.plain answer)
        ++ seam implied (a.plain answer) (b.plain answer)
        ++ ofKeys answer (b :: w) := by
  -- of what follows the seam looks at the first character alone
  have hseam : seam implied (a.plain answer)
      ((b :: w).flatMap (Key.plain answer))
        = seam implied (a.plain answer) (b.plain answer) := by
    obtain ⟨c, t, hb, -⟩ := Key.head_plain h b
    rw [seam, seam, List.flatMap_cons, hb]
    rfl
  rw [ofKeys, List.flatMap_cons, insertTimes_append, hseam]
  rfl

/-- Between two keys that imply a product stands the sign that a
    multiplication would be. -/
theorem ofKeys_of_implies (h : answer.isFinite = true) {a b : Key}
    (hab : a.implies b = true) (w : List Key) :
    ofKeys answer (a :: b :: w)
      = ofKeys answer [a] ++ ['*'] ++ ofKeys answer (b :: w) := by
  have hapart : ∀ x ∈ [a].getLast?, ∀ y ∈ (b :: w).head?, x.Apart y := by
    intro x hx y hy
    obtain rfl := Option.some.inj hx
    obtain rfl := Option.some.inj hy
    exact Key.apart_of_implies hab
  have hsign : Key.seam ([] ++ [a]) (b :: w) = ['*'] :=
    Key.seam_of_implies hab
  rw [← hsign]
  exact ofKeys_append h hapart

/-- A multiplication may be typed wherever a product is implied. -/
theorem ofKeys_withTimes (h : answer.isFinite = true) (keys : List Key) :
    ofKeys answer (Key.withTimes keys) = ofKeys answer keys := by
  induction keys with
  | nil => rfl
  | cons a keys ih =>
      cases keys with
      | nil => rfl
      | cons b w =>
          rw [Key.withTimes_cons_cons]
          split
          · rename_i hab
            calc ofKeys answer
                  (a :: .operator .multiply :: Key.withTimes (b :: w))
                = ofKeys answer [a]
                    ++ (['*'] ++ ofKeys answer (Key.withTimes (b :: w))) :=
                  ofKeys_operator h [a] .multiply _
              _ = ofKeys answer [a] ++ ['*'] ++ ofKeys answer (b :: w) := by
                  rw [ih, List.append_assoc]
              _ = ofKeys answer (a :: b :: w) := (ofKeys_of_implies h hab w).symm
          · -- the next key stays the next, and so does what is at the seam
            obtain ⟨r, hr⟩ := Key.withTimes_cons b w
            rw [hr] at ih ⊢
            rw [ofKeys_cons_cons h, ih, ← ofKeys_cons_cons h]

/-- **A PRODUCT MAY BE TYPED**: keys have the same plain text when a
    multiplication is typed wherever they leave a product implied, be they
    well formed or not. -/
theorem ofKeypad_withTimes (h : answer.isFinite = true) (keys : List Key) :
    ofKeypad answer (keysText (Key.withTimes keys))
      = ofKeypad answer (keysText keys) := by
  rw [ofKeypad_keysText h, ofKeypad_keysText h, ofKeys_withTimes h]

/-- A negative answer between groups and next to itself. -/
theorem ofKeypad_withTimes_negative_answer :
    (-3.0 : Float).isFinite = true
      ∧ keysText (Key.withTimes
          [.closing, .answer, .answer, .opening, .digit 2, .closing, .opening])
        = ")×ANSANS×(2)×(".toList
      ∧ ofKeypad (-3.0) ")×ANSANS×(2)×(".toList
        = ofKeypad (-3.0) ")ANSANS(2)(".toList := by
  have hfinite : (-3.0 : Float).isFinite = true := by decide +kernel
  exact ⟨hfinite, by rfl, ofKeypad_withTimes hfinite
    [.closing, .answer, .answer, .opening, .digit 2, .closing, .opening]⟩

end Plain

end Keypad
