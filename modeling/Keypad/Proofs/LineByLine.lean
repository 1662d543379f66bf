import Keypad.Terminal
import Mathlib.Data.List.Infix
import Mathlib.Data.List.Range

/-! # Line by line — a prompt prints what scripts print

    Toward: what a prompt prints is what scripts of the lines so far print,
    from no line at all to the whole input.

    A keystroke is one character, or the three letters of the answer, so texts
    can be read one after the other where a character between them is none of
    these letters (`Keystroke.ofText_append`).  The ends of lines are such
    characters, and they mean nothing themselves.  So cutting a text into lines
    and joining lines again both leave the keystrokes as they are
    (`Cut.ofText_eq`, `ofText_intercalate`), and a prompt is after each line in
    the session in which a script of the lines so far ends (`sessions_eq`). -/

namespace Keypad

namespace Keystroke

/-! ## Texts in a row -/

/-- Unless it begins the name of the answer, a character is read on its own. -/
theorem ofText_cons {c : Char} {t : Text} (h : ¬ Key.answerName <+: c :: t) :
    ofText (c :: t) = (ofChar? c).toList ++ ofText t := by
  rw [ofText]
  rintro t' rfl rfl
  exact h ⟨t', rfl⟩

/-- A text can be read up to a character that is no letter of the answer, and
    read on from there. -/
theorem ofText_append {c : Char} (hc : c ∉ Key.answerName) (s t : Text) :
    ofText (s ++ c :: t) = ofText s ++ ofText (c :: t) := by
  fun_induction ofText s with
  | case1 s ih =>
      show Keystroke.key .answer :: ofText (s ++ c :: t) = _
      rw [ih]
      rfl
  | case2 a s hname ih =>
      have hwhole : ¬ Key.answerName <+: a :: (s ++ c :: t) := by
        intro hprefix
        obtain ⟨rest, hrest⟩ :=
          Text.isPrefix_of_isPrefix_append (s := a :: s) hc hprefix
        obtain ⟨rfl, rfl⟩ := List.cons.inj hrest
        exact hname rest rfl rfl
      rw [List.cons_append, ofText_cons hwhole, ih, List.append_assoc]
  | case3 => rfl

/-- A character that means nothing can be left out, unless the name of the
    answer could come about. -/
theorem ofText_append_skip {c : Char} (hc : c ∉ Key.answerName)
    (hskip : ofChar? c = none) (s t : Text) :
    ofText (s ++ c :: t) = ofText s ++ ofText t := by
  have hname : ¬ Key.answerName <+: c :: t := by
    intro hprefix
    rw [← (List.cons_prefix_cons.mp hprefix).1] at hc
    exact hc List.mem_cons_self
  rw [ofText_append hc, ofText_cons hname, hskip]
  rfl

theorem ofText_lineFeed (s t : Text) :
    ofText (s ++ '\n' :: t) = ofText s ++ ofText t :=
  ofText_append_skip (by decide) (by decide) s t

theorem ofText_carriageReturn (s t : Text) :
    ofText (s ++ '\r' :: t) = ofText s ++ ofText t :=
  ofText_append_skip (by decide) (by decide) s t

end Keystroke

namespace Terminal

open Keystroke (ofText)

/-! ## Cutting into lines -/

/-- The lines of a text: cut at the line feeds, each of which takes one
    carriage return before it along.  The last line may lack its end. -/
inductive Cut : Text → List Text → Prop where
  | nil : Cut [] []
  | last {l : Text} : l ≠ [] → '\n' ∉ l → Cut l [l]
  | lineFeed {l t : Text} {ls : List Text} :
      '\n' ∉ l → l.getLast? ≠ some '\r' → Cut t ls →
      Cut (l ++ '\n' :: t) (l :: ls)
  | carriageReturn {l t : Text} {ls : List Text} :
      '\n' ∉ l → Cut t ls → Cut (l ++ '\r' :: '\n' :: t) (l :: ls)

/-- A character that is in no end of a line comes in front of the first
    line. -/
theorem lines_cons {c : Char} {t : Text} (hc : c ≠ '\n')
    (hreturn : c = '\r' → t.head? ≠ some '\n') :
    lines (c :: t) = match lines t with
      | [] => [[c]]
      | l :: ls => (c :: l) :: ls := by
  refine lines.eq_4 c t hc ?_
  rintro t' rfl rfl
  exact hreturn rfl rfl

/-- Characters that are in no end of a line make the first line longer. -/
theorem lines_append {l t l' : Text} {ls : List Text} (hl : '\n' ∉ l)
    (hreturn : l.getLast? = some '\r' → t.head? ≠ some '\n')
    (ht : lines t = l' :: ls) : lines (l ++ t) = (l ++ l') :: ls := by
  induction l with
  | nil => exact ht
  | cons c l ih =>
      obtain ⟨hc, hl⟩ := not_or.mp (mt List.mem_cons.mpr hl)
      cases l with
      | nil =>
          have hreturn' : c = '\r' → t.head? ≠ some '\n' := by
            rintro rfl
            exact hreturn rfl
          show lines (c :: t) = _
          rw [lines_cons (Ne.symm hc) hreturn', ht]
          rfl
      | cons d l =>
          have hreturn' : c = '\r' → (d :: l ++ t).head? ≠ some '\n' := by
            rintro - hd
            rw [Option.some.inj hd] at hl
            exact hl List.mem_cons_self
          rw [List.cons_append, lines_cons (Ne.symm hc) hreturn', ih hl hreturn]
          rfl

/-- A text is cut into its lines and no others. -/
theorem Cut.eq_lines {t : Text} {ls : List Text} (h : Cut t ls) :
    ls = lines t := by
  induction h with
  | nil => rfl
  | @last l hne hl =>
      obtain ⟨front, c, rfl⟩ := (List.eq_nil_or_concat l).resolve_left hne
      rw [List.concat_eq_append] at hl ⊢
      have hc : c ≠ '\n' := by
        rintro rfl
        exact hl (List.mem_append_right front List.mem_cons_self)
      have hfront : '\n' ∉ front := fun h => hl (List.mem_append_left _ h)
      have hlast : lines [c] = [[c]] := lines_cons hc fun _ => nofun
      have hhead : [c].head? ≠ some '\n' :=
        fun hhead => hc (Option.some.inj hhead)
      rw [lines_append hfront (fun _ => hhead) hlast]
  | @lineFeed l t ls hl hreturn _ ih =>
      have hfeed : lines ('\n' :: t) = [] :: ls := by
        rw [ih]
        rfl
      rw [lines_append hl (fun hlast => absurd hlast hreturn) hfeed,
        List.append_nil]
  | @carriageReturn l t ls hl _ ih =>
      have hfeed : lines ('\r' :: '\n' :: t) = [] :: ls := by
        rw [ih]
        rfl
      have hhead : ('\r' :: '\n' :: t).head? ≠ some '\n' := by
        rw [List.head?_cons]
        decide
      rw [lines_append hl (fun _ => hhead) hfeed, List.append_nil]

/-- One more character at the front is cut off or goes into a line. -/
theorem Cut.exists_cons {t : Text} {ls : List Text} (h : Cut t ls) (c : Char) :
    ∃ ls', Cut (c :: t) ls' := by
  by_cases hc : c = '\n'
  · rw [hc]
    exact ⟨_, .lineFeed (l := []) List.not_mem_nil nofun h⟩
  have hcons : ∀ {l : Text}, '\n' ∉ l → '\n' ∉ c :: l :=
    fun hl => mt List.mem_cons.mp (not_or.mpr ⟨Ne.symm hc, hl⟩)
  cases h with
  | nil => exact ⟨_, .last (List.cons_ne_nil c []) (hcons List.not_mem_nil)⟩
  | last _ hl => exact ⟨_, .last (List.cons_ne_nil c _) (hcons hl)⟩
  | carriageReturn hl h => exact ⟨_, .carriageReturn (hcons hl) h⟩
  | @lineFeed l t ls hl hreturn h =>
      cases l with
      | cons d l =>
          exact ⟨_, .lineFeed (l := c :: d :: l) (hcons hl) hreturn h⟩
      | nil =>
          by_cases hreturn' : c = '\r'
          · rw [hreturn']
            exact ⟨_, .carriageReturn (l := []) List.not_mem_nil h⟩
          · have hlast : [c].getLast? ≠ some '\r' :=
              fun hlast => hreturn' (Option.some.inj hlast)
            exact ⟨_, .lineFeed (l := [c]) (hcons hl) hlast h⟩

theorem exists_cut (t : Text) : ∃ ls, Cut t ls := by
  induction t with
  | nil => exact ⟨[], .nil⟩
  | cons c t ih =>
      obtain ⟨ls, h⟩ := ih
      exact h.exists_cons c

theorem cut_iff {t : Text} {ls : List Text} : Cut t ls ↔ ls = lines t := by
  constructor
  · exact Cut.eq_lines
  · rintro rfl
    obtain ⟨ls, h⟩ := exists_cut t
    rw [← h.eq_lines]
    exact h

-- A line feed takes one carriage return along, and the end of the text none.
example : lines "1\r\r\n\n2\r".toList
    = ["1\r".toList, [], "2\r".toList] := by decide

/-! ## The keystrokes of lines -/

/-- The keystrokes of a text are those of its lines. -/
theorem Cut.ofText_eq {t : Text} {ls : List Text} (h : Cut t ls) :
    ofText t = ls.flatMap ofText := by
  induction h with
  | nil => rfl
  | last _ _ => rw [List.flatMap_singleton]
  | lineFeed _ _ _ ih => rw [Keystroke.ofText_lineFeed, ih, List.flatMap_cons]
  | @carriageReturn l t ls _ _ ih =>
      have hfeed : ofText ('\n' :: t) = ofText t := Keystroke.ofText_lineFeed [] t
      rw [Keystroke.ofText_carriageReturn, hfeed, ih, List.flatMap_cons]

/-- The keystrokes of lines that are joined are those of the lines. -/
theorem ofText_intercalate (ls : List Text) :
    ofText (['\n'].intercalate ls) = ls.flatMap ofText := by
  induction ls with
  | nil => rfl
  | cons l ls ih =>
      cases ls with
      | nil => rw [List.intercalate_singleton, List.flatMap_singleton]
      | cons l' ls =>
          rw [List.intercalate_cons_cons, List.append_assoc,
            List.flatMap_cons, ← ih]
          exact Keystroke.ofText_lineFeed l _

/-! ## The sessions of a prompt -/

/-- A prompt is after each line in the session that the lines so far lead
    to. -/
theorem sessions_eq (ls : List Text) :
    ∀ s : Session, sessions s ls
      = (List.range (ls.length + 1)).map fun i =>
          s.strikes ((ls.take i).flatMap ofText) := by
  induction ls with
  | nil =>
      intro s
      rfl
  | cons l ls ih =>
      intro s
      rw [List.length_cons, List.range_succ_eq_map, List.map_cons, List.map_map]
      show s :: sessions (s.type l) ls = _
      rw [ih]
      refine congrArg (List.cons s) (List.map_congr_left fun i _ => ?_)
      show _ = s.strikes (((l :: ls).take (i + 1)).flatMap ofText)
      rw [List.take_succ_cons, List.flatMap_cons, Session.strikes_append]
      rfl

/-- A script of joined lines ends where the lines lead to. -/
theorem script_intercalate (ls : List Text) :
    script (['\n'].intercalate ls)
      = line (Session.new.strikes (ls.flatMap ofText)) := by
  rw [script, Session.type, ofText_intercalate]

/-- The lines of a whole text lead to where the text leads to. -/
theorem script_intercalate_lines (t : Text) :
    script (['\n'].intercalate (lines t)) = script t := by
  rw [script_intercalate, script, Session.type, (cut_iff.mpr rfl).ofText_eq]

/-- **A PROMPT PRINTS WHAT SCRIPTS PRINT**: on a text that is cut into lines, a
    run of the prompt prints for each number of lines, from none to all, what
    a run with these lines for a script prints, and the prompt sign; so before
    the last prompt sign stands what a run with the whole text for a script
    prints.  What else is asked for, or is there to be read, changes
    nothing. -/
theorem prompt_prints_scripts (input unread : Text) (v w : Nat) :
    (∀ ls, Cut input ls ↔ ls = lines input)
    ∧ output { verbosity := v } input
      = (List.range ((lines input).length + 1)).flatMap (fun i =>
          output { keys? := some (['\n'].intercalate ((lines input).take i)),
                   verbosity := w } unread
            ++ promptSign)
    ∧ output { keys? := some input, verbosity := w } unread ++ promptSign
      <:+ output { verbosity := v } input := by
  have hprompt : prompt input
      = (List.range ((lines input).length + 1)).flatMap fun i =>
          script (['\n'].intercalate ((lines input).take i)) ++ promptSign := by
    have hturn : ∀ ls : List Text, turn (Session.new.strikes (ls.flatMap ofText))
        = script (['\n'].intercalate ls) ++ promptSign := by
      intro ls
      rw [script_intercalate]
      rfl
    rw [prompt, sessions_eq, List.flatMap_map]
    simp only [hturn]
  refine ⟨fun ls => cut_iff, hprompt, ?_⟩
  show script input ++ promptSign <:+ prompt input
  rw [hprompt, List.range_succ, List.flatMap_append, List.flatMap_singleton,
    List.take_length, script_intercalate_lines]
  exact List.suffix_append _ _

end Terminal

end Keypad
