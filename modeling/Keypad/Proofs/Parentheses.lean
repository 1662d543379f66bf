import Keypad.Preview
import Keypad.Proofs.Continuation
import Keypad.Proofs.ReadBack
import Keypad.Proofs.Structure

/-! # Parentheses — counted, written out and matched

    Parentheses are counted on the keypad text, they go into the plain text,
    and the yard matches them on its stack.  The three agree.

    Making a text plain does not change its count: signs and symbols do not
    count, and an answer that is written out opens no more than it closes
    (`Plain.depthFrom_ofKeypad`).  While a text is read, the count is at each
    place the number of parentheses on the stack (`Reader.depthFrom_of_read`),
    and there is no count from the place on where a closing parenthesis is
    refused (`Reader.depthFrom_of_read_unopened`).

    So a text whose parentheses pair up is never evaluated to a fault about
    parentheses, and neither is what is left of it without its dangling tail,
    for a tail without closing parentheses has no opening ones either
    (`Text.depthFrom_trimEnd`). -/

namespace Keypad

/-! ## Counting -/

namespace Text

/-- What is no parenthesis does not count. -/
theorem deepen_of_ne {c : Char} (d : Nat) (hopening : c ≠ '(')
    (hclosing : c ≠ ')') : deepen d c = some d := by
  rw [deepen, if_neg hopening, if_neg hclosing]

/-- Without closing parentheses the depth does not fall. -/
theorem le_of_depthFrom {t : Text} (h : ∀ c ∈ t, c ≠ ')') :
    ∀ d e, depthFrom d t = some e → d ≤ e := by
  induction t with
  | nil =>
      intro d e he
      rw [Option.some.inj he]
  | cons c t ih =>
      intro d e he
      have ih' := ih fun c hc => h c (List.mem_cons_of_mem _ hc)
      rw [depthFrom_cons] at he
      by_cases hopening : c = '('
      · subst hopening
        exact Nat.le_of_succ_le (ih' (d + 1) e he)
      · rw [deepen_of_ne d hopening (h c (List.mem_cons_self ..))] at he
        exact ih' d e he

/-- A tail without closing parentheses belongs to no pair. -/
theorem depthFrom_trimEnd {p : Char → Bool} (hp : p ')' = false) {d : Nat}
    {t : Text} (h : depthFrom d t = some 0) :
    depthFrom d (trimEnd p t) = some 0 := by
  obtain ⟨tail, hsplit, htail⟩ := exists_trimEnd_append p t
  have hclosing : ∀ c ∈ tail, c ≠ ')' := by
    intro c hc hcp
    have hpc := htail c hc
    rw [hcp, hp] at hpc
    cases hpc
  rw [hsplit, depthFrom_append] at h
  cases hfront : depthFrom d (trimEnd p t) with
  | none =>
      rw [hfront] at h
      cases h
  | some e =>
      rw [hfront] at h
      have hle : e ≤ 0 := le_of_depthFrom hclosing e 0 h
      rw [Nat.le_zero.mp hle]

end Text

/-! ## Making a text plain -/

namespace Plain

/-- A multiplication sign does not count. -/
theorem depthFrom_insertTimes (juncture : Char → Char → Bool) (t : Text) :
    ∀ d, Text.depthFrom d (insertTimes juncture t) = Text.depthFrom d t := by
  induction t with
  | nil =>
      intro d
      rfl
  | cons a t ih =>
      intro d
      cases t with
      | nil => rfl
      | cons b t =>
          have hrest : ∀ d, Text.depthFrom d
              ('*' :: insertTimes juncture (b :: t))
                = Text.depthFrom d (b :: t) := ih
          rw [insertTimes_cons_cons]
          split
          · rw [Text.depthFrom_cons, Text.depthFrom_cons]
            simp only [hrest]
          · rw [Text.depthFrom_cons, Text.depthFrom_cons]
            simp only [ih]

/-- A glyph is no parenthesis, and neither is its symbol. -/
theorem deepen_plainChar (d : Nat) (c : Char) :
    Text.deepen d (plainChar c) = Text.deepen d c := by
  unfold plainChar
  split <;> rfl

theorem depthFrom_map_plainChar (t : Text) :
    ∀ d, Text.depthFrom d (t.map plainChar) = Text.depthFrom d t := by
  induction t with
  | nil =>
      intro d
      rfl
  | cons c t ih =>
      intro d
      rw [List.map_cons, Text.depthFrom_cons, Text.depthFrom_cons,
        deepen_plainChar]
      simp only [ih]

/-- An operand that opens and closes nothing may stand for the answer's
    name. -/
theorem depthFrom_replaceAnswer {operand : Text}
    (h : ∀ d, Text.depthFrom d operand = some d) (t : Text) :
    ∀ d, Text.depthFrom d (replaceAnswer operand t) = Text.depthFrom d t := by
  fun_induction replaceAnswer operand t with
  | case1 t ih =>
      intro d
      rw [Text.depthFrom_append, h]
      exact ih d
  | case2 c t _ ih =>
      intro d
      rw [Text.depthFrom_cons, Text.depthFrom_cons]
      simp only [ih]
  | case3 =>
      intro d
      rfl

theorem depthFrom_of_isNumeric {t : Text} (d : Nat)
    (h : ∀ c ∈ t, Token.isNumeric c = true) : Text.depthFrom d t = some d := by
  refine Text.depthFrom_of_forall d ?_
  intro c hc
  have hnumeric := h c hc
  constructor <;> rintro rfl <;> cases hnumeric

/-- The answer written out opens and closes nothing, or one parenthesis around
    itself; a value that is no finite number is a word. -/
theorem depthFrom_answerOperand (answer : Float) (d : Nat) :
    Text.depthFrom d (answerOperand answer) = some d := by
  by_cases hfinite : answer.isFinite = true
  · obtain ⟨m, n, hm, -, hcase⟩ := answer_cases hfinite
    have hnumber := fun d => depthFrom_of_isNumeric d hm.numeric
    rcases hcase with ⟨hplain, -⟩ | ⟨hminus, -⟩
    · rw [hplain, hnumber]
    · rw [hminus]
      show Text.depthFrom (d + 1) (m ++ [')']) = _
      rw [Text.depthFrom_append, hnumber]
      rfl
  · rw [answerOperand_of_not_isFinite hfinite]
    rfl

/-- **PLAIN TEXT KEEPS THE COUNT**: any text has the same depth when it is made
    plain, for any answer. -/
theorem depthFrom_ofKeypad (d : Nat) (answer : Float) (t : Text) :
    Text.depthFrom d (ofKeypad answer t) = Text.depthFrom d t := by
  rw [ofKeypad, depthFrom_insertTimes, depthFrom_insertTimes,
    depthFrom_insertTimes, resolve, depthFrom_map_plainChar,
    depthFrom_replaceAnswer (depthFrom_answerOperand answer)]

end Plain

/-! ## Matching -/

/-- A walk over one lexeme counts its parenthesis. -/
theorem Position.opened_of_step {p p' : Position} {l : Lexeme}
    (h : p.step l = some p') :
    (l = .opening ∧ p'.opened = p.opened + 1)
      ∨ (l = .closing ∧ p.opened = p'.opened + 1)
      ∨ l ≠ .opening ∧ l ≠ .closing ∧ p'.opened = p.opened := by
  obtain ⟨slot, n⟩ := p
  cases l with
  | number x =>
      cases slot with
      | operand =>
          obtain rfl := Option.some.inj h
          simp
      | operator => cases h
  | operator o =>
      cases slot with
      | operand =>
          cases o with
          | add | subtract =>
              obtain rfl := Option.some.inj h
              simp
          | multiply | divide | remainder => cases h
      | operator =>
          obtain rfl := Option.some.inj h
          simp
  | opening =>
      cases slot with
      | operand =>
          obtain rfl := Option.some.inj h
          simp
      | operator => cases h
  | closing =>
      cases slot with
      | operand => cases h
      | operator =>
          cases n with
          | zero => cases h
          | succ n =>
              obtain rfl := Option.some.inj h
              simp

namespace Yard.State

/-- A number leaves the parentheses on the stack as they are. -/
theorem opened_of_next_number {s s' : State} {u : Text}
    (h : s.next ⟨.number, u⟩ = .ok s') : s'.yard.opened = s.yard.opened := by
  obtain ⟨l, hl, hstep⟩ := next_walks h
  rcases Position.opened_of_step hstep with
    ⟨rfl, -⟩ | ⟨rfl, -⟩ | ⟨-, -, hsame⟩
  · cases hl
  · cases hl
  · exact hsame

/-- The yard counts the parentheses that it takes. -/
theorem deepen_of_next {s s' : State} {c : Char} {tok : Token}
    (hc : Token.single? c = some tok) (h : s.next tok = .ok s') :
    Text.deepen s.yard.opened c = some s'.yard.opened := by
  obtain ⟨l, hl, hstep⟩ := next_walks h
  have hopened := Position.opened_of_step hstep
  rcases Token.single?_cases hc with ⟨o, rfl, rfl⟩ | ⟨rfl, rfl⟩ | ⟨rfl, rfl⟩
  · have hnone : o.symbol ≠ '(' ∧ o.symbol ≠ ')' := by cases o <;> decide
    rw [Text.deepen_of_ne _ hnone.1 hnone.2]
    rw [hl.unique (.operator o)] at hopened
    rcases hopened with ⟨⟨⟩, -⟩ | ⟨⟨⟩, -⟩ | ⟨-, -, hsame⟩
    exact congrArg some hsame.symm
  · rw [hl.unique .opening] at hopened
    rcases hopened with ⟨-, hmore⟩ | ⟨⟨⟩, -⟩ | ⟨hne, -, -⟩
    · exact congrArg some hmore.symm
    · exact absurd rfl hne
  · rw [hl.unique .closing] at hopened
    rcases hopened with ⟨⟨⟩, -⟩ | ⟨-, hless⟩ | ⟨-, hne, -⟩
    · have hless' : s.yard.opened = s'.yard.opened + 1 := hless
      rw [hless']
      rfl
    · exact absurd rfl hne

end Yard.State

namespace Reader

/-- The number of parentheses that are open where the reader stands. -/
def opened (r : Reader) : Nat := r.state.yard.opened

/-- The end of a number closes no parenthesis. -/
theorem opened_of_settle {r : Reader} {s : Yard.State}
    (h : r.settle = .ok s) : s.yard.opened = r.opened := by
  rw [settle] at h
  split at h
  · rw [← Except.ok.inj h]
    rfl
  · exact Yard.State.opened_of_next_number h

/-- The reader counts the parentheses that it takes. -/
theorem deepen_of_take {r r' : Reader} {c : Char} (h : r.take c = .ok r') :
    Text.deepen r.opened c = some r'.opened := by
  rcases r.take_cases c with ⟨hnumeric, htake⟩ | ⟨f, -, htake⟩
    | ⟨s, hsettle, ⟨hblank, htake⟩ | ⟨tok, hc, htake⟩ | htake⟩
  · rw [htake] at h
    rw [← Except.ok.inj h]
    refine Text.deepen_of_ne _ ?_ ?_ <;> rintro rfl <;> cases hnumeric
  · rw [htake] at h
    cases h
  · rw [htake] at h
    rw [← Except.ok.inj h, ← opened_of_settle hsettle]
    refine Text.deepen_of_ne _ ?_ ?_ <;> rintro rfl <;> cases hblank
  · rw [htake] at h
    cases hnext : s.next tok with
    | error f =>
        rw [hnext] at h
        cases h
    | ok s' =>
        rw [hnext] at h
        rw [← Except.ok.inj h, ← opened_of_settle hsettle]
        exact Yard.State.deepen_of_next hc hnext
  · rw [htake] at h
    cases h

/-- **THE COUNT IS ON THE STACK**: the depth of what has been read is the number
    of parentheses that wait for their partner. -/
theorem depthFrom_of_read {t : Text} :
    ∀ {r r' : Reader}, r.read t = .ok r' →
      Text.depthFrom r.opened t = some r'.opened := by
  induction t with
  | nil =>
      intro r r' h
      rw [← Except.ok.inj h]
      rfl
  | cons c t ih =>
      intro r r' h
      rw [read_cons] at h
      cases htake : r.take c with
      | error f =>
          rw [htake] at h
          cases h
      | ok r₁ =>
          rw [htake] at h
          rw [Text.depthFrom_cons, deepen_of_take htake]
          exact ih h

/-- A number is never taken for a parenthesis. -/
theorem settle_ne_unopened (r : Reader) : r.settle ≠ .error .unopened := by
  intro h
  cases Yard.State.refusal_of_next (next_of_settle_error h)

/-- A closing parenthesis is refused where none is open. -/
theorem deepen_of_take_unopened {r : Reader} {c : Char}
    (h : r.take c = .error .unopened) : Text.deepen r.opened c = none := by
  rcases fault_of_take h with hsettle | ⟨s, tok, hsettle, hc, hnext⟩ | hunknown
  · exact absurd hsettle r.settle_ne_unopened
  · cases Yard.State.refusal_of_next hnext with
    | unopened hzero =>
        rw [← opened_of_settle hsettle, hzero]
        rcases Token.single?_cases hc with ⟨o, -, ⟨⟩⟩ | ⟨-, ⟨⟩⟩ | ⟨rfl, -⟩
        rfl
  · cases hunknown

/-- A text in which a closing parenthesis is refused has no depth. -/
theorem depthFrom_of_read_unopened {t : Text} :
    ∀ {r : Reader}, r.read t = .error .unopened →
      Text.depthFrom r.opened t = none := by
  induction t with
  | nil =>
      intro r h
      cases h
  | cons c t ih =>
      intro r h
      rw [read_cons] at h
      rw [Text.depthFrom_cons]
      cases htake : r.take c with
      | error f =>
          rw [htake] at h
          rw [Except.error.inj h] at htake
          rw [deepen_of_take_unopened htake]
          rfl
      | ok r₁ =>
          rw [htake] at h
          rw [deepen_of_take htake]
          exact ih h

end Reader

/-! ## Programs and values -/

namespace Program

/-- The reader gets through a text without a fault at a token, and what it
    ends with decides. -/
theorem exists_finish {t : Text} {o : Except Fault Program}
    (h : ofText t = o) (hread : ∀ f, o = .error f → f.endsEarly = true) :
    ∃ s : Yard.State, Text.depth t = some s.yard.opened ∧ s.finish = o := by
  rw [Reader.ofText_eq_read] at h
  cases hr : Reader.start.read t with
  | error f =>
      rw [hr] at h
      have hearly := hread f h.symm
      rw [Reader.endsEarly_of_read hr] at hearly
      cases hearly
  | ok r =>
      rw [hr] at h
      have hfinish : r.settle.bind Yard.State.finish = o := h
      cases hsettle : r.settle with
      | error f =>
          rw [hsettle] at hfinish
          have hearly := hread f hfinish.symm
          rw [Reader.endsEarly_of_settle hsettle] at hearly
          cases hearly
      | ok s =>
          rw [hsettle] at hfinish
          refine ⟨s, ?_, hfinish⟩
          rw [Reader.opened_of_settle hsettle]
          exact Reader.depthFrom_of_read hr

/-- The parentheses of a text that has a program pair up. -/
theorem depth_of_ok {t : Text} {p : Program} (h : ofText t = .ok p) :
    Text.depth t = some 0 := by
  obtain ⟨s, hdepth, hfinish⟩ := exists_finish h nofun
  have hgoal := Yard.State.position_of_finish hfinish
  have hzero : s.yard.opened = 0 := congrArg Position.opened hgoal
  rw [hdepth, hzero]

/-- A text with a closing parenthesis that nothing opened has no depth. -/
theorem depth_of_unopened {t : Text} (h : ofText t = .error .unopened) :
    Text.depth t = none := by
  rw [Reader.ofText_eq_read] at h
  cases hr : Reader.start.read t with
  | error f =>
      rw [hr] at h
      rw [Except.error.inj h] at hr
      exact Reader.depthFrom_of_read_unopened hr
  | ok r =>
      rw [hr] at h
      have hfinish : r.settle.bind Yard.State.finish = .error .unopened := h
      cases hsettle : r.settle with
      | error f =>
          rw [hsettle] at hfinish
          rw [Except.error.inj hfinish] at hsettle
          exact absurd hsettle r.settle_ne_unopened
      | ok s =>
          rw [hsettle] at hfinish
          have hearly := Yard.State.endsEarly_of_finish hfinish
          cases hearly

/-- A text with an opening parenthesis that nothing closed has a depth above
    zero. -/
theorem depth_of_unclosed {t : Text} (h : ofText t = .error .unclosed) :
    ∃ d, 0 < d ∧ Text.depth t = some d := by
  obtain ⟨⟨slot, y⟩, hdepth, hfinish⟩ := exists_finish h (by
    intro f hf
    rw [← Except.error.inj hf]
    rfl)
  refine ⟨y.opened, ?_, hdepth⟩
  cases slot with
  | operand => cases hfinish
  | operator =>
      have hfinish' : y.finish = .error .unclosed := hfinish
      refine Nat.pos_of_ne_zero fun hzero => ?_
      rw [Yard.finish_of_opened_zero hzero] at hfinish'
      cases hfinish'

/-- Running a program finds no fault about parentheses. -/
theorem fault_of_evaluate {p : Program} {f : Fault}
    (h : p.evaluate = .error f) : f = .notFinite ∨ f = .unfinished := by
  rw [evaluate] at h
  split at h
  · split at h
    · cases h
    · exact Or.inl (Except.error.inj h).symm
  · exact Or.inr (Except.error.inj h).symm

end Program

/-- A fault of a value about a parenthesis without its partner. -/
def Fault.isUnpaired : Fault → Bool
  | .unopened | .unclosed => true
  | _ => false

/-- **PAIRED PARENTHESES ARE NO FAULT**: a plain text whose parentheses pair up
    is not evaluated to a fault about them. -/
theorem isUnpaired_of_evaluatePlain {t : Text} {f : Fault}
    (hdepth : Text.depth t = some 0) (h : evaluatePlain t = .error f) :
    f.isUnpaired = false := by
  rw [evaluatePlain] at h
  cases hprogram : Program.ofText t with
  | ok p =>
      rw [hprogram] at h
      rcases Program.fault_of_evaluate h with rfl | rfl <;> rfl
  | error f' =>
      rw [hprogram] at h
      obtain rfl := Except.error.inj h
      cases f' with
      | unopened =>
          rw [Program.depth_of_unopened hprogram] at hdepth
          cases hdepth
      | unclosed =>
          obtain ⟨d, hpos, hd⟩ := Program.depth_of_unclosed hprogram
          rw [hdepth] at hd
          rw [← Option.some.inj hd] at hpos
          cases hpos
      | _ => rfl

/-- A keypad text that passes the check before a commit has its parentheses
    paired up. -/
theorem isUnpaired_of_evaluateComplete {answer : Float} {t : Text} {f : Fault}
    (h : evaluateComplete answer t = .error f) : f.isUnpaired = false := by
  rw [evaluateComplete] at h
  cases hcheck : malformation? t with
  | some why =>
      rw [hcheck] at h
      rw [← Except.error.inj h]
      rfl
  | none =>
      rw [hcheck] at h
      obtain ⟨-, -, -, hbalanced⟩ := malformation?_eq_none.mp hcheck
      refine isUnpaired_of_evaluatePlain ?_ h
      rw [Text.depth, Plain.depthFrom_ofKeypad]
      exact eq_of_beq hbalanced

/-- **PARENTHESES AGREE**: plain text has the depth of the keypad text it was
    made of; a text with a program has depth zero, one with a closing
    parenthesis too many has none and one with an opening parenthesis too many
    a positive one; and therefore neither a commit nor one of the two
    evaluations for a preview, of the plain text of a balanced text and of the
    same without its dangling tail, ends with a fault about parentheses. -/
theorem parentheses_agree :
    (∀ answer t, Text.depth (Plain.ofKeypad answer t) = Text.depth t)
    ∧ (∀ t p, Program.ofText t = .ok p → Text.depth t = some 0)
    ∧ (∀ t, Program.ofText t = .error .unopened → Text.depth t = none)
    ∧ (∀ t, Program.ofText t = .error .unclosed →
        ∃ d, 0 < d ∧ Text.depth t = some d)
    ∧ (∀ answer t f, evaluateComplete answer t = .error f →
        f ≠ .unopened ∧ f ≠ .unclosed)
    ∧ ∀ answer t, Text.isBalanced (Text.trim t) = true → ∀ u f,
        (u = Plain.ofKeypad answer (Text.trim t)
          ∨ u = Text.trimEnd Preview.isDangling
            (Plain.ofKeypad answer (Text.trim t))) →
        evaluatePlain u = .error f → f ≠ .unopened ∧ f ≠ .unclosed := by
  have hne : ∀ {f : Fault}, f.isUnpaired = false →
      f ≠ .unopened ∧ f ≠ .unclosed := by
    intro f hf
    constructor <;> rintro rfl <;> cases hf
  refine ⟨?_, ?_, ?_, ?_, ?_, ?_⟩
  · intro answer t
    exact Plain.depthFrom_ofKeypad 0 answer t
  · intro t p
    exact Program.depth_of_ok
  · intro t
    exact Program.depth_of_unopened
  · intro t
    exact Program.depth_of_unclosed
  · intro answer t f h
    exact hne (isUnpaired_of_evaluateComplete h)
  · intro answer t hbalanced u f hu h
    have hdepth : Text.depth (Plain.ofKeypad answer (Text.trim t)) = some 0 := by
      rw [Text.depth, Plain.depthFrom_ofKeypad]
      exact eq_of_beq hbalanced
    refine hne (isUnpaired_of_evaluatePlain ?_ h)
    rcases hu with rfl | rfl
    · exact hdepth
    · exact Text.depthFrom_trimEnd rfl hdepth

/-- One parenthesis too many at the end, one at the start, and a preview that
    fails for another reason. -/
theorem parentheses_agree_three :
    (Program.ofText "1)".toList = .error .unopened
      ∧ Text.depth "1)".toList = none)
    ∧ (Program.ofText "(1".toList = .error .unclosed
      ∧ ∃ d, 0 < d ∧ Text.depth "(1".toList = some d)
    ∧ Text.isBalanced (Text.trim "(1÷0)".toList) = true
    ∧ evaluatePlain (Plain.ofKeypad 0.0 (Text.trim "(1÷0)".toList))
      = .error .notFinite
    ∧ Fault.notFinite ≠ .unopened := by
  obtain ⟨-, -, hunopened, hunclosed, -, hpreview⟩ := parentheses_agree
  have hopen : Program.ofText "1)".toList = .error .unopened := by rfl
  have hclose : Program.ofText "(1".toList = .error .unclosed := by rfl
  have hbalanced : Text.isBalanced (Text.trim "(1÷0)".toList) = true := by rfl
  have hfault : evaluatePlain (Plain.ofKeypad 0.0
      (Text.trim "(1÷0)".toList)) = .error .notFinite := by
    decide +kernel
  exact ⟨⟨hopen, hunopened _ hopen⟩, ⟨hclose, hunclosed _ hclose⟩, hbalanced,
    hfault, (hpreview _ _ hbalanced _ _ (Or.inl rfl) hfault).1⟩

end Keypad
