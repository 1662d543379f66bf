import Keypad.Keystroke
import Keypad.Proofs.ReadingKeys
import Keypad.Proofs.SessionInvariant

/-! # Completion — which expressions can still be finished

    While keys go in and the caret moves, the guard keeps the expression well
    formed.  Without a stranded point it can be finished: type a digit where
    an operand is due, then a closing parenthesis for every open one.

    A stranded point is the other case.  An operator or a parenthesis may go
    in directly in front of a point, and then the point has lost its number:
    after a closing parenthesis it is an operand where none can stand, and
    between two keys that are no digits it is a number without digits.  No
    key that is typed behind the expression makes good for it
    (`no_program_of_stranded`), so `completable_iff` is exact. -/

namespace Keypad

open Plain (ofKeys)

/-! ## Finishing an expression -/

/-- A key strands no point at the end but one that is the last key. -/
theorem not_stranded_concat {keys : List Key} {k : Key}
    (hs : ¬ Stranded keys) (hk : k ≠ .point)
    (hpoint : keys.getLast? = some .point → k.isDigit = true) :
    ¬ Stranded (keys ++ [k]) := by
  rintro ⟨left, right, hkeys, hwhy⟩
  -- a stranded point is not the new key, so it was stranded before
  rcases List.eq_nil_or_concat right with rfl | ⟨right', k', rfl⟩
  · obtain ⟨-, hlast⟩ := List.append_inj' hkeys rfl
    exact hk (List.cons.inj hlast).1
  · rw [List.concat_eq_append, ← List.cons_append, ← List.append_assoc] at hkeys
    obtain ⟨rfl, hlast⟩ := List.append_inj' hkeys rfl
    obtain rfl := (List.cons.inj hlast).1
    refine hs ⟨left, right', rfl, ?_⟩
    rcases hwhy with hclosing | ⟨hdigit, hright⟩
    · exact Or.inl hclosing
    · refine Or.inr ⟨hdigit, ?_⟩
      cases right' with
      | nil =>
          have hk' : (!k.isDigit) = true := hright
          rw [hpoint List.getLast?_concat] at hk'
          cases hk'
      | cons c right' => exact hright

/-- Where an operand is due a digit may go in at the end. -/
theorem accepted_digit {keys : List Key} (d : Fin 10)
    (hlast : Rule.lacksOperand keys.getLast? = true) :
    Context.accepted ⟨keys, [], .digit d⟩ = true := by
  rw [Context.accepted_iff]
  intro r
  cases r with
  | start => cases keys <;> rintro ⟨⟩
  | afterOpening => exact Rule.rejectIf_ne_false.mpr (by
      cases Context.before ⟨keys, [], .digit d⟩ == some .opening <;> rfl)
  | operatorNeighbours => rintro ⟨⟩
  | closing => rintro ⟨⟩
  | answerNeighbours =>
      refine Rule.rejectIf_ne_false.mpr ?_
      show (keys.getLast? == some .answer || false) = false
      cases hkeys : keys.getLast? with
      | none => rfl
      | some a =>
          rw [hkeys] at hlast
          cases a with
          | answer => cases hlast
          | _ => rfl
  | point => rintro ⟨⟩
  | opening => rintro ⟨⟩

/-- After an operand a closing parenthesis may go in at the end, if one is
    open. -/
theorem accepted_closing {keys : List Key} {n : Nat}
    (hlast : Rule.lacksOperand keys.getLast? = false)
    (hdepth : Key.depthFrom 0 keys = some (n + 1)) :
    Context.accepted ⟨keys, [], .closing⟩ = true := by
  rw [Context.accepted_iff]
  intro r
  cases r with
  | start =>
      cases keys with
      | nil => cases hlast
      | cons k keys => rintro ⟨⟩
  | afterOpening => exact Rule.rejectIf_ne_false.mpr (by
      cases Context.before ⟨keys, [], .closing⟩ == some .opening <;> rfl)
  | operatorNeighbours => rintro ⟨⟩
  | closing =>
      refine Rule.rejectIf_ne_false.mpr ?_
      show (Rule.lacksOperand keys.getLast?
        || (Text.depth (keysText (keys ++ [Key.closing]))).isNone) = false
      rw [hlast, Text.depth, depthFrom_keysText, Key.depthFrom_append, hdepth]
      rfl
  | answerNeighbours => rintro ⟨⟩
  | point => rintro ⟨⟩
  | opening => rintro ⟨⟩

/-- A closing parenthesis leaves one fewer to be closed. -/
theorem Closable.close {n : Nat} {keys : List Key}
    (h : Closable (n + 1) keys) : Closable n (keys ++ [Key.closing]) where
  wellFormed := WellFormed.insert (by rw [List.append_nil]; exact h.wellFormed)
    (accepted_closing h.done h.depth)
  notStranded := by
    refine not_stranded_concat h.notStranded Key.noConfusion ?_
    intro hpoint
    have hdone := h.done
    rw [hpoint] at hdone
    cases hdone
  done := by
    rw [List.getLast?_concat]
    rfl
  depth := by
    rw [Key.depthFrom_append, h.depth]
    rfl

/-- As many closing parentheses as are missing finish the keys. -/
theorem Closable.exists_closings {n : Nat} :
    ∀ {keys : List Key}, Closable n keys →
      ∃ rest, Closable 0 (keys ++ rest) := by
  induction n with
  | zero =>
      intro keys h
      exact ⟨[], by rw [List.append_nil]; exact h⟩
  | succ n ih =>
      intro keys h
      obtain ⟨rest, hrest⟩ := ih h.close
      refine ⟨.closing :: rest, ?_⟩
      rw [← List.singleton_append, ← List.append_assoc]
      exact hrest

/-- Where an operand is due, a digit makes the keys closable. -/
theorem closable_digit {keys : List Key} {n : Nat} (hw : WellFormed keys)
    (hs : ¬ Stranded keys) (hlast : Rule.lacksOperand keys.getLast? = true)
    (hdepth : Key.depthFrom 0 keys = some n) (d : Fin 10) :
    Closable n (keys ++ [Key.digit d]) where
  wellFormed := WellFormed.insert (by rw [List.append_nil]; exact hw)
    (accepted_digit d hlast)
  notStranded := not_stranded_concat hs Key.noConfusion fun _ => rfl
  done := by
    rw [List.getLast?_concat]
    rfl
  depth := by
    rw [Key.depthFrom_append, hdepth]
    rfl

/-- **WITHOUT A STRANDED POINT** well-formed keys can be finished. -/
theorem exists_program {answer : Float} (hfinite : answer.isFinite = true)
    {keys : List Key} (hw : WellFormed keys) (hs : ¬ Stranded keys) :
    ∃ rest p, Program.ofText (ofKeys answer (keys ++ rest)) = .ok p := by
  obtain ⟨n, hdepth⟩ := Option.isSome_iff_exists.mp hw.closes
  cases hlast : Rule.lacksOperand keys.getLast? with
  | false =>
      obtain ⟨rest, hrest⟩ :=
        Closable.exists_closings ⟨hw, hs, hlast, hdepth⟩
      exact ⟨rest, hrest.program hfinite⟩
  | true =>
      -- a digit first
      obtain ⟨rest, hrest⟩ :=
        (closable_digit hw hs hlast hdepth 0).exists_closings
      rw [List.append_assoc] at hrest
      exact ⟨_, hrest.program hfinite⟩

/-! ## No way out -/

namespace Reader

/-- A number does not end well where an operator is due. -/
theorem settle_of_operator {r : Reader} (hslot : r.state.slot = .operator)
    (hrun : r.run ≠ []) : r.settle = .error (.unexpected r.run) := by
  obtain ⟨⟨slot, y⟩, run⟩ := r
  obtain rfl : slot = .operator := hslot
  rw [settle, if_neg hrun]
  rfl

/-- A point alone is no number. -/
theorem settle_point (s : Yard.State) :
    ∃ f, settle ⟨s, ['.']⟩ = .error f := by
  obtain ⟨slot, y⟩ := s
  cases slot with
  | operand => exact ⟨.notANumeral ['.'], rfl⟩
  | operator => exact ⟨.unexpected ['.'], rfl⟩

/-- Where an operator is due a number is a fault, however it goes on. -/
theorem stuck_of_operator :
    ∀ (t : Text) (r : Reader), r.state.slot = .operator → r.run ≠ [] →
      ∃ f, (r.read t).bind finish = .error f := by
  intro t
  induction t with
  | nil =>
      intro r hslot hrun
      refine ⟨.unexpected r.run, ?_⟩
      show r.settle.bind _ = _
      rw [settle_of_operator hslot hrun]
      rfl
  | cons c t ih =>
      intro r hslot hrun
      by_cases hc : Token.isNumeric c = true
      · rw [read_cons, r.take_numeric hc]
        exact ih ⟨r.state, r.run ++ [c]⟩ hslot
          (List.append_ne_nil_of_left_ne_nil hrun _)
      · rw [Bool.not_eq_true] at hc
        exact ⟨_, finish_of_error
          (take_of_settle_error (settle_of_operator hslot hrun) hc)⟩

/-- The last character of a text is the last that is taken. -/
theorem take_of_read_concat {r r' : Reader} {t : Text} {c : Char}
    (h : r.read (t ++ [c]) = .ok r') : ∃ r₁ : Reader, r₁.take c = .ok r' := by
  rw [read_append] at h
  cases hread : r.read t with
  | error f =>
      rw [hread] at h
      cases h
  | ok r₁ =>
      rw [hread] at h
      have h' : (r₁.take c).bind (fun r₂ => .ok r₂) = .ok r' := h
      refine ⟨r₁, ?_⟩
      rw [← h']
      cases r₁.take c <;> rfl

/-- A character that stands for itself is taken as a token. -/
theorem next_of_take {r r' : Reader} {c : Char} {tok : Token}
    (h : r.take c = .ok r') (hblank : Text.isBlank c = false)
    (hnumeric : Token.isNumeric c = false) (hc : Token.single? c = some tok) :
    ∃ s s' : Yard.State, s.next tok = .ok s' ∧ r' = ⟨s', []⟩ := by
  rw [r.take_single hblank hnumeric hc] at h
  cases hsettle : r.settle with
  | error f =>
      rw [hsettle] at h
      cases h
  | ok s =>
      rw [hsettle] at h
      have h' : (s.next tok).map (fun s' => ⟨s', []⟩) = .ok r' := h
      cases hnext : s.next tok with
      | error f =>
          rw [hnext] at h'
          cases h'
      | ok s' =>
          rw [hnext] at h'
          exact ⟨s, s', hnext, (Except.ok.inj h').symm⟩

end Reader

/-- An operator is due after a closing parenthesis. -/
theorem Yard.State.slot_of_next_closing {s s' : Yard.State}
    (h : s.next ⟨.parenthesis, [')']⟩ = .ok s') : s'.slot = .operator := by
  obtain ⟨slot, y⟩ := s
  cases slot with
  | operand => cases h
  | operator =>
      have hfeed : y.feed .operator ⟨.parenthesis, [')']⟩ = y.close := rfl
      cases hstack : (y.release (!·.isParenthesis)).stack with
      | nil =>
          simp only [next, hfeed, Yard.close, hstack] at h
          cases h
      | cons e below =>
          simp only [next, hfeed, Yard.close, hstack] at h
          rw [← Except.ok.inj h]

/-- The plain text of keys that end with a point and go on with `rest`. -/
theorem Plain.ofKeys_point (answer : Float) (left rest : List Key) :
    ofKeys answer (left ++ Key.point :: rest)
      = ofKeys answer left
        ++ '.' :: insertTimes implied (rest.flatMap (Key.plain answer)) := by
  have hleft : ∀ t, seam implied t ('.' :: rest.flatMap (Key.plain answer))
      = [] := by
    intro t
    refine seam_eq_nil ?_
    intro a _ b hb
    obtain rfl := Option.some.inj hb
    exact implied_eq_false_of_right rfl rfl a
  have hright : insertTimes implied
        ('.' :: rest.flatMap (Key.plain answer))
      = '.' :: insertTimes implied (rest.flatMap (Key.plain answer)) := by
    cases rest.flatMap (Key.plain answer) with
    | nil => rfl
    | cons c t =>
        rw [insertTimes_cons_cons, implied_eq_false_of_left rfl rfl c]
        rfl
  rw [ofKeys, List.flatMap_append, List.flatMap_cons]
  show insertTimes implied (left.flatMap (Key.plain answer)
    ++ '.' :: rest.flatMap (Key.plain answer)) = _
  rw [insertTimes_append, hleft, List.append_nil, hright]
  rfl

/-- A key next to a point that is no digit is no operand. -/
theorem WellFormed.isOperand_before_point {front w : List Key} {a : Key}
    (hw : WellFormed (front ++ [a] ++ Key.point :: w))
    (ha : a.isDigit = false) : a.isOperand = false := by
  have hmeets : a.meets .point = true := hw.meets
  cases a with
  | digit _ => cases ha
  | point => exact hw.not_point_point.elim
  | answer => cases hmeets
  | operator _ | opening | closing => rfl

theorem WellFormed.isOperand_after_point {left w : List Key} {k : Key}
    (hw : WellFormed (left ++ [Key.point] ++ k :: w))
    (hk : k.isDigit = false) : k.isOperand = false := by
  have hmeets : Key.point.meets k = true := hw.meets
  cases k with
  | digit _ => cases hk
  | point => exact hw.not_point_point.elim
  | answer => cases hmeets
  | operator _ | opening | closing => rfl

/-- After a key that is shown as one character and is no part of a number,
    the yard has taken the token of that character last. -/
theorem next_of_read_ofKeys {answer : Float} (hfinite : answer.isFinite = true)
    {front : List Key} {a : Key} {r : Reader} {c : Char} {tok : Token}
    (hread : Reader.start.read (ofKeys answer (front ++ [a])) = .ok r)
    (hplain : a.plain answer = [c]) (hblank : Text.isBlank c = false)
    (hnumeric : Token.isNumeric c = false) (hc : Token.single? c = some tok) :
    ∃ s s' : Yard.State, s.next tok = .ok s' ∧ r = ⟨s', []⟩ := by
  have hlast : (ofKeys answer (front ++ [a])).getLast? = some c := by
    rw [Plain.getLast?_ofKeys hfinite, hplain]
    rfl
  obtain ⟨t, ht⟩ := List.getLast?_eq_some_iff.mp hlast
  rw [ht] at hread
  obtain ⟨r₁, htake⟩ := Reader.take_of_read_concat hread
  exact Reader.next_of_take htake hblank hnumeric hc

/-- In front of a point that follows no digit, the reader is in no number. -/
theorem run_eq_nil_of_read_ofKeys {answer : Float}
    (hfinite : answer.isFinite = true) {left right : List Key} {r : Reader}
    (hw : WellFormed (left ++ Key.point :: right))
    (hdigit : left.getLast?.any Key.isDigit = false)
    (hread : Reader.start.read (ofKeys answer left) = .ok r) : r.run = [] := by
  rcases List.eq_nil_or_concat left with rfl | ⟨front, a, rfl⟩
  · rw [← Except.ok.inj hread]
    rfl
  · rw [List.concat_eq_append] at hw hdigit hread
    rw [List.getLast?_concat] at hdigit
    obtain ⟨c, tok, hplain, hblank, hnumeric, hc⟩ :=
      Key.single?_of_plain answer (hw.isOperand_before_point hdigit)
    obtain ⟨s, s', -, rfl⟩ :=
      next_of_read_ofKeys hfinite hread hplain hblank hnumeric hc
    rfl

/-- After a group the point is an operand where an operator is due. -/
theorem stuck_after_group {answer : Float} (hfinite : answer.isFinite = true)
    {left : List Key} {r : Reader} (hclosing : left.getLast? = some .closing)
    (hread : Reader.start.read (ofKeys answer left) = .ok r) (t : Text) :
    ∃ f, (r.read ('.' :: t)).bind Reader.finish = .error f := by
  obtain ⟨front, rfl⟩ := List.getLast?_eq_some_iff.mp hclosing
  have hsingle : Token.single? ')' = some ⟨.parenthesis, [')']⟩ := rfl
  -- the group has just been closed
  obtain ⟨s, s', hnext, rfl⟩ :=
    next_of_read_ofKeys hfinite hread rfl rfl rfl hsingle
  rw [Reader.read_cons, Reader.take_numeric _ rfl]
  exact Reader.stuck_of_operator t ⟨s', ['.']⟩
    (Yard.State.slot_of_next_closing hnext) (List.cons_ne_nil _ _)

/-- Between two keys that are no digits the point is a number without
    digits. -/
theorem stuck_without_digits {answer : Float}
    (hfinite : answer.isFinite = true) {left right : List Key} {k : Key}
    {r : Reader} (hw : WellFormed (left ++ Key.point :: k :: right))
    (hdigit : left.getLast?.any Key.isDigit = false) (hk : k.isDigit = false)
    (hread : Reader.start.read (ofKeys answer left) = .ok r)
    (rest : List Key) :
    ∃ f, (r.read ('.' :: Plain.insertTimes Plain.implied
      ((k :: right ++ rest).flatMap (Key.plain answer)))).bind Reader.finish
        = .error f := by
  have hw' : WellFormed (left ++ [Key.point] ++ k :: right) := by
    rw [List.append_assoc]
    exact hw
  obtain ⟨c, tok, hplain, -, hnumeric, -⟩ :=
    Key.single?_of_plain answer (hw'.isOperand_after_point hk)
  obtain ⟨t, ht⟩ := Plain.insertTimes_cons Plain.implied c
    ((right ++ rest).flatMap (Key.plain answer))
  obtain ⟨f, hsettle⟩ := Reader.settle_point r.state
  refine ⟨f, ?_⟩
  rw [Reader.read_cons, r.take_numeric rfl,
    run_eq_nil_of_read_ofKeys hfinite hw hdigit hread, List.cons_append,
    List.flatMap_cons, hplain]
  show ((Reader.read ⟨r.state, ['.']⟩ (Plain.insertTimes Plain.implied
    (c :: (right ++ rest).flatMap (Key.plain answer)))).bind _) = _
  rw [ht]
  exact Reader.finish_of_error (Reader.take_of_settle_error hsettle hnumeric)

/-- **A STRANDED POINT STAYS**: whatever is typed behind well-formed keys with
    a stranded point, there is no program. -/
theorem no_program_of_stranded {answer : Float}
    (hfinite : answer.isFinite = true) {keys : List Key}
    (hw : WellFormed keys) (hs : Stranded keys) (rest : List Key) :
    ∃ f, Program.ofText (ofKeys answer (keys ++ rest)) = .error f := by
  obtain ⟨left, right, rfl, hwhy⟩ := hs
  rw [List.append_assoc, List.cons_append, Plain.ofKeys_point,
    Reader.ofText_eq_read, Reader.read_append]
  cases hleft : Reader.start.read (ofKeys answer left) with
  | error f => exact ⟨f, rfl⟩
  | ok r =>
      rcases hwhy with hclosing | ⟨hdigit, hright⟩
      · exact stuck_after_group hfinite hclosing hleft _
      · cases right with
        | nil => cases hright
        | cons k right =>
            have hk : k.isDigit = false := by simpa using hright
            exact stuck_without_digits hfinite hw hdigit hk hleft rest

/-! ## Typing -/

/-- A keystroke that puts in a key or moves the caret. -/
def Keystroke.isTyping : Keystroke → Bool
  | .key _ | .command .left | .command .right => true
  | .command _ => false

namespace Session

/-- A session in which nothing has been done but typing. -/
structure Typed (s : Session) : Prop where
  editing : s.mode = .editing
  answer : s.answer = 0.0
  wellFormed : WellFormed s.expression.keys

theorem typed_new : new.Typed := ⟨rfl, rfl, WellFormed.nil⟩

/-- A key goes in where the guard accepts it and is lost elsewhere. -/
theorem Typed.press {s : Session} (h : s.Typed) (k : Key) :
    (s.press k).Typed := by
  by_cases haccepted : Context.accepted
      ⟨s.expression.left, s.expression.right, k⟩ = true
  · have hadmission : Admission.of s.mode s.expression k = .inserted := by
      rw [h.editing]
      exact if_pos haccepted
    rw [Session.press, hadmission]
    refine ⟨rfl, h.answer, ?_⟩
    show WellFormed (s.expression.insert k).keys
    rw [Expression.keys_insert]
    exact h.wellFormed.insert haccepted
  · have hadmission : Admission.of s.mode s.expression k = .rejected := by
      rw [h.editing]
      exact if_neg haccepted
    rw [Session.press, hadmission]
    exact h

/-- The caret moves and the keys stay. -/
theorem Typed.move {s s' : Session} (h : s.Typed)
    (hmove : s' = s ∨ s.mode = .editing ∧ ∃ e, e.keys = s.expression.keys
      ∧ s' = { s with expression := e }) : s'.Typed := by
  rcases hmove with rfl | ⟨-, e, hkeys, rfl⟩
  · exact h
  · refine ⟨h.editing, h.answer, ?_⟩
    show WellFormed e.keys
    rw [hkeys]
    exact h.wellFormed

theorem Typed.strike {s : Session} (h : s.Typed) {k : Keystroke}
    (hk : k.isTyping = true) : (s.strike k).Typed := by
  cases k with
  | key k => exact h.press k
  | command c =>
      cases c with
      | left => exact h.move s.moveLeft_cases
      | right => exact h.move s.moveRight_cases
      | delete | commit | clear => cases hk

theorem Typed.strikes {strokes : List Keystroke} :
    ∀ {s : Session}, s.Typed → (∀ k ∈ strokes, k.isTyping = true) →
      (s.strikes strokes).Typed := by
  induction strokes with
  | nil =>
      intro s h _
      exact h
  | cons k strokes ih =>
      intro s h hstrokes
      exact ih (h.strike (hstrokes k (List.mem_cons_self ..)))
        fun k hk => hstrokes k (List.mem_cons_of_mem _ hk)

/-- **WHAT CAN STILL BE FINISHED**: after any keys and caret moves from a new
    session, keys can be typed behind the whole expression that give a text
    with a program, exactly if no point is stranded. -/
theorem completable_iff {strokes : List Keystroke}
    (h : ∀ k ∈ strokes, k.isTyping = true) :
    (∃ rest p, Program.ofText (Plain.ofKeypad (new.strikes strokes).answer
        (keysText ((new.strikes strokes).expression.keys ++ rest))) = .ok p)
      ↔ ¬ Stranded (new.strikes strokes).expression.keys := by
  have htyped := typed_new.strikes h
  have hfinite : (new.strikes strokes).answer.isFinite = true := by
    rw [htyped.answer]
    decide +kernel
  constructor
  · rintro ⟨rest, p, hp⟩ hs
    rw [Plain.ofKeypad_keysText hfinite] at hp
    obtain ⟨f, hf⟩ :=
      no_program_of_stranded hfinite htyped.wellFormed hs rest
    rw [hf] at hp
    cases hp
  · intro hs
    obtain ⟨rest, p, hp⟩ := exists_program hfinite htyped.wellFormed hs
    refine ⟨rest, p, ?_⟩
    rw [Plain.ofKeypad_keysText hfinite]
    exact hp

/-- A plus typed in front of the point of `1.+2` strands it for good. -/
theorem not_completable_plus_before_point :
    ∃ strokes : List Keystroke, (∀ k ∈ strokes, k.isTyping = true)
      ∧ (new.strikes strokes).display = "1+.+2".toList
      ∧ ¬ ∃ rest p, Program.ofText (Plain.ofKeypad
        (new.strikes strokes).answer (keysText
          ((new.strikes strokes).expression.keys ++ rest))) = .ok p := by
  refine ⟨[.key (.digit 1), .key .point, .key (.operator .add),
    .key (.digit 2), .command .left, .command .left, .command .left,
    .key (.operator .add)], by decide, by rfl, fun hprogram => ?_⟩
  refine (completable_iff (by decide)).mp hprogram ?_
  exact ⟨[.digit 1, .operator .add], [.operator .add, .digit 2], by rfl,
    Or.inr ⟨rfl, rfl⟩⟩

end Session

end Keypad
