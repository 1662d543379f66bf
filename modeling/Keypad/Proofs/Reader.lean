import Keypad.Proofs.Scanning

/-! # The reader — a text read from its front

    A text is scanned from its end and its tokens are then taken from the
    front, which says little about a text that is still being typed.  The
    reader does both at once and from the front: it takes one character
    after the other, keeps the digits and points of the number that it is in,
    and hands that number to the yard when the number ends.

    `ofText_eq_read` says that the reader makes the same program, or finds
    the same fault.  So what may follow a text depends on the reader that the
    text leads to and on nothing else (`read_append`), and mostly on two
    things about it: the slot, and the number of parentheses that are
    open. -/

namespace Keypad

/-! ## Scans read by the yard -/

namespace Yard

/-- Takes the tokens of a scan and ends with its fault or with the
    program. -/
def State.outcome (s : State) (scan : Scan) : Except Fault Program :=
  (s.read scan.tokens).bind fun s' =>
    match scan.fault with
    | some f => .error f
    | none => s'.finish

theorem State.outcome_append (s : State) (a b : List Token)
    (fault : Option Fault) :
    s.outcome ⟨a ++ b, fault⟩
      = (s.read a).bind fun s' => s'.outcome ⟨b, fault⟩ := by
  rw [outcome, read_append]
  cases s.read a with
  | error f => rfl
  | ok s' => rfl

theorem ofText_eq_outcome (t : Text) :
    Program.ofText t = State.start.outcome (Token.scan t) := by
  rw [Program.ofText, State.outcome]
  cases State.start.read (Token.scan t).tokens with
  | error f => rfl
  | ok s => cases (Token.scan t).fault <;> rfl

end Yard

/-! ## The reader -/

/-- A text read up to some place. -/
structure Reader where
  /-- The yard before the number that is being read. -/
  state : Yard.State
  /-- What is read of that number. -/
  run : Text

namespace Reader

/-- Nothing is read. -/
def start : Reader := ⟨.start, []⟩

/-- The number that is being read ends here. -/
def settle (r : Reader) : Except Fault Yard.State :=
  if r.run = [] then .ok r.state else r.state.next ⟨.number, r.run⟩

/-- Takes a character. -/
def take (r : Reader) (c : Char) : Except Fault Reader :=
  if Text.isBlank c then r.settle.map fun s => ⟨s, []⟩
  else if Token.isNumeric c then .ok { r with run := r.run ++ [c] }
  else r.settle.bind fun s =>
    match Token.single? c with
    | some tok => (s.next tok).map fun s' => ⟨s', []⟩
    | none => .error (.unknown [c])

/-- Takes characters one after the other. -/
def read (r : Reader) (t : Text) : Except Fault Reader := t.foldlM take r

/-- The program at the end of the text. -/
def finish (r : Reader) : Except Fault Program :=
  r.settle.bind Yard.State.finish

theorem read_cons (r : Reader) (c : Char) (t : Text) :
    r.read (c :: t) = (r.take c).bind fun r' => r'.read t := rfl

theorem read_append (r : Reader) (u v : Text) :
    r.read (u ++ v) = (r.read u).bind fun r' => r'.read v := by
  show List.foldlM take r (u ++ v) = _
  rw [List.foldlM_append]
  rfl

theorem take_numeric (r : Reader) {c : Char} (h : Token.isNumeric c = true) :
    r.take c = .ok ⟨r.state, r.run ++ [c]⟩ := by
  rw [take, if_neg (Bool.eq_false_iff.mp (Token.isBlank_of_isNumeric h)),
    if_pos h]

theorem take_single (r : Reader) {c : Char} {tok : Token}
    (hblank : Text.isBlank c = false) (hnumeric : Token.isNumeric c = false)
    (h : Token.single? c = some tok) :
    r.take c
      = r.settle.bind fun s => (s.next tok).map fun s' => ⟨s', []⟩ := by
  rw [take, if_neg (Bool.eq_false_iff.mp hblank),
    if_neg (Bool.eq_false_iff.mp hnumeric), h]

theorem take_unknown (r : Reader) {c : Char} (hblank : Text.isBlank c = false)
    (hnumeric : Token.isNumeric c = false) (h : Token.single? c = none) :
    r.take c = r.settle.bind fun _ => .error (.unknown [c]) := by
  rw [take, if_neg (Bool.eq_false_iff.mp hblank),
    if_neg (Bool.eq_false_iff.mp hnumeric), h]

/-- Reading stops at the first fault. -/
theorem finish_of_error {r : Reader} {c : Char} {t : Text} {f : Fault}
    (h : r.take c = .error f) : (r.read (c :: t)).bind finish = .error f := by
  rw [read_cons, h]
  rfl

/-- A number that does not end well ends with a fault. -/
theorem take_of_settle_error {r : Reader} {c : Char} {f : Fault}
    (h : r.settle = .error f) (hc : Token.isNumeric c = false) :
    r.take c = .error f := by
  rw [take, h, hc]
  cases Text.isBlank c <;> rfl

/-- **ONE CHARACTER**: it goes on with the number that is being read; or that
    number ends, well or not, and the character is a blank, a token or
    neither. -/
theorem take_cases (r : Reader) (c : Char) :
    (Token.isNumeric c = true ∧ r.take c = .ok ⟨r.state, r.run ++ [c]⟩)
      ∨ (∃ f, r.settle = .error f ∧ r.take c = .error f)
      ∨ ∃ s, r.settle = .ok s
        ∧ (Text.isBlank c = true ∧ r.take c = .ok ⟨s, []⟩
          ∨ (∃ tok, Token.single? c = some tok
            ∧ r.take c = (s.next tok).map fun s' => ⟨s', []⟩)
          ∨ r.take c = .error (.unknown [c])) := by
  cases hnumeric : Token.isNumeric c with
  | true => exact Or.inl ⟨rfl, r.take_numeric hnumeric⟩
  | false =>
      right
      cases hsettle : r.settle with
      | error f => exact Or.inl ⟨f, rfl, take_of_settle_error hsettle hnumeric⟩
      | ok s =>
          refine Or.inr ⟨s, rfl, ?_⟩
          cases hblank : Text.isBlank c with
          | true =>
              left
              rw [take, if_pos hblank, hsettle]
              exact ⟨rfl, rfl⟩
          | false =>
              right
              cases hsingle : Token.single? c with
              | some tok =>
                  left
                  rw [r.take_single hblank hnumeric hsingle, hsettle]
                  exact ⟨tok, rfl, rfl⟩
              | none =>
                  right
                  rw [r.take_unknown hblank hnumeric hsingle, hsettle]
                  rfl

/-- The digits and points of a number are kept. -/
theorem read_numeric (r : Reader) {t : Text}
    (h : ∀ c ∈ t, Token.isNumeric c = true) :
    r.read t = .ok ⟨r.state, r.run ++ t⟩ := by
  induction t generalizing r with
  | nil => rw [List.append_nil]; rfl
  | cons c t ih =>
      rw [read_cons, r.take_numeric (h c (List.mem_cons_self ..))]
      show read ⟨r.state, r.run ++ [c]⟩ t = _
      rw [ih _ fun c hc => h c (List.mem_cons_of_mem _ hc), List.append_assoc]
      rfl

/-- A number that ends is one token. -/
theorem settle_eq_read {r : Reader}
    (h : ∀ c ∈ r.run, Token.isNumeric c = true) :
    r.settle = r.state.read (Token.scan r.run).tokens := by
  rw [settle]
  by_cases hrun : r.run = []
  · rw [if_pos hrun, hrun]
    rfl
  · rw [if_neg hrun, Token.scan_of_numeric hrun h]
    show _ = (r.state.next ⟨.number, r.run⟩).bind fun s => .ok s
    cases r.state.next ⟨.number, r.run⟩ <;> rfl

theorem fault_scan_of_numeric {t : Text}
    (h : ∀ c ∈ t, Token.isNumeric c = true) : (Token.scan t).fault = none := by
  by_cases ht : t = []
  · rw [ht]
    rfl
  · rw [Token.scan_of_numeric ht h]

/-- Where a number ends in front of `t`, the yard takes it and then `t`. -/
theorem outcome_of_apart {r : Reader}
    (h : ∀ c ∈ r.run, Token.isNumeric c = true) {t : Text}
    (hapart : Token.Apart r.run t) :
    r.state.outcome (Token.scan (r.run ++ t))
      = r.settle.bind fun s => s.outcome (Token.scan t) := by
  rw [Token.scan_append (fault_scan_of_numeric h) hapart,
    Yard.State.outcome_append, ← settle_eq_read h]

/-- Reading on from a reader is scanning what it has of a number together
    with the rest. -/
theorem read_eq_outcome (r : Reader)
    (h : ∀ c ∈ r.run, Token.isNumeric c = true) (t : Text) :
    (r.read t).bind finish = r.state.outcome (Token.scan (r.run ++ t)) := by
  -- on the text, for every reader: a digit goes over into the reader's number
  induction t generalizing r with
  | nil =>
      have hapart : Token.Apart r.run [] := by
        intro a _ b hb
        cases hb
      rw [outcome_of_apart h hapart]
      rfl
  | cons c t ih =>
      have hempty : ∀ c ∈ ([] : Text), Token.isNumeric c = true := nofun
      rw [read_cons]
      cases hnumeric : Token.isNumeric c with
      | true =>
          rw [r.take_numeric hnumeric]
          show (read ⟨r.state, r.run ++ [c]⟩ t).bind finish = _
          rw [ih ⟨r.state, r.run ++ [c]⟩, List.append_assoc]
          · rfl
          · intro d hd
            rcases List.mem_append.mp hd with hrun | hc
            · exact h d hrun
            · rw [List.mem_singleton.mp hc]
              exact hnumeric
      | false =>
        rw [outcome_of_apart h (Token.apart_cons _ _ hnumeric)]
        cases hblank : Text.isBlank c with
        | true =>
            rw [take, if_pos hblank, Token.scan_blank t hblank]
            cases r.settle with
            | error f => rfl
            | ok s => exact ih ⟨s, []⟩ hempty
        | false =>
          cases hsingle : Token.single? c with
          | some tok =>
              rw [r.take_single hblank hnumeric hsingle,
                Token.scan_single t hblank hnumeric hsingle]
              cases r.settle with
              | error f => rfl
              | ok s =>
                  show Except.bind (Except.bind ((s.next tok).map _) _) _
                    = Except.bind (Except.bind (s.next tok) _) _
                  cases hnext : s.next tok with
                  | error f => rfl
                  | ok s' => exact ih ⟨s', []⟩ hempty
          | none =>
              rw [r.take_unknown hblank hnumeric hsingle,
                Token.scan_unknown t hblank hnumeric hsingle]
              cases r.settle <;> rfl

/-- **THE READER AGREES WITH THE SCANNER AND THE YARD**: the program of a
    text, or its first fault, is found by reading from the front. -/
theorem ofText_eq_read (t : Text) :
    Program.ofText t = (start.read t).bind finish := by
  rw [read_eq_outcome start nofun, Yard.ofText_eq_outcome]
  rfl

end Reader

/-! ## The slot and the parentheses

    Of a yard that reads on without a fault, only the slot and the number of
    open parentheses matter for what it takes next. -/

namespace Yard

/-- The number of parentheses that wait for their partner. -/
def opened (y : Yard) : Nat := y.stack.countP Entry.isParenthesis

/-- What is dropped is not counted. -/
private theorem countP_dropWhile {p q : Entry → Bool}
    (h : ∀ e, p e = true → q e = false) (stack : List Entry) :
    (stack.dropWhile p).countP q = stack.countP q := by
  induction stack with
  | nil => rfl
  | cons e stack ih =>
      rw [List.dropWhile_cons]
      by_cases he : p e = true
      · rw [if_pos he, ih,
          List.countP_cons_of_neg (Bool.eq_false_iff.mp (h e he))]
      · rw [if_neg he]

/-- No parenthesis gets out of an operator's way. -/
theorem opened_release (o : Operator) (y : Yard) :
    (y.release fun e => o.rank ≤ e.rank).opened = y.opened := by
  refine countP_dropWhile ?_ _
  intro e he
  cases e with
  | parenthesis => cases o <;> cases he
  | sign s => rfl
  | operator o => rfl

/-- Going back for a closing parenthesis stops at an opening one only. -/
theorem eq_parenthesis_of_release {y : Yard} {e : Entry} {below : List Entry}
    (h : (y.release (!·.isParenthesis)).stack = e :: below) :
    e = .parenthesis := by
  have hstop := List.head?_dropWhile_not (!·.isParenthesis) y.stack
  have hdrop : y.stack.dropWhile (!·.isParenthesis) = e :: below := h
  rw [hdrop] at hstop
  cases e with
  | parenthesis => rfl
  | sign _ | operator _ => cases hstop

/-- With a parenthesis open a closing one has its partner. -/
theorem close_of_opened {y : Yard} {n : Nat} (h : y.opened = n + 1) :
    ∃ y', y.close = (.ok .operator, y') ∧ y'.opened = n := by
  have hcount : (y.release (!·.isParenthesis)).opened = n + 1 := by
    rw [← h]
    refine countP_dropWhile ?_ _
    intro e he
    cases e with
    | parenthesis => cases he
    | sign s => rfl
    | operator o => rfl
  cases hstack : (y.release (!·.isParenthesis)).stack with
  | nil =>
      rw [opened, hstack] at hcount
      cases hcount
  | cons e below =>
      obtain rfl := eq_parenthesis_of_release hstack
      refine ⟨{ y.release (!·.isParenthesis) with stack := below }, ?_, ?_⟩
      · simp only [close, hstack]
      · rw [opened, hstack, List.countP_cons_of_pos rfl] at hcount
        exact Nat.succ.inj hcount

/-- Without an open parenthesis a closing one is refused, and nothing waits
    any more. -/
theorem close_of_opened_zero {y : Yard} (h : y.opened = 0) :
    ∃ y', y.close = (.error .unopened, y') ∧ y'.opened = 0 := by
  have hnone : ∀ e ∈ y.stack, (!e.isParenthesis) = true := by
    intro e he
    have hzero := List.countP_eq_zero.mp h e he
    simpa using hzero
  have hdrop : (y.release (!·.isParenthesis)).stack = [] :=
    List.dropWhile_eq_nil_iff.mpr hnone
  refine ⟨y.release (!·.isParenthesis), ?_, ?_⟩
  · simp only [close, hdrop]
  · rw [opened, hdrop]
    rfl

/-- With nothing open a yard finishes, and all that waits is settled. -/
theorem finish_of_opened_zero {y : Yard} (h : y.opened = 0) :
    y.finish = .ok (y.output ++ y.stack.filterMap Entry.node?) := by
  have hnone : y.stack.any Entry.isParenthesis = false := by
    rw [List.any_eq_false]
    exact List.countP_eq_zero.mp h
  rw [finish, hnone]
  rfl

theorem finish_of_opened {y : Yard} (h : y.opened ≠ 0) :
    y.finish = .error .unclosed := by
  have hsome : y.stack.any Entry.isParenthesis = true := by
    rw [List.any_eq_true]
    exact List.countP_pos_iff.mp (Nat.pos_of_ne_zero h)
  rw [finish, hsome]
  rfl

namespace State

/-- The state is at a slot, with so many parentheses open. -/
def At (s : State) (slot : Slot) (n : Nat) : Prop :=
  s.slot = slot ∧ s.yard.opened = n

variable {s : State} {n : Nat}

theorem At.number (h : s.At .operand n) {t : Text} {x : Numeral}
    (hx : Numeral.ofText? t = some x) :
    ∃ s', s.next ⟨.number, t⟩ = .ok s' ∧ s'.At .operator n := by
  obtain ⟨slot, y⟩ := s
  obtain ⟨rfl, hopened⟩ := h
  exact ⟨_, next_number y (.number hx), rfl, hopened⟩

theorem At.sign (h : s.At .operand n) :
    ∃ s', s.next ⟨.operator, ['-']⟩ = .ok s' ∧ s'.At .operand n := by
  obtain ⟨slot, y⟩ := s
  obtain ⟨rfl, hopened⟩ := h
  exact ⟨_, next_sign (s := .negative) y (.operator .subtract), rfl, hopened⟩

theorem At.opening (h : s.At .operand n) :
    ∃ s', s.next ⟨.parenthesis, ['(']⟩ = .ok s' ∧ s'.At .operand (n + 1) := by
  obtain ⟨slot, y⟩ := s
  obtain ⟨rfl, hopened⟩ := h
  refine ⟨_, next_opening y .opening, rfl, ?_⟩
  rw [← hopened]
  exact List.countP_cons_of_pos rfl

theorem At.operator (h : s.At .operator n) (o : Operator) :
    ∃ s', s.next ⟨.operator, [o.symbol]⟩ = .ok s' ∧ s'.At .operand n := by
  obtain ⟨slot, y⟩ := s
  obtain ⟨rfl, hopened⟩ := h
  refine ⟨_, next_operator y (.operator o), rfl, ?_⟩
  exact (opened_release o y).trans hopened

theorem At.closing (h : s.At .operator (n + 1)) :
    ∃ s', s.next ⟨.parenthesis, [')']⟩ = .ok s' ∧ s'.At .operator n := by
  obtain ⟨slot, y⟩ := s
  obtain ⟨rfl, hopened⟩ := h
  obtain ⟨y', hclose, hopened'⟩ := close_of_opened hopened
  exact ⟨_, next_closing .closing hclose, rfl, hopened'⟩

/-- After an operand, with no parenthesis open, there is a program. -/
theorem At.finish (h : s.At .operator 0) : ∃ p, s.finish = .ok p := by
  obtain ⟨slot, y⟩ := s
  obtain ⟨rfl, hopened⟩ := h
  exact ⟨_, finish_of_opened_zero hopened⟩

end State

end Yard

namespace Reader

/-- The number that is being read ends well, at a slot with so many
    parentheses open. -/
def Settles (r : Reader) (slot : Slot) (n : Nat) : Prop :=
  ∃ s, r.settle = .ok s ∧ s.At slot n

theorem settles_of_at {s : Yard.State} {slot : Slot} {n : Nat}
    (h : s.At slot n) : Settles ⟨s, []⟩ slot n :=
  ⟨s, rfl, h⟩

variable {r : Reader} {n : Nat}

/-- Where a number ends well, a character that stands for itself is taken if
    the yard takes its token at that place. -/
theorem Settles.single {slot slot' : Slot} {n n' : Nat} {c : Char}
    {tok : Token} (h : r.Settles slot n) (hblank : Text.isBlank c = false)
    (hnumeric : Token.isNumeric c = false) (hc : Token.single? c = some tok)
    (hnext : ∀ s : Yard.State, s.At slot n →
      ∃ s', s.next tok = .ok s' ∧ s'.At slot' n') :
    ∃ s, r.read [c] = .ok ⟨s, []⟩ ∧ s.At slot' n' := by
  obtain ⟨s, hsettle, hs⟩ := h
  obtain ⟨s', hs', hat⟩ := hnext s hs
  refine ⟨s', ?_, hat⟩
  rw [read_cons, r.take_single hblank hnumeric hc, hsettle]
  show Except.bind ((s.next tok).map _) _ = _
  rw [hs']
  rfl

theorem Settles.operator (h : r.Settles .operator n) (o : Operator) :
    ∃ s, r.read [o.symbol] = .ok ⟨s, []⟩ ∧ s.At .operand n := by
  have hsingle : Token.single? o.symbol = some ⟨.operator, [o.symbol]⟩ := by
    cases o <;> rfl
  refine h.single ?_ ?_ hsingle fun s hs => hs.operator o
  · cases o <;> rfl
  · cases o <;> rfl

theorem Settles.sign (h : r.Settles .operand n) :
    ∃ s, r.read ['-'] = .ok ⟨s, []⟩ ∧ s.At .operand n :=
  h.single rfl rfl rfl fun _ hs => hs.sign

theorem Settles.opening (h : r.Settles .operand n) :
    ∃ s, r.read ['('] = .ok ⟨s, []⟩ ∧ s.At .operand (n + 1) :=
  h.single rfl rfl rfl fun _ hs => hs.opening

theorem Settles.closing (h : r.Settles .operator (n + 1)) :
    ∃ s, r.read [')'] = .ok ⟨s, []⟩ ∧ s.At .operator n :=
  h.single rfl rfl rfl fun _ hs => hs.closing

/-- A text that leaves nothing open has a program. -/
theorem Settles.finish (h : r.Settles .operator 0) :
    ∃ p, r.finish = .ok p := by
  obtain ⟨s, hsettle, hs⟩ := h
  obtain ⟨p, hp⟩ := hs.finish
  exact ⟨p, by rw [Reader.finish, hsettle]; exact hp⟩

end Reader

end Keypad
