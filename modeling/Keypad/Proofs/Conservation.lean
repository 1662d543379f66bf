import Keypad.Proofs.Reader

/-! # Conservation — what goes into a yard comes out of it

    Toward: whatever tokens a yard is handed, in whatever slots and whether it
    takes them or not, its program has the numbers that it took, in order, and
    the signs and operators that it took, each once.

    A yard holds what is settled and what waits, and `Yard.contents` is the
    program that there would be if all that waits were settled now.  Entries
    move from the stack to the output often, also where a closing parenthesis
    is refused, and `contents` does not notice (`Yard.contents_release`).  So
    all that a token does is one of four things (`Yard.Effect`): nothing, or a
    node more, or a parenthesis more or less.  A node that comes in has no
    number behind it, which is why numbers keep their order and operators may
    lose theirs. -/

namespace Keypad

/-! ## Deliveries -/

/-- The step puts a number on the stack. -/
def Node.isNumber : Node → Bool
  | .number _ => true
  | _ => false

/-- No number waits. -/
theorem Entry.isNumber_of_node? {e : Entry} {n : Node}
    (h : e.node? = some n) : n.isNumber = false := by
  cases e with
  | parenthesis => cases h
  | sign s =>
      obtain rfl := Option.some.inj h
      rfl
  | operator o =>
      obtain rfl := Option.some.inj h
      rfl

/-- A token handed to a yard, as if it fell into the slot. -/
structure Delivery where
  slot : Slot
  token : Token
deriving DecidableEq, Repr

namespace Delivery

def isNumber (d : Delivery) : Bool := d.token.kind == .number

def isOperator (d : Delivery) : Bool := d.token.kind == .operator

def isOpening (d : Delivery) : Bool := d.token == ⟨.parenthesis, ['(']⟩

def isClosing (d : Delivery) : Bool := d.token == ⟨.parenthesis, [')']⟩

/-- The step of a program that the token stands for in this slot, if it stands
    for one. -/
def node? (d : Delivery) : Option Node :=
  match d.slot, d.token.kind with
  | .operand, .number =>
      (Numeral.ofText? d.token.content).map fun n => .number n.toFloat
  | .operand, .operator => (Sign.ofText? d.token.content).map .sign
  | .operator, .operator =>
      (Operator.ofText? d.token.content).map .operator
  | _, _ => none

/-- A number stands for a number, and an operator for an operation. -/
theorem kind_of_node? {d : Delivery} {n : Node} (h : d.node? = some n) :
    d.isNumber = n.isNumber ∧ d.isOperator = !n.isNumber
      ∧ d.isOpening = false ∧ d.isClosing = false := by
  obtain ⟨slot, kind, content⟩ := d
  cases slot with
  | operand =>
      cases kind with
      | number =>
          obtain ⟨x, -, rfl⟩ := Option.map_eq_some_iff.mp h
          exact ⟨rfl, rfl, rfl, rfl⟩
      | operator =>
          obtain ⟨s, -, rfl⟩ := Option.map_eq_some_iff.mp h
          exact ⟨rfl, rfl, rfl, rfl⟩
      | parenthesis => cases h
  | operator =>
      cases kind with
      | operator =>
          obtain ⟨o, -, rfl⟩ := Option.map_eq_some_iff.mp h
          exact ⟨rfl, rfl, rfl, rfl⟩
      | number | parenthesis => cases h

end Delivery

namespace Yard

/-- The yard after a delivery, whether it takes it or not. -/
def after (y : Yard) (d : Delivery) : Yard := (y.feed d.slot d.token).2

/-- The delivery, if the yard takes it. -/
def accepted (y : Yard) (d : Delivery) : List Delivery :=
  match (y.feed d.slot d.token).1 with
  | .ok _ => [d]
  | .error _ => []

/-- The yard after deliveries. -/
def afterAll (y : Yard) (ds : List Delivery) : Yard := ds.foldl after y

/-- The deliveries that the yard takes. -/
def acceptedAll (y : Yard) : List Delivery → List Delivery
  | [] => []
  | d :: ds => y.accepted d ++ (y.after d).acceptedAll ds

/-! ## What a yard holds -/

/-- All that is settled and all that waits, as if it were settled now. -/
def contents (y : Yard) : Program :=
  y.output ++ y.stack.filterMap Entry.node?

/-- No number is among the entries that wait. -/
theorem isNumber_of_mem_waiting {stack : List Entry} {n : Node}
    (h : n ∈ stack.filterMap Entry.node?) : n.isNumber = false := by
  obtain ⟨e, -, he⟩ := List.mem_filterMap.mp h
  exact Entry.isNumber_of_node? he

theorem contents_release (p : Entry → Bool) (y : Yard) :
    (y.release p).contents = y.contents := by
  rw [contents, release, List.append_assoc, ← List.filterMap_append,
    List.takeWhile_append_dropWhile]
  rfl

/-- A closing parenthesis settles what waits and takes nothing away but its
    partner. -/
theorem contents_close (y : Yard) : y.close.2.contents = y.contents := by
  rw [← contents_release (!·.isParenthesis) y, close]
  cases hstack : (y.release (!·.isParenthesis)).stack with
  | nil => rfl
  | cons e below =>
      obtain rfl := eq_parenthesis_of_release hstack
      rw [contents, contents, hstack]
      rfl

/-! ## What a delivery does -/

/-- What a delivery may do to a yard: the outcome, and the yard afterwards. -/
inductive Effect (y : Yard) (d : Delivery) :
    Except Fault Slot × Yard → Prop where
  /-- The yard refuses it and holds what it held. -/
  | refused {f y'} : y'.contents = y.contents → y'.opened = y.opened →
      Effect y d (.error f, y')
  /-- A node comes in, with no number behind it. -/
  | gained {slot y' n a b} : d.node? = some n →
      y.contents = a ++ b → y'.contents = a ++ n :: b →
      (∀ m ∈ b, m.isNumber = false) → y'.opened = y.opened →
      Effect y d (.ok slot, y')
  | opened {slot y'} : d.token = ⟨.parenthesis, ['(']⟩ →
      y'.contents = y.contents → y'.opened = y.opened + 1 →
      Effect y d (.ok slot, y')
  | closed {slot y'} : d.token = ⟨.parenthesis, [')']⟩ →
      y'.contents = y.contents → y.opened = y'.opened + 1 →
      Effect y d (.ok slot, y')

/-- A faulty delivery that leaves the yard as it was. -/
theorem Effect.same (y : Yard) (d : Delivery) (f : Fault) :
    Effect y d (.error f, y) := .refused rfl rfl

/-- Where an operand is due, numbers are settled at once, and signs and
    opening parentheses wait on top of the stack. -/
theorem effect_feed_operand (y : Yard) (t : Token) :
    Effect y ⟨.operand, t⟩ (y.feed .operand t) := by
  obtain ⟨kind, content⟩ := t
  cases kind with
  | number =>
      cases hn : Numeral.ofText? content with
      | none =>
          simp only [feed, hn]
          exact .same y _ _
      | some n =>
          simp only [feed, hn]
          refine .gained (a := y.output) (b := y.stack.filterMap Entry.node?)
            (n := .number n.toFloat) ?_ rfl ?_
            (fun m => isNumber_of_mem_waiting) rfl
          · simp only [Delivery.node?, hn]
            rfl
          · exact List.append_assoc _ _ _
  | operator =>
      cases hs : Sign.ofText? content with
      | none =>
          simp only [feed, hs]
          exact .same y _ _
      | some s =>
          simp only [feed, hs]
          refine .gained (a := y.output) (b := y.stack.filterMap Entry.node?)
            (n := .sign s) ?_ rfl rfl (fun m => isNumber_of_mem_waiting) rfl
          simp only [Delivery.node?, hs]
          rfl
  | parenthesis =>
      by_cases hopening : content = ['(']
      · rw [hopening]
        exact .opened rfl rfl (List.countP_cons_of_pos rfl)
      · simp only [feed, if_neg hopening]
        exact .same y _ _

/-- After an operand, an operator waits above what binds less tightly. -/
theorem effect_feed_operator (y : Yard) (t : Token) :
    Effect y ⟨.operator, t⟩ (y.feed .operator t) := by
  obtain ⟨kind, content⟩ := t
  cases kind with
  | number => exact .same y _ _
  | operator =>
      cases ho : Operator.ofText? content with
      | none =>
          simp only [feed, ho]
          exact .same y _ _
      | some o =>
          simp only [feed, ho]
          have hcontents :=
            contents_release (fun e => decide (o.rank ≤ e.rank)) y
          refine .gained (n := .operator o) ?_ hcontents.symm rfl
            (fun m => isNumber_of_mem_waiting) (opened_release o y)
          simp only [Delivery.node?, ho]
          rfl
  | parenthesis =>
      by_cases hclosing : content = [')']
      · rw [hclosing]
        show Effect y _ y.close
        have hcontents := y.contents_close
        cases hopened : y.opened with
        | zero =>
            obtain ⟨y', hclose, hopened'⟩ := close_of_opened_zero hopened
            rw [hclose] at hcontents ⊢
            exact .refused hcontents (hopened'.trans hopened.symm)
        | succ n =>
            obtain ⟨y', hclose, hopened'⟩ := close_of_opened hopened
            rw [hclose] at hcontents ⊢
            exact .closed rfl hcontents
              (hopened.trans (congrArg Nat.succ hopened'.symm))
      · simp only [feed, if_neg hclosing]
        exact .same y _ _

/-- **ONE DELIVERY**: it is refused and nothing is lost, or a node comes in, or
    a parenthesis is opened or closed. -/
theorem effect_feed (y : Yard) (d : Delivery) :
    Effect y d (y.feed d.slot d.token) := by
  obtain ⟨slot, t⟩ := d
  cases slot with
  | operand => exact effect_feed_operand y t
  | operator => exact effect_feed_operator y t

/-! ## The account of a run -/

/-- What a yard holds is what it has taken. -/
structure Accounts (y : Yard) (taken : List Delivery) : Prop where
  /-- The numbers, in order. -/
  numbers : (y.contents.filter Node.isNumber).map some
    = (taken.filter Delivery.isNumber).map Delivery.node?
  /-- The signs and operators, in some order. -/
  operators : ((y.contents.filter (!·.isNumber)).map some).Perm
    ((taken.filter Delivery.isOperator).map Delivery.node?)
  /-- An opening parenthesis waits until it is closed. -/
  parentheses : taken.countP Delivery.isOpening
    = taken.countP Delivery.isClosing + y.opened

namespace Accounts

variable {y y' : Yard} {taken : List Delivery} {d : Delivery}

theorem empty : Accounts .empty [] where
  numbers := rfl
  operators := .refl _
  parentheses := rfl

/-- A yard that holds as much as before accounts for as much. -/
theorem refuse (h : y.Accounts taken) (hcontents : y'.contents = y.contents)
    (hopened : y'.opened = y.opened) : y'.Accounts (taken ++ []) := by
  rw [List.append_nil]
  constructor
  · rw [hcontents]
    exact h.numbers
  · rw [hcontents]
    exact h.operators
  · rw [hopened]
    exact h.parentheses

/-- Of a node and the token that it stands for, both are counted or neither. -/
theorem filter_node? {n : Node} (hd : d.node? = some n) {p : Node → Bool}
    {q : Delivery → Bool} (hq : q d = p n) :
    ([n].filter p).map some = ([d].filter q).map Delivery.node? := by
  rw [List.filter_singleton, List.filter_singleton, hq]
  cases p n with
  | false => rfl
  | true => rw [cond_true, cond_true, List.map_singleton, List.map_singleton, hd]

/-- A node that comes in is accounted for by its token. -/
theorem gain (h : y.Accounts taken) {n : Node} {a b : Program}
    (hd : d.node? = some n) (hy : y.contents = a ++ b)
    (hy' : y'.contents = a ++ n :: b) (hb : ∀ m ∈ b, m.isNumber = false)
    (hopened : y'.opened = y.opened) : y'.Accounts (taken ++ [d]) := by
  obtain ⟨hnumber, hoperator, hopening, hclosing⟩ := Delivery.kind_of_node? hd
  constructor
  · -- with no number behind it, a number is the last of all
    have hnone : b.filter Node.isNumber = [] := by
      rw [List.filter_eq_nil_iff]
      intro m hm
      rw [hb m hm]
      exact Bool.false_ne_true
    have hnumbers := h.numbers
    rw [hy, List.filter_append, hnone, List.append_nil] at hnumbers
    rw [hy', ← List.singleton_append, List.filter_append, List.filter_append,
      hnone, List.append_nil, List.map_append, hnumbers,
      filter_node? hd hnumber, ← List.map_append, ← List.filter_append]
  · have hperm : (a ++ n :: b).Perm (a ++ b ++ [n]) :=
      List.perm_middle.trans (List.perm_append_singleton n (a ++ b)).symm
    have hoperators := (hperm.filter (!·.isNumber)).map some
    rw [← hy', ← hy, List.filter_append, List.map_append,
      filter_node? hd hoperator] at hoperators
    rw [List.filter_append, List.map_append]
    exact hoperators.trans (h.operators.append_right _)
  · rw [List.countP_append, List.countP_append, hopened, h.parentheses,
      List.countP_singleton, List.countP_singleton, hopening, hclosing]
    rfl

/-- A parenthesis is accounted for as one that waits or has been closed. -/
theorem parenthesis (h : y.Accounts taken) (hkind : d.token.kind = .parenthesis)
    (hcontents : y'.contents = y.contents)
    (hopened : [d].countP Delivery.isOpening + y.opened
      = [d].countP Delivery.isClosing + y'.opened) :
    y'.Accounts (taken ++ [d]) := by
  have hnumber : [d].filter Delivery.isNumber = [] := by
    rw [List.filter_singleton, Delivery.isNumber, hkind]
    rfl
  have hoperator : [d].filter Delivery.isOperator = [] := by
    rw [List.filter_singleton, Delivery.isOperator, hkind]
    rfl
  constructor
  · rw [hcontents, List.filter_append, hnumber, List.append_nil]
    exact h.numbers
  · rw [hcontents, List.filter_append, hoperator, List.append_nil]
    exact h.operators
  · rw [List.countP_append, List.countP_append, h.parentheses]
    omega

/-- A delivery is accounted for when it is taken, and nothing is lost when it
    is refused. -/
theorem step (h : y.Accounts taken) (d : Delivery) :
    (y.after d).Accounts (taken ++ y.accepted d) := by
  have heffect := effect_feed y d
  rw [after, accepted]
  generalize y.feed d.slot d.token = r at heffect
  cases heffect with
  | refused hcontents hopened => exact h.refuse hcontents hopened
  | gained hd hy hy' hb hopened => exact h.gain hd hy hy' hb hopened
  | opened htoken hcontents hopened =>
      refine h.parenthesis (congrArg Token.kind htoken) hcontents ?_
      rw [hopened, List.countP_singleton, List.countP_singleton,
        Delivery.isOpening, Delivery.isClosing, htoken]
      show 1 + y.opened = 0 + (y.opened + 1)
      omega
  | @closed _ y' htoken hcontents hopened =>
      refine h.parenthesis (congrArg Token.kind htoken) hcontents ?_
      rw [hopened, List.countP_singleton, List.countP_singleton,
        Delivery.isOpening, Delivery.isClosing, htoken]
      show 0 + (y'.opened + 1) = 1 + y'.opened
      omega

/-- One delivery after the other, the account stays right. -/
theorem run (ds : List Delivery) :
    ∀ {y : Yard} {taken : List Delivery}, y.Accounts taken →
      (y.afterAll ds).Accounts (taken ++ y.acceptedAll ds) := by
  induction ds with
  | nil =>
      intro y taken h
      rw [acceptedAll, List.append_nil]
      exact h
  | cons d ds ih =>
      intro y taken h
      have hrest := ih (h.step d)
      rw [List.append_assoc] at hrest
      exact hrest

end Accounts

theorem accounts_afterAll (ds : List Delivery) :
    (empty.afterAll ds).Accounts (empty.acceptedAll ds) :=
  Accounts.empty.run ds

/-! ## The program at the end -/

/-- **NOTHING IS LOST IN THE YARD**: whatever tokens a new yard is handed, in
    whatever slots, it ends with an open parenthesis exactly if it has taken
    more opening parentheses than closing ones.  Otherwise it ends with a
    program whose numbers are the values of the numbers that it has taken, in
    order, and whose signs and operators are those that it has taken, each
    once.  What it has refused has left no trace in either. -/
theorem finish_afterAll (ds : List Delivery) :
    ((empty.afterAll ds).finish = .error .unclosed
      ↔ (empty.acceptedAll ds).countP Delivery.isClosing
        < (empty.acceptedAll ds).countP Delivery.isOpening)
    ∧ ((empty.acceptedAll ds).countP Delivery.isOpening
        ≤ (empty.acceptedAll ds).countP Delivery.isClosing →
      ∃ p, (empty.afterAll ds).finish = .ok p
        ∧ (p.filter Node.isNumber).map some
          = ((empty.acceptedAll ds).filter Delivery.isNumber).map
            Delivery.node?
        ∧ ((p.filter (!·.isNumber)).map some).Perm
          (((empty.acceptedAll ds).filter Delivery.isOperator).map
            Delivery.node?)) := by
  obtain ⟨hnumbers, hoperators, hparentheses⟩ := accounts_afterAll ds
  rw [hparentheses]
  by_cases hopened : (empty.afterAll ds).opened = 0
  · have hfinish := finish_of_opened_zero hopened
    constructor
    · rw [hfinish, hopened]
      exact iff_of_false nofun (Nat.lt_irrefl _)
    · intro _
      exact ⟨_, hfinish, hnumbers, hoperators⟩
  · constructor
    · exact iff_of_true (finish_of_opened hopened) (by omega)
    · intro hle
      omega

-- A parenthesis without a partner is refused, but it settles what waits.
example : (empty.afterAll [⟨.operand, ⟨.number, ['1']⟩⟩,
      ⟨.operator, ⟨.operator, ['+']⟩⟩, ⟨.operand, ⟨.number, ['2']⟩⟩,
      ⟨.operator, ⟨.parenthesis, [')']⟩⟩, ⟨.operator, ⟨.operator, ['*']⟩⟩,
      ⟨.operand, ⟨.number, ['3']⟩⟩]).finish
    = .ok [.number 1.0, .number 2.0, .operator .add, .number 3.0,
      .operator .multiply] := by rfl

end Yard

end Keypad
