import Keypad.Proofs.CarefulUse
import Mathlib.Data.List.DropRight

/-! # Key structure — what no accepted key breaks

    Toward: keys are structured in every session without deletions.

    `Structured` spells out in eight clauses what the guard is there for.
    Five of them are about two keys in a row, one about whole numbers, one
    about the first key and one about prefixes.  Together they say what
    `WellFormed` says in the form that the guard's rules have
    (`structured_iff_wellFormed`).

    A property that no keys have to lack and that an accepted key keeps is
    `Guarded`.  Keys come into an expression through the guard alone, after a
    result or a fault too, so in sessions without deletions guarded properties
    hold all the time (`Guarded.of_undeleted`). -/

namespace Keypad

/-! ## The clauses -/

/-- A run of digits and points that reaches as far as it can. -/
structure IsWholeNumber (front run back : List Key) : Prop where
  numeric : ∀ k ∈ run, k.isNumeric = true
  before : ∀ k ∈ front.getLast?, k.isNumeric = false
  after : ∀ k ∈ back.head?, k.isNumeric = false

/-- The structure of keys. -/
structure Structured (keys : List Key) : Prop where
  /-- No two operators are adjacent. -/
  operators : ∀ o o' : Operator, ¬ [.operator o, .operator o'] <:+: keys
  /-- After an opening parenthesis comes no operator other than a minus. -/
  openings : ∀ o : Operator, [.opening, .operator o] <:+: keys → o = .subtract
  /-- No closing parenthesis directly follows an opening one or an
      operator. -/
  closings : ∀ a : Key, [a, .closing] <:+: keys →
    a ≠ .opening ∧ a.isOperator = false
  /-- No answer is next to a digit, a point or another answer. -/
  answers : ∀ a : Key, [a, .answer] <:+: keys ∨ [.answer, a] <:+: keys →
    a.isOperand = false
  /-- No point is directly before an opening parenthesis. -/
  points : ¬ [.point, .opening] <:+: keys
  /-- Every whole number holds at most one point. -/
  numbers : ∀ front run back, keys = front ++ run ++ back →
    IsWholeNumber front run back → run.count .point ≤ 1
  /-- The first key, if any, is one that may start. -/
  start : ∀ k ∈ keys.head?, k.canStart = true
  /-- No prefix closes more parentheses than it opened. -/
  closes : ∀ front, front <+: keys →
    front.count .closing ≤ front.count .opening

/-! ## Two keys in a row -/

theorem isChain_iff_pairs {α : Type} {R : α → α → Prop} {l : List α} :
    l.IsChain R ↔ ∀ a b, [a, b] <:+: l → R a b := by
  rw [List.isChain_iff_forall_rel_of_append_cons_cons]
  constructor
  · rintro h a b ⟨s, t, rfl⟩
    exact h (List.append_assoc s [a, b] t)
  · rintro h a b s t rfl
    exact h a b ⟨s, t, List.append_assoc s [a, b] t⟩

/-- The clauses about two keys in a row say which key may come right after
    which. -/
theorem Key.meets_iff {a b : Key} :
    a.meets b = true
      ↔ ¬ (a.isOperator = true ∧ b.isOperator = true)
        ∧ (a = .opening → ∀ o, b = .operator o → o = .subtract)
        ∧ (b = .closing → a ≠ .opening ∧ a.isOperator = false)
        ∧ (b = .answer → a.isOperand = false)
        ∧ (a = .answer → b.isOperand = false)
        ∧ ¬ (a = .point ∧ b = .opening) := by
  cases a <;> cases b <;>
    simp [meets, isOperator, isOperand, Rule.minus]

/-! ## Whole numbers -/

/-- Every run of digits and points is part of a whole number. -/
theorem exists_isWholeNumber {run : List Key}
    (h : ∀ k ∈ run, k.isNumeric = true) (left right : List Key) :
    ∃ front a b back, left = front ++ a ∧ right = b ++ back
      ∧ IsWholeNumber front (a ++ run ++ b) back := by
  refine ⟨left.rdropWhile Key.isNumeric, left.rtakeWhile Key.isNumeric,
    right.takeWhile Key.isNumeric, right.dropWhile Key.isNumeric,
    List.rdropWhile_append_rtakeWhile.symm,
    List.takeWhile_append_dropWhile.symm, ?_⟩
  constructor
  · intro k hk
    rcases List.mem_append.mp hk with hk | hright
    · rcases List.mem_append.mp hk with hleft | hrun
      · exact List.mem_rtakeWhile_imp hleft
      · exact h k hrun
    · exact List.mem_takeWhile_imp hright
  · intro k hk
    have hlast := List.head?_dropWhile_not Key.isNumeric left.reverse
    rw [← List.getLast?_reverse] at hlast
    have hk' : (left.reverse.dropWhile Key.isNumeric).reverse.getLast?
        = some k := hk
    rw [hk'] at hlast
    exact hlast
  · intro k hk
    have hfirst := List.head?_dropWhile_not Key.isNumeric right
    have hk' : (right.dropWhile Key.isNumeric).head? = some k := hk
    rw [hk'] at hfirst
    exact hfirst

/-! ## Prefixes -/

/-- A prefix of a list with a first element is empty or starts with it. -/
theorem forall_prefix_cons {α : Type} {P : List α → Prop} {a : α}
    {l : List α} :
    (∀ front, front <+: a :: l → P front)
      ↔ P [] ∧ ∀ front, front <+: l → P (a :: front) := by
  constructor
  · intro h
    exact ⟨h [] List.nil_prefix, fun front hfront =>
      h _ (List.cons_prefix_cons.mpr ⟨rfl, hfront⟩)⟩
  · rintro ⟨hnil, hcons⟩ front hfront
    rcases List.prefix_cons_iff.mp hfront with rfl | ⟨rest, rfl, hrest⟩
    · exact hnil
    · exact hcons rest hrest

/-- Keys have a depth when no prefix of them closes more parentheses than are
    open. -/
theorem Key.isSome_depthFrom_iff {keys : List Key} :
    ∀ d, (depthFrom d keys).isSome = true
      ↔ ∀ front, front <+: keys →
        front.count .closing ≤ d + front.count .opening := by
  induction keys with
  | nil =>
      intro d
      refine iff_of_true rfl ?_
      intro front hfront
      rw [List.prefix_nil.mp hfront]
      exact Nat.zero_le _
  | cons k keys ih =>
      intro d
      rw [forall_prefix_cons, depthFrom_cons]
      cases k with
      | opening =>
          show (depthFrom (d + 1) keys).isSome = true ↔ _
          rw [ih]
          simp [Nat.add_assoc, Nat.add_comm 1]
      | closing =>
          cases d with
          | zero =>
              refine iff_of_false Bool.false_ne_true ?_
              rintro ⟨-, h⟩
              exact absurd (h [] List.nil_prefix) (by decide)
          | succ d =>
              show (depthFrom d keys).isSome = true ↔ _
              rw [ih]
              simp [Nat.add_right_comm]
      | digit _ | point | operator _ | answer =>
          show (depthFrom d keys).isSome = true ↔ _
          rw [ih]
          simp

/-! ## The clauses together -/

/-- **THE STRUCTURE OF KEYS** is what the guard keeps up, clause by clause. -/
theorem structured_iff_wellFormed {keys : List Key} :
    Structured keys ↔ WellFormed keys := by
  constructor
  · intro h
    refine ⟨h.start, ?_, ?_, ?_⟩
    · rw [isChain_iff_pairs]
      intro a b hab
      refine Key.meets_iff.mpr ⟨?_, ?_, ?_, ?_, ?_, ?_⟩
      · rintro ⟨ha, hb⟩
        cases a with
        | operator o =>
            cases b with
            | operator o' => exact h.operators o o' hab
            | _ => cases hb
        | _ => cases ha
      · rintro rfl o rfl
        exact h.openings o hab
      · rintro rfl
        exact h.closings a hab
      · rintro rfl
        exact h.answers a (Or.inl hab)
      · rintro rfl
        exact h.answers b (Or.inr hab)
      · rintro ⟨rfl, rfl⟩
        exact h.points hab
    · -- a number has no more points than the whole number that it is part of
      rintro run ⟨left, right, rfl⟩ hnumeric
      obtain ⟨front, a, b, back, rfl, rfl, hwhole⟩ :=
        exists_isWholeNumber hnumeric left right
      have hcount := h.numbers front (a ++ run ++ b) back (by simp) hwhole
      rw [List.count_append, List.count_append] at hcount
      omega
    · rw [Key.isSome_depthFrom_iff]
      intro front hfront
      rw [Nat.zero_add]
      exact h.closes front hfront
  · intro h
    have hpairs : ∀ a b, [a, b] <:+: keys → a.meets b = true :=
      isChain_iff_pairs.mp h.neighbours
    constructor
    · intro o o' hinfix
      obtain ⟨hoperators, -⟩ := Key.meets_iff.mp (hpairs _ _ hinfix)
      exact hoperators ⟨rfl, rfl⟩
    · intro o hinfix
      obtain ⟨-, hopening, -⟩ := Key.meets_iff.mp (hpairs _ _ hinfix)
      exact hopening rfl o rfl
    · intro a hinfix
      obtain ⟨-, -, hclosing, -⟩ := Key.meets_iff.mp (hpairs _ _ hinfix)
      exact hclosing rfl
    · rintro a (hbefore | hafter)
      · obtain ⟨-, -, -, hanswer, -⟩ := Key.meets_iff.mp (hpairs _ _ hbefore)
        exact hanswer rfl
      · obtain ⟨-, -, -, -, hanswer, -⟩ := Key.meets_iff.mp (hpairs _ _ hafter)
        exact hanswer rfl
    · intro hinfix
      cases hpairs _ _ hinfix
    · rintro front run back rfl hwhole
      exact h.points run ⟨front, back, rfl⟩ hwhole.numeric
    · exact h.start
    · intro front hfront
      have hcount := (Key.isSome_depthFrom_iff 0).mp h.closes front hfront
      rw [Nat.zero_add] at hcount
      exact hcount

/-! ## Sessions without deletions -/

/-- A property of keys that the guard keeps up. -/
structure Guarded (P : List Key → Prop) : Prop where
  nil : P []
  insert : ∀ {left right : List Key} {k : Key}, P (left ++ right) →
    Context.accepted ⟨left, right, k⟩ = true → P (left ++ k :: right)

theorem guarded_structured : Guarded Structured where
  nil := structured_iff_wellFormed.mpr WellFormed.nil
  insert h hk := by
    rw [structured_iff_wellFormed] at h ⊢
    exact h.insert hk

namespace Session

/-- The sessions that a new one becomes when nothing is ever deleted.  Any
    text may be handed in for a key, and any other command be given. -/
inductive Undeleted : Session → Prop where
  | new : Undeleted Session.new
  | insert {s : Session} (name : Text) :
      Undeleted s → Undeleted (s.insert name)
  | obey {s : Session} (c : Command) : c ≠ .delete →
      Undeleted s → Undeleted (s.obey c)

/-- The caret moves and the keys stay. -/
theorem keys_of_move {s s' : Session}
    (h : s' = s ∨ s.mode = .editing ∧ ∃ e, e.keys = s.expression.keys
      ∧ s' = { s with expression := e }) :
    s'.expression.keys = s.expression.keys := by
  rcases h with rfl | ⟨-, e, hkeys, rfl⟩
  · rfl
  · exact hkeys

/-- A commit leaves the keys as they are, or none. -/
theorem keys_commit (s : Session) :
    s.commit.expression.keys = s.expression.keys
      ∨ s.commit.expression.keys = [] := by
  rcases s.commit_cases with ⟨hsame, -⟩ | ⟨x, -, -, hcommit⟩
    | ⟨f, -, -, hcommit⟩
  · rw [hsame]
    exact Or.inl rfl
  · rw [hcommit]
    exact Or.inr rfl
  · rw [hcommit]
    exact Or.inr rfl

end Session

namespace Guarded

variable {P : List Key → Prop} {s : Session}

/-- A key that goes in was accepted, also one that starts anew. -/
theorem press (h : Guarded P) (hs : P s.expression.keys) (k : Key) :
    P (s.press k).expression.keys := by
  rw [Session.press]
  cases hadmission : Admission.of s.mode s.expression k with
  | rejected => exact hs
  | restarted keys =>
      show P (keys ++ [])
      rw [List.append_nil]
      refine Admission.restarted_induction h.nil ?_ hadmission
      intro keys k hkeys hk
      rw [← List.append_nil keys] at hkeys
      exact h.insert hkeys hk
  | inserted =>
      show P (s.expression.insert k).keys
      rw [Expression.keys_insert]
      exact h.insert hs (Admission.accepted_of_inserted hadmission)

/-- No other command than a deletion takes a key out of its place. -/
theorem obey (h : Guarded P) (hs : P s.expression.keys) {c : Command}
    (hc : c ≠ .delete) : P (s.obey c).expression.keys := by
  cases c with
  | delete => exact absurd rfl hc
  | left =>
      rw [Session.obey, Session.keys_of_move s.moveLeft_cases]
      exact hs
  | right =>
      rw [Session.obey, Session.keys_of_move s.moveRight_cases]
      exact hs
  | commit =>
      rw [Session.obey]
      rcases s.keys_commit with hsame | hnone
      · rw [hsame]
        exact hs
      · rw [hnone]
        exact h.nil
  | clear => exact h.nil

/-- **WITHOUT DELETIONS THE GUARD HAS THE LAST WORD**: what it keeps up holds
    of the keys of every session in which nothing was deleted. -/
theorem of_undeleted (h : Guarded P) (hs : s.Undeleted) :
    P s.expression.keys := by
  induction hs with
  | new => exact h.nil
  | @insert s name _ ih =>
      rw [Session.insert]
      split
      · exact h.press ih _
      · exact ih
  | obey c hc _ ih => exact h.obey ih hc

end Guarded

/-- **AN ACCEPTED KEY BREAKS NO STRUCTURE**: it leaves keys structured wherever
    it goes in, so keys are structured in every session without deletions,
    whatever was committed, cleared and begun anew in between. -/
theorem structured_of_accepted :
    (∀ (left right : List Key) (k : Key), Structured (left ++ right) →
      Context.accepted ⟨left, right, k⟩ = true →
      Structured (left ++ k :: right))
    ∧ ∀ s : Session, s.Undeleted → Structured s.expression.keys := by
  constructor
  · intro left right k h hk
    exact guarded_structured.insert h hk
  · intro s hs
    exact guarded_structured.of_undeleted hs

/-- A digit goes in between a multiplication that continues from a result and
    a parenthesis. -/
theorem structured_of_accepted_after_result :
    ∃ s : Session, s.Undeleted
      ∧ s.expression = ⟨[.answer, .operator .multiply], [.opening]⟩
      ∧ Structured s.expression.keys
      ∧ Context.accepted ⟨s.expression.left, s.expression.right, .digit 7⟩
        = true
      ∧ Structured [.answer, .operator .multiply, .digit 7, .opening] := by
  have hundeleted : ((((Session.new.insert ['4']).obey .commit).insert
      ['×']).insert ['(']).obey .left |>.Undeleted :=
    .obey .left (by decide) (.insert _ (.insert _
      (.obey .commit (by decide) (.insert _ .new))))
  have hexpression : (((((Session.new.insert ['4']).obey .commit).insert
      ['×']).insert ['(']).obey .left).expression
        = ⟨[.answer, .operator .multiply], [.opening]⟩ := by
    rfl
  have hkeys := structured_of_accepted.2 _ hundeleted
  have haccepted : Context.accepted
      ⟨[.answer, .operator .multiply], [.opening], .digit 7⟩ = true := by
    decide
  refine ⟨_, hundeleted, hexpression, hkeys, ?_, ?_⟩
  · rw [hexpression]
    exact haccepted
  · rw [hexpression] at hkeys
    exact structured_of_accepted.1 [.answer, .operator .multiply] [.opening]
      (.digit 7) hkeys haccepted

end Keypad
