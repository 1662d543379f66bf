import Keypad.Proofs.PhraseValue
import Keypad.Proofs.Reader
import Keypad.Proofs.WellFormed

/-! # Reading keys — what the reader makes of well-formed keys

    The plain text of well-formed keys is read without a fault, key after
    key, as long as every point belongs to a number.  `Follows` says where
    the reader stands after some keys, by the last of them: an operand is
    due, an operand is done, or a number is being read, whose keys are at
    hand.

    A point belongs to no number when it is stranded: after a group, where
    nothing can begin, or after no digit and before a key that is none.  The
    guard does not keep keys in front of a point away. -/

namespace Keypad

open Plain (ofKeys)
open Phrase (numberKeys digits)

theorem Key.isNumeric_of_isDigit {k : Key} (h : k.isDigit = true) :
    k.isNumeric = true := by
  cases k with
  | digit _ => rfl
  | _ => cases h

/-- Some point belongs to no number, whatever is typed behind the keys. -/
def Stranded (keys : List Key) : Prop :=
  ∃ left right : List Key, keys = left ++ Key.point :: right
    ∧ (left.getLast? = some .closing
      ∨ left.getLast?.any Key.isDigit = false
        ∧ right.head?.any (fun k => !k.isDigit) = true)

theorem Stranded.append {keys : List Key} (h : Stranded keys)
    (rest : List Key) : Stranded (keys ++ rest) := by
  obtain ⟨left, right, rfl, hwhy⟩ := h
  refine ⟨left, right ++ rest, ?_, ?_⟩
  · rw [List.append_assoc]
    rfl
  · rcases hwhy with hclosing | ⟨hdigit, hright⟩
    · exact Or.inl hclosing
    · refine Or.inr ⟨hdigit, ?_⟩
      cases right with
      | nil => cases hright
      | cons k right => exact hright

/-- A point at the end that is not stranded by the next key, no digit, has a
    digit in front of it. -/
theorem isDigit_of_not_stranded {front : List Key} {k : Key}
    (hk : k.isDigit = false) (h : ¬ Stranded (front ++ [Key.point] ++ [k])) :
    front.getLast?.any Key.isDigit = true := by
  cases hdigit : front.getLast?.any Key.isDigit with
  | true => rfl
  | false =>
      refine absurd ⟨front, [k], ?_, Or.inr ⟨hdigit, ?_⟩⟩ h
      · rw [List.append_assoc]
        rfl
      · show (!k.isDigit) = true
        rw [hk]
        rfl

/-! ## Where the reader stands -/

namespace Reader

/-- Where the reader stands after keys that end with `last`, with so many
    parentheses open. -/
def StandsAfter (r : Reader) (n : Nat) (keys : List Key) :
    (last : Option Key) → Prop
  | none | some (.operator _) | some .opening =>
      r.run = [] ∧ r.state.At .operand n
  | some .closing | some .answer => r.Settles .operator n
  | some (.digit _) | some .point =>
      ∃ front whole fraction, keys = front ++ numberKeys whole fraction
        ∧ (∀ a ∈ front.getLast?, a.isNumeric = false)
        ∧ r.run = Numeral.digitsText (digits whole) (fraction.map digits)
        ∧ r.state.At .operand n

/-- The reader has read the keys. -/
def Follows (r : Reader) (n : Nat) (keys : List Key) : Prop :=
  Key.depthFrom 0 keys = some n ∧ r.StandsAfter n keys keys.getLast?

variable {r : Reader} {n : Nat} {keys : List Key}

theorem follows_start : Follows start 0 [] := ⟨rfl, rfl, rfl, rfl⟩

theorem follows_concat {k : Key} :
    r.Follows n (keys ++ [k])
      ↔ Key.depthFrom 0 (keys ++ [k]) = some n
        ∧ r.StandsAfter n (keys ++ [k]) (some k) := by
  rw [Follows, List.getLast?_concat]

/-- After an operator, an opening parenthesis or nothing an operand is
    due. -/
theorem Follows.due (h : r.Follows n keys)
    (hlast : Rule.lacksOperand keys.getLast? = true)
    (hpoint : keys.getLast? ≠ some .point) :
    ∃ s, r = ⟨s, []⟩ ∧ s.At .operand n := by
  obtain ⟨state, run⟩ := r
  obtain ⟨-, hstands⟩ := h
  cases hkeys : keys.getLast? with
  | none =>
      rw [hkeys] at hstands
      obtain ⟨rfl, hat⟩ := hstands
      exact ⟨state, rfl, hat⟩
  | some a =>
      rw [hkeys] at hstands hlast hpoint
      cases a with
      | operator _ | opening =>
          obtain ⟨rfl, hat⟩ := hstands
          exact ⟨state, rfl, hat⟩
      | point => exact absurd rfl hpoint
      | digit _ | closing | answer => cases hlast

/-- A number with a digit in it ends well. -/
theorem settles_of_number {whole : List (Fin 10)}
    {fraction : Option (List (Fin 10))}
    (hrun : r.run = Numeral.digitsText (digits whole) (fraction.map digits))
    (hstate : r.state.At .operand n) (hne : whole ++ fraction.getD [] ≠ []) :
    r.Settles .operator n := by
  have hdigits := Phrase.digits_append_getD whole fraction
  have hne' : digits whole ++ (fraction.map digits).getD [] ≠ [] := by
    rw [hdigits]
    exact fun hnil => hne (List.map_eq_nil_iff.mp hnil)
  have hall : ∀ c ∈ digits whole ++ (fraction.map digits).getD [],
      c.isDigit = true := by
    rw [hdigits]
    exact fun c => Phrase.isDigit_of_mem_digits
  obtain ⟨s, hs, hat⟩ :=
    hstate.number (Numeral.ofText?_digitsText hne' hall)
  refine ⟨s, ?_, hat⟩
  rw [settle, hrun, if_neg (Numeral.digitsText_ne_nil hne')]
  exact hs

/-- After an operand or a group the reader settles, if a point at the end has
    a digit in front of it. -/
theorem Follows.settles {front : List Key} {a : Key}
    (h : r.Follows n (front ++ [a]))
    (ha : a.canEnd = true)
    (hpoint : a = .point → front.getLast?.any Key.isDigit = true) :
    r.Settles .operator n := by
  obtain ⟨-, hstands⟩ := follows_concat.mp h
  cases a with
  | closing | answer => exact hstands
  | operator _ | opening => cases ha
  | digit _ | point =>
      obtain ⟨front', whole, fraction, hkeys, hfront, hrun, hstate⟩ := hstands
      -- a number without a digit would be a point that follows none
      refine settles_of_number hrun hstate ?_
      intro hnil
      obtain ⟨rfl, hfraction⟩ := List.append_eq_nil_iff.mp hnil
      cases fraction with
      | none =>
          rw [numberKeys, List.map_nil, List.append_nil] at hkeys
          have hlast := congrArg List.getLast? hkeys
          rw [List.getLast?_concat] at hlast
          cases hfront _ hlast.symm
      | some f =>
          obtain rfl : f = [] := hfraction
          obtain ⟨rfl, hpoints⟩ := List.append_inj' hkeys rfl
          obtain ⟨b, hb, hdigit⟩ := Option.any_eq_true _ _ |>.mp
            (hpoint (List.cons.inj hpoints).1)
          have hnumeric := Key.isNumeric_of_isDigit hdigit
          rw [hfront b hb] at hnumeric
          cases hnumeric

end Reader

/-! ## One key at a time -/

/-- Where keys end: an operand is due, or they end with a key after which an
    operand is done. -/
theorem due_or_done (keys : List Key) :
    (Rule.lacksOperand keys.getLast? = true ∧ keys.getLast? ≠ some .point)
      ∨ ∃ front a, keys = front ++ [a] ∧ a.canEnd = true := by
  rcases List.eq_nil_or_concat keys with rfl | ⟨front, a, rfl⟩
  · exact Or.inl ⟨rfl, nofun⟩
  · rw [List.concat_eq_append, List.getLast?_concat]
    cases a with
    | operator _ | opening => exact Or.inl ⟨rfl, nofun⟩
    | digit _ | point | answer | closing =>
        exact Or.inr ⟨front, _, rfl, rfl⟩

/-- A group, the answer or a new number after a key that may end an expression
    is one factor of an implied product. -/
theorem Key.implies_of_meets {a k : Key} (ha : a.canEnd = true)
    (hmeets : a.meets k = true)
    (hk : k = .opening ∨ k = .answer
      ∨ k.isDigit = true ∧ a.isNumeric = false) : a.implies k = true := by
  rcases hk with rfl | rfl | ⟨hdigit, hnumeric⟩
  · cases a with
    | digit _ | answer | closing => rfl
    | point => cases hmeets
    | operator _ | opening => cases ha
  · cases a with
    | closing => rfl
    | digit _ | point | answer => cases hmeets
    | operator _ | opening => cases ha
  · cases k with
    | digit _ =>
        cases a with
        | closing => rfl
        | answer => cases hmeets
        | digit _ | point => cases hnumeric
        | operator _ | opening => cases ha
    | _ => cases hdigit

/-- After the seam an operand is due, where a group, the answer or a new
    number follows. -/
theorem Reader.Follows.read_seam {r : Reader} {n : Nat} {keys : List Key}
    {k : Key} (h : r.Follows n keys) (hw : WellFormed (keys ++ [k]))
    (hk : k = .opening ∨ k = .answer
      ∨ k.isDigit = true ∧ ∀ a ∈ keys.getLast?, a.isNumeric = false) :
    ∃ s, r.read (Key.seam keys [k]) = .ok ⟨s, []⟩ ∧ s.At .operand n := by
  rcases due_or_done keys with ⟨hlast, hpoint⟩ | ⟨front, a, rfl, ha⟩
  · obtain ⟨s, rfl, hat⟩ := h.due hlast hpoint
    refine ⟨s, ?_, hat⟩
    rw [Key.seam_singleton_eq_nil]
    · rfl
    · intro a hkeys
      rw [show keys.getLast? = some a from hkeys] at hlast hpoint
      cases a with
      | operator _ | opening => rfl
      | point => rfl
      | digit _ | closing | answer => cases hlast
  · have himplies : a.implies k = true := by
      refine Key.implies_of_meets ha hw.meets ?_
      rcases hk with hopening | hanswer | ⟨hdigit, hnumeric⟩
      · exact Or.inl hopening
      · exact Or.inr (Or.inl hanswer)
      · exact Or.inr (Or.inr ⟨hdigit, hnumeric a List.getLast?_concat⟩)
    have hsettles : r.Settles .operator n := by
      refine h.settles ha ?_
      rintro rfl
      cases k <;> cases himplies
    obtain ⟨s, hread, hat⟩ := hsettles.operator .multiply
    refine ⟨s, ?_, hat⟩
    rw [Key.seam_of_implies himplies]
    exact hread

/-- A key that is no digit comes after an operand or a group that ends
    well. -/
theorem Reader.Follows.settles_before {r : Reader} {n : Nat}
    {front : List Key} {a k : Key} (h : r.Follows n (front ++ [a]))
    (ha : a.canEnd = true) (hk : k.isDigit = false)
    (hs : ¬ Stranded (front ++ [a] ++ [k])) : r.Settles .operator n := by
  refine h.settles ha ?_
  rintro rfl
  exact isDigit_of_not_stranded hk hs

/-- The answer is read where an operand is due. -/
theorem Reader.read_answer {answer : Float} (hfinite : answer.isFinite = true)
    {s : Yard.State} {n : Nat} (hs : s.At .operand n) :
    ∃ r, Reader.read ⟨s, []⟩ (Plain.answerOperand answer) = .ok r
      ∧ r.Settles .operator n := by
  obtain ⟨m, x, hm, hx, hcase⟩ := answer_cases hfinite
  have hnumber : ∀ {s : Yard.State} {n : Nat}, s.At .operand n →
      ∃ r, Reader.read ⟨s, []⟩ m = .ok r ∧ r.Settles .operator n := by
    intro s n hs
    obtain ⟨s', hnext, hat⟩ := hs.number hx
    refine ⟨_, read_numeric _ hm.numeric, s', ?_, hat⟩
    show (if m = [] then _ else _) = _
    rw [if_neg hm.ne_nil]
    exact hnext
  rcases hcase with ⟨hpos, -⟩ | ⟨hminus, -⟩
  · rw [hpos]
    exact hnumber hs
  · -- parenthesis, sign, number and parenthesis, one after the other
    obtain ⟨s₁, hopening, hs₁⟩ := (settles_of_at hs).opening
    obtain ⟨s₂, hsign, hs₂⟩ := (settles_of_at hs₁).sign
    obtain ⟨r, hr, hsettles⟩ := hnumber hs₂
    obtain ⟨s₃, hclosing, hs₃⟩ := hsettles.closing
    refine ⟨⟨s₃, []⟩, ?_, settles_of_at hs₃⟩
    rw [hminus]
    show Reader.read ⟨s, []⟩ (['('] ++ (['-'] ++ (m ++ [')']))) = _
    rw [read_append, hopening]
    show Reader.read ⟨s₁, []⟩ (['-'] ++ (m ++ [')'])) = _
    rw [read_append, hsign]
    show Reader.read ⟨s₂, []⟩ (m ++ [')']) = _
    rw [read_append, hr]
    exact hclosing

/-- A digit or a point goes on with the keys of a number. -/
theorem numberKeys_concat {keys front : List Key} {k : Key}
    {whole : List (Fin 10)} {fraction : Option (List (Fin 10))}
    (hw : WellFormed (keys ++ [k])) (hk : k.isNumeric = true)
    (hkeys : keys = front ++ numberKeys whole fraction) :
    ∃ whole' fraction', keys ++ [k] = front ++ numberKeys whole' fraction'
      ∧ (whole ≠ [] → whole' ≠ [])
      ∧ Numeral.digitsText (digits whole) (fraction.map digits) ++ k.text
        = Numeral.digitsText (digits whole') (fraction'.map digits) := by
  rw [hkeys] at hw ⊢
  cases k with
  | digit d =>
      cases fraction with
      | none =>
          refine ⟨whole ++ [d], none, ?_,
            fun hne => List.append_ne_nil_of_left_ne_nil hne _, ?_⟩
          · rw [numberKeys, numberKeys, List.map_append, List.append_assoc]
            rfl
          · show digits whole ++ [Nat.digitChar d] = digits (whole ++ [d])
            rw [digits, digits, List.map_append]
            rfl
      | some f =>
          refine ⟨whole, some (f ++ [d]), ?_, id, ?_⟩
          · rw [numberKeys, numberKeys, List.map_append]
            simp
          · show digits whole ++ '.' :: digits f ++ [Nat.digitChar d]
              = digits whole ++ '.' :: digits (f ++ [d])
            rw [digits, digits, digits, List.map_append]
            simp
  | point =>
      cases fraction with
      | none =>
          refine ⟨whole, some [], ?_, id, rfl⟩
          rw [numberKeys, numberKeys, List.append_assoc]
          rfl
      | some f =>
          -- two points in one number
          have hcount := hw.points (Key.point :: f.map Key.digit ++ [Key.point])
            ⟨front ++ whole.map .digit, [], by simp [numberKeys]⟩ ?_
          · simp at hcount
          · intro k hk
            simp only [List.cons_append, List.mem_cons, List.mem_append,
              List.mem_map, List.not_mem_nil, or_false] at hk
            rcases hk with rfl | ⟨d, -, rfl⟩ | rfl
            · rfl
            · rfl
            · rfl
  | _ => cases hk

/-- Where an operand is due, the next key may start or is a point. -/
theorem WellFormed.canStart_or_point {keys : List Key} {k : Key}
    (h : WellFormed (keys ++ [k]))
    (hlast : Rule.lacksOperand keys.getLast? = true)
    (hpoint : keys.getLast? ≠ some .point) :
    k.canStart = true ∨ k = .point := by
  rcases List.eq_nil_or_concat keys with rfl | ⟨front, a, rfl⟩
  · exact Or.inl (h.start k rfl)
  · rw [List.concat_eq_append] at h hlast hpoint
    rw [List.getLast?_concat] at hlast hpoint
    have hmeets : a.meets k = true := h.meets
    cases a with
    | operator _ =>
        cases k with
        | digit _ | opening | answer => exact Or.inl rfl
        | point => exact Or.inr rfl
        | operator _ | closing => cases hmeets
    | opening =>
        cases k with
        | digit _ | opening | answer => exact Or.inl rfl
        | point => exact Or.inr rfl
        | closing => cases hmeets
        | operator o => cases o <;> first | exact Or.inl rfl | cases hmeets
    | point => exact absurd rfl hpoint
    | digit _ | closing | answer => cases hlast

/-- Where an operand is due the only operator is the minus. -/
theorem WellFormed.eq_subtract {keys : List Key} {o : Operator}
    (h : WellFormed (keys ++ [Key.operator o]))
    (hlast : Rule.lacksOperand keys.getLast? = true)
    (hpoint : keys.getLast? ≠ some .point) : o = .subtract := by
  rcases h.canStart_or_point hlast hpoint with hstart | hsame
  · cases o <;> first | rfl | cases hstart
  · cases hsame

/-- A closing parenthesis comes after a key that may end an expression. -/
theorem WellFormed.canEnd_before_closing {keys : List Key}
    (h : WellFormed (keys ++ [Key.closing])) :
    ∃ front a, keys = front ++ [a] ∧ a.canEnd = true := by
  rcases due_or_done keys with ⟨hlast, hpoint⟩ | hdone
  · rcases h.canStart_or_point hlast hpoint with hstart | hsame
    · cases hstart
    · cases hsame
  · exact hdone

namespace Reader

variable {r : Reader} {n : Nat} {keys : List Key} {k : Key}

/-- After a digit or a point a number is being read. -/
theorem standsAfter_numeric (hk : k.isNumeric = true) :
    r.StandsAfter n keys (some k) ↔
      ∃ front whole fraction, keys = front ++ numberKeys whole fraction
        ∧ (∀ a ∈ front.getLast?, a.isNumeric = false)
        ∧ r.run = Numeral.digitsText (digits whole) (fraction.map digits)
        ∧ r.state.At .operand n := by
  cases k with
  | digit _ | point => exact Iff.rfl
  | _ => cases hk

theorem read_key_of_numeric (answer : Float) (hk : k.isNumeric = true) :
    r.read (k.plain answer) = .ok ⟨r.state, r.run ++ k.text⟩ := by
  cases k with
  | digit d =>
      refine read_numeric r ?_
      intro c hc
      rw [List.mem_singleton.mp hc]
      exact Token.isNumeric_of_isDigit (Key.isDigit_digitChar d)
  | point =>
      refine read_numeric r ?_
      intro c hc
      rw [List.mem_singleton.mp hc]
      rfl
  | _ => cases hk

/-- A number begins where an operand is due. -/
theorem follows_begin (answer : Float) {s : Yard.State} (hs : s.At .operand n)
    (hdepth : Key.depthFrom 0 (keys ++ [k]) = some n)
    (hlast : ∀ a ∈ keys.getLast?, a.isNumeric = false)
    (hk : k.isNumeric = true) :
    ∃ r', read ⟨s, []⟩ (k.plain answer) = .ok r'
      ∧ r'.Follows n (keys ++ [k]) := by
  refine ⟨_, read_key_of_numeric answer hk, follows_concat.mpr ⟨hdepth, ?_⟩⟩
  rw [standsAfter_numeric hk]
  cases k with
  | digit d => exact ⟨keys, [d], none, rfl, hlast, rfl, hs⟩
  | point => exact ⟨keys, [], some [], rfl, hlast, rfl, hs⟩
  | _ => cases hk

/-- A number goes on with one more digit or point. -/
theorem Follows.extend (answer : Float) {front : List Key} {a : Key}
    (h : r.Follows n (front ++ [a])) (ha : a.isNumeric = true)
    (hw : WellFormed (front ++ [a] ++ [k])) (hk : k.isNumeric = true) :
    ∃ r', r.read (Key.seam (front ++ [a]) [k] ++ k.plain answer) = .ok r'
      ∧ r'.Follows n (front ++ [a] ++ [k]) := by
  have hdepth : Key.depthFrom 0 (front ++ [a] ++ [k]) = some n := by
    rw [Key.depthFrom_concat h.1]
    cases k with
    | digit _ | point => rfl
    | _ => cases hk
  have hseam : Key.seam (front ++ [a]) [k] = [] := by
    refine Key.seam_singleton_eq_nil ?_
    intro b hb
    rw [List.getLast?_concat] at hb
    obtain rfl := Option.some.inj hb
    cases a with
    | digit _ | point => cases k <;> first | rfl | cases hk
    | _ => cases ha
  obtain ⟨-, hstands⟩ := follows_concat.mp h
  obtain ⟨front', whole, fraction, hkeys, hfront, hrun, hstate⟩ :=
    (standsAfter_numeric ha).mp hstands
  obtain ⟨whole', fraction', hkeys', -, hrun'⟩ :=
    numberKeys_concat hw hk hkeys
  rw [hseam]
  refine ⟨_, read_key_of_numeric answer hk, follows_concat.mpr ⟨hdepth, ?_⟩⟩
  rw [standsAfter_numeric hk]
  refine ⟨front', whole', fraction', hkeys', hfront, ?_, hstate⟩
  rw [← hrun', ← hrun]

/-- An opening parenthesis is read after the seam. -/
theorem Follows.snoc_opening (answer : Float) (h : r.Follows n keys)
    (hw : WellFormed (keys ++ [Key.opening])) :
    ∃ r', r.read (Key.seam keys [Key.opening] ++ Key.opening.plain answer)
        = .ok r'
      ∧ r'.Follows (n + 1) (keys ++ [Key.opening]) := by
  obtain ⟨s, hseam, hat⟩ := h.read_seam hw (Or.inl rfl)
  obtain ⟨s', hread, hat'⟩ := (settles_of_at hat).opening
  refine ⟨⟨s', []⟩, ?_, follows_concat.mpr ⟨Key.depthFrom_concat h.1 _, rfl, hat'⟩⟩
  rw [read_append, hseam]
  exact hread

/-- The answer is read after the seam. -/
theorem Follows.snoc_answer {answer : Float} (hfinite : answer.isFinite = true)
    (h : r.Follows n keys) (hw : WellFormed (keys ++ [Key.answer])) :
    ∃ r', r.read (Key.seam keys [Key.answer] ++ Key.answer.plain answer)
        = .ok r'
      ∧ r'.Follows n (keys ++ [Key.answer]) := by
  obtain ⟨s, hseam, hat⟩ := h.read_seam hw (Or.inr (Or.inl rfl))
  obtain ⟨r', hread, hsettles⟩ := read_answer hfinite hat
  refine ⟨r', ?_, follows_concat.mpr ⟨Key.depthFrom_concat h.1 _, hsettles⟩⟩
  rw [read_append, hseam]
  exact hread

/-- A closing parenthesis comes after an operand or a group. -/
theorem Follows.snoc_closing (answer : Float) (h : r.Follows n keys)
    (hw : WellFormed (keys ++ [Key.closing]))
    (hs : ¬ Stranded (keys ++ [Key.closing])) :
    ∃ r' n', r.read (Key.seam keys [Key.closing] ++ Key.closing.plain answer)
        = .ok r'
      ∧ r'.Follows n' (keys ++ [Key.closing]) := by
  have hdepth := Key.depthFrom_concat h.1 .closing
  have hseam : Key.seam keys [.closing] = [] :=
    Key.seam_singleton_eq_nil fun a _ => by cases a <;> rfl
  rw [hseam]
  obtain ⟨front, a, rfl, ha⟩ := hw.canEnd_before_closing
  have hsettles := h.settles_before ha rfl hs
  cases n with
  | zero =>
      -- without an open parenthesis the keys would not be well-formed
      have hcloses := hw.closes
      rw [hdepth] at hcloses
      cases hcloses
  | succ n =>
      obtain ⟨s, hread, hat⟩ := hsettles.closing
      exact ⟨⟨s, []⟩, n, hread,
        follows_concat.mpr ⟨hdepth, settles_of_at hat⟩⟩

/-- An operator comes after an operand or a group, or it is a sign. -/
theorem Follows.snoc_operator (h : r.Follows n keys)
    {o : Operator} (hw : WellFormed (keys ++ [Key.operator o]))
    (hs : ¬ Stranded (keys ++ [Key.operator o])) :
    ∃ r', r.read (Key.seam keys [Key.operator o] ++ [o.symbol])
        = .ok r'
      ∧ r'.Follows n (keys ++ [Key.operator o]) := by
  have hdepth := Key.depthFrom_concat h.1 (.operator o)
  have hseam : Key.seam keys [.operator o] = [] :=
    Key.seam_singleton_eq_nil fun a _ => by cases a <;> rfl
  rw [hseam]
  rcases due_or_done keys with ⟨hlast, hpoint⟩ | ⟨front, a, rfl, ha⟩
  · obtain rfl := hw.eq_subtract hlast hpoint
    obtain ⟨s, rfl, hat⟩ := h.due hlast hpoint
    obtain ⟨s', hread, hat'⟩ := (settles_of_at hat).sign
    exact ⟨⟨s', []⟩, hread, follows_concat.mpr ⟨hdepth, rfl, hat'⟩⟩
  · obtain ⟨s, hread, hat⟩ := (h.settles_before ha rfl hs).operator o
    exact ⟨⟨s, []⟩, hread, follows_concat.mpr ⟨hdepth, rfl, hat⟩⟩

/-- A digit goes on with the number before it, or a number begins. -/
theorem Follows.snoc_digit (answer : Float) (h : r.Follows n keys)
    {d : Fin 10} (hw : WellFormed (keys ++ [Key.digit d])) :
    ∃ r', r.read (Key.seam keys [Key.digit d] ++ (Key.digit d).plain answer)
        = .ok r'
      ∧ r'.Follows n (keys ++ [Key.digit d]) := by
  by_cases hlast : ∀ a ∈ keys.getLast?, a.isNumeric = false
  · obtain ⟨s, hseam, hat⟩ := h.read_seam hw (Or.inr (Or.inr ⟨rfl, hlast⟩))
    obtain ⟨r', hread, hfollows⟩ :=
      follows_begin answer hat (Key.depthFrom_concat h.1 (.digit d)) hlast rfl
    refine ⟨r', ?_, hfollows⟩
    rw [read_append, hseam]
    exact hread
  · push Not at hlast
    obtain ⟨a, hkeys, ha⟩ := hlast
    obtain ⟨front, rfl⟩ := List.getLast?_eq_some_iff.mp hkeys
    exact h.extend answer (eq_true_of_ne_false ha) hw rfl

/-- A point goes on with the digits before it, or a number begins with it;
    the answer and, if it is not to be stranded, a group keep it away. -/
theorem Follows.snoc_point (answer : Float) (h : r.Follows n keys)
    (hw : WellFormed (keys ++ [Key.point]))
    (hs : ¬ Stranded (keys ++ [Key.point])) :
    ∃ r', r.read (Key.seam keys [Key.point] ++ Key.point.plain answer)
        = .ok r'
      ∧ r'.Follows n (keys ++ [Key.point]) := by
  rcases due_or_done keys with ⟨hlast, hpoint⟩ | ⟨front, a, rfl, ha⟩
  · have hseam : Key.seam keys [.point] = [] :=
      Key.seam_singleton_eq_nil fun a _ => by cases a <;> rfl
    rw [hseam]
    obtain ⟨s, rfl, hat⟩ := h.due hlast hpoint
    have hlast' : ∀ a ∈ keys.getLast?, a.isNumeric = false := by
      intro a hkeys
      rw [show keys.getLast? = some a from hkeys] at hlast hpoint
      cases a with
      | operator _ | opening | closing | answer => rfl
      | point => exact absurd rfl hpoint
      | digit _ => cases hlast
    exact follows_begin answer hat (Key.depthFrom_concat h.1 .point) hlast' rfl
  · have hmeets : a.meets .point = true := hw.meets
    cases a with
    | digit _ | point => exact h.extend answer rfl hw rfl
    | closing =>
        -- after a group the point is stranded
        exact absurd ⟨front ++ [Key.closing], [], rfl,
          Or.inl List.getLast?_concat⟩ hs
    | answer => cases hmeets
    | operator _ | opening => cases ha

/-- **ONE MORE KEY**: the reader goes on from keys to well-formed keys with
    one more at their end, as long as no point is stranded. -/
theorem Follows.snoc {answer : Float} (hfinite : answer.isFinite = true)
    (h : r.Follows n keys) (hw : WellFormed (keys ++ [k]))
    (hs : ¬ Stranded (keys ++ [k])) :
    ∃ r' n', r.read (Key.seam keys [k] ++ k.plain answer) = .ok r'
      ∧ r'.Follows n' (keys ++ [k]) := by
  cases k with
  | opening =>
      obtain ⟨r', hread, hfollows⟩ := h.snoc_opening answer hw
      exact ⟨r', n + 1, hread, hfollows⟩
  | closing => exact h.snoc_closing answer hw hs
  | answer =>
      obtain ⟨r', hread, hfollows⟩ := h.snoc_answer hfinite hw
      exact ⟨r', n, hread, hfollows⟩
  | operator o =>
      obtain ⟨r', hread, hfollows⟩ := h.snoc_operator hw hs
      exact ⟨r', n, hread, hfollows⟩
  | digit d =>
      obtain ⟨r', hread, hfollows⟩ := h.snoc_digit answer hw
      exact ⟨r', n, hread, hfollows⟩
  | point =>
      obtain ⟨r', hread, hfollows⟩ := h.snoc_point answer hw hs
      exact ⟨r', n, hread, hfollows⟩

end Reader

/-! ## All keys -/

theorem Key.apart_of_meets {a b : Key} (h : a.meets b = true) : a.Apart b := by
  constructor
  · rintro rfl
    cases hb : b.isOperand with
    | false => rfl
    | true =>
        have hmeets : (!b.isOperand) = true := h
        rw [hb] at hmeets
        cases hmeets
  · rintro rfl
    cases a with
    | digit _ | point | answer => cases h
    | _ => rfl

/-- **WELL-FORMED KEYS ARE READ**: without a stranded point the reader gets
    through the plain text of well-formed keys. -/
theorem read_wellFormed {answer : Float} (hfinite : answer.isFinite = true)
    {keys : List Key} (hw : WellFormed keys) (hs : ¬ Stranded keys) :
    ∃ r n, Reader.start.read (ofKeys answer keys) = .ok r
      ∧ r.Follows n keys := by
  -- from the end, for what comes last decides where the reader stands
  induction keys using List.reverseRecOn with
  | nil => exact ⟨Reader.start, 0, rfl, Reader.follows_start⟩
  | append_singleton keys k ih =>
      obtain ⟨r, n, hread, hfollows⟩ :=
        ih hw.left fun hstranded => hs (hstranded.append [k])
      obtain ⟨r', n', hread', hfollows'⟩ := hfollows.snoc hfinite hw hs
      refine ⟨r', n', ?_, hfollows'⟩
      have hapart : ∀ a ∈ keys.getLast?, ∀ b ∈ [k].head?, a.Apart b := by
        intro a ha b hb
        exact Key.apart_of_meets
          ((List.isChain_append.mp hw.neighbours).2.2 a ha b hb)
      rw [Plain.ofKeys_append hfinite hapart, Plain.ofKeys_singleton hfinite,
        List.append_assoc, Reader.read_append, hread]
      exact hread'

/-- Where an operand or a group is done and no parenthesis is open, the text
    of the keys has a program. -/
theorem ofText_of_canEnd {answer : Float} (hfinite : answer.isFinite = true)
    {front : List Key} {a : Key} (hw : WellFormed (front ++ [a]))
    (hs : ¬ Stranded (front ++ [a])) (ha : a.canEnd = true)
    (hpoint : a = .point → front.getLast?.any Key.isDigit = true)
    (hdepth : Key.depthFrom 0 (front ++ [a]) = some 0) :
    ∃ p, Program.ofText (ofKeys answer (front ++ [a])) = .ok p := by
  obtain ⟨r, n, hread, hfollows⟩ := read_wellFormed hfinite hw hs
  have hzero : n = 0 := by
    have hsame := hfollows.1
    rw [hdepth] at hsame
    exact (Option.some.inj hsame).symm
  have hsettles := hfollows.settles ha hpoint
  rw [hzero] at hsettles
  obtain ⟨p, hp⟩ := hsettles.finish
  refine ⟨p, ?_⟩
  rw [Reader.ofText_eq_read, hread]
  exact hp

/-- Keys at whose end nothing is missing but `n` closing parentheses. -/
structure Closable (n : Nat) (keys : List Key) : Prop where
  wellFormed : WellFormed keys
  notStranded : ¬ Stranded keys
  /-- No operand is due. -/
  done : Rule.lacksOperand keys.getLast? = false
  depth : Key.depthFrom 0 keys = some n

/-- **COMPLETE KEYS HAVE A PROGRAM**: keys at whose end nothing is missing. -/
theorem Closable.program {answer : Float} (hfinite : answer.isFinite = true)
    {keys : List Key} (h : Closable 0 keys) :
    ∃ p, Program.ofText (ofKeys answer keys) = .ok p := by
  have hend := h.done
  rcases due_or_done keys with ⟨hlast, -⟩ | ⟨front, a, rfl, ha⟩
  · rw [hend] at hlast
    cases hlast
  · refine ofText_of_canEnd hfinite h.wellFormed h.notStranded ha ?_ h.depth
    rintro rfl
    rw [List.getLast?_concat] at hend
    cases hend

end Keypad
