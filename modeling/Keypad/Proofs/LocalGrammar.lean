import Keypad.Proofs.CarefulUse
import Keypad.Proofs.PhraseForm
import Mathlib.Data.List.Pairwise

/-! # The local grammar — sentences by their neighbours

    Toward: keys are a sentence of the keypad exactly if they are `Orderly`,
    their parentheses pair up and the last one may end an expression.

    The grammar nests and the conditions on orderly keys do not: they concern
    neighbours, the points of one number, the first key and a counter.  One
    direction goes up the grammar, and the seam between two parts is all that
    has to be looked at (`Linked.append`).  The other goes through the keys
    from left to right and keeps what they are the beginning of: the groups
    that are open, each with its place in a sentence (`Enclosing`), and how
    far the sentence inside the last of them has come (`Reached`). -/

namespace Keypad

open Phrase (Formed IsSentence Juxtaposed PointsFollowed numberKeys)

/-- Keys that keep to the grammar, as far as they go. -/
structure Orderly (keys : List Key) : Prop where
  tidy : Tidy keys
  followed : PointsFollowed keys

namespace Orderly

theorem nil : Orderly [] := ⟨Tidy.nil, List.IsChain.nil⟩

/-- What stands in front is orderly as well. -/
theorem left {v w : List Key} (h : Orderly (v ++ w)) : Orderly v :=
  ⟨h.tidy.left, h.followed.left_of_append⟩

end Orderly

theorem Phrase.PointsFollowed.seam {front rest : List Key} {a b : Key}
    (h : PointsFollowed (front ++ [a] ++ b :: rest)) (ha : a = .point) :
    b.isDigit = true ∨ b.isOperator = true :=
  (List.isChain_append.mp h).2.2 a List.getLast?_concat b rfl ha

/-! ## From a sentence to its neighbours -/

/-- What holds of any part of orderly keys. -/
structure Linked (keys : List Key) : Prop where
  neighbours : keys.IsChain fun a b => a.meets b = true
  led : keys.IsChain fun a b => b = .point → a.isDigit = true
  points : ∀ run, run <:+: keys → (∀ k ∈ run, k.isNumeric = true) →
    run.count .point ≤ 1

namespace Key

/-- Neighbours that belong to different parts of a sentence. -/
structure Parted (a b : Key) : Prop where
  meets : a.meets b = true
  ne_point : b ≠ .point
  /-- No number goes across. -/
  apart : a.isNumeric = false ∨ b.isNumeric = false

theorem parted_opening {b : Key} (hb : b.canStart = true) :
    opening.Parted b := by
  cases b with
  | digit _ | opening | answer => exact ⟨rfl, Key.noConfusion, Or.inl rfl⟩
  | operator o =>
      cases o with
      | subtract => exact ⟨rfl, Key.noConfusion, Or.inl rfl⟩
      | add | multiply | divide | remainder => cases hb
  | point | closing => cases hb

theorem parted_closing {a : Key} (ha : a.canEnd = true) (hpoint : a ≠ .point) :
    a.Parted .closing := by
  cases a with
  | digit _ | answer | closing => exact ⟨rfl, Key.noConfusion, Or.inr rfl⟩
  | point => exact absurd rfl hpoint
  | operator _ | opening => cases ha

theorem parted_after_operator (o : Operator) {b : Key}
    (hb : b.canStart = true) (hoperator : b.isOperator = false) :
    (operator o).Parted b := by
  cases b with
  | digit _ | opening | answer => exact ⟨rfl, Key.noConfusion, Or.inl rfl⟩
  | operator _ => cases hoperator
  | point | closing => cases hb

theorem parted_before_operator {a : Key} (ha : a.canEnd = true)
    (o : Operator) : a.Parted (operator o) := by
  cases a with
  | digit _ | point | answer | closing =>
      exact ⟨rfl, Key.noConfusion, Or.inr rfl⟩
  | operator _ | opening => cases ha

/-- A group is parted from the factor beside it. -/
theorem parted_group {a b : Key} (ha : a.canEnd = true)
    (hb : b.canStart = true) (hgroup : a = .closing ∨ b = .opening)
    (hpoint : ¬ (a = .point ∧ b = .opening)) : a.Parted b := by
  rcases hgroup with rfl | rfl
  · refine ⟨rfl, ?_, Or.inl rfl⟩
    rintro rfl
    cases hb
  · cases a with
    | digit _ | answer | closing => exact ⟨rfl, Key.noConfusion, Or.inr rfl⟩
    | point => exact absurd ⟨rfl, rfl⟩ hpoint
    | operator _ | opening => cases ha

theorem meets_of_isNumeric {a b : Key} (ha : a.isNumeric = true)
    (hb : b.isNumeric = true) : a.meets b = true := by
  cases a with
  | digit _ | point =>
      cases b with
      | digit _ | point => rfl
      | operator _ | opening | closing | answer => cases hb
  | operator _ | opening | closing | answer => cases ha

end Key

/-- Numeric keys do not go across a seam where one of the two keys is not
    numeric. -/
theorem part_of_seam {run front rest : List Key} {a b : Key}
    (h : run <:+: front ++ [a] ++ b :: rest)
    (hseam : a.isNumeric = false ∨ b.isNumeric = false)
    (hrun : ∀ k ∈ run, k.isNumeric = true) :
    run <:+: front ++ [a] ∨ run <:+: b :: rest := by
  obtain ⟨s, t, heq⟩ := h
  rw [List.append_assoc s run t] at heq
  rcases List.append_eq_append_iff.mp heq with
    ⟨v, hleft, hrest⟩ | ⟨s', -, hright⟩
  · rcases List.append_eq_append_iff.mp hrest with
      ⟨x, rfl, -⟩ | ⟨x, rfl, hright⟩
    · exact Or.inl ⟨s, x, by rw [hleft, List.append_assoc]⟩
    · -- what is left and right of the seam
      rcases List.eq_nil_or_concat v with rfl | ⟨v', a', rfl⟩
      · exact Or.inr ⟨[], t, hright.symm⟩
      cases x with
      | nil => exact Or.inl ⟨s, [], by rw [hleft]; simp⟩
      | cons b' x' =>
          obtain ⟨rfl, -⟩ := List.cons.inj hright
          rw [List.concat_eq_append, ← List.append_assoc] at hleft
          obtain ⟨-, hlast⟩ := List.append_inj' hleft rfl
          obtain rfl := (List.cons.inj hlast).1
          have ha : a.isNumeric = true := hrun a (by simp)
          have hb : b.isNumeric = true := hrun b (by simp)
          rw [ha, hb] at hseam
          rcases hseam with hfalse | hfalse <;> cases hfalse
  · exact Or.inr ⟨s', t, by rw [hright, List.append_assoc]⟩

namespace Linked

theorem singleton (k : Key) : Linked [k] where
  neighbours := List.isChain_singleton k
  led := List.isChain_singleton k
  points _ hrun _ := le_trans List.count_le_length hrun.sublist.length_le

/-- Two parts that go together at their seam. -/
theorem seam {front rest : List Key} {a b : Key} (hv : Linked (front ++ [a]))
    (hw : Linked (b :: rest)) (hseam : a.Parted b) :
    Linked (front ++ [a] ++ b :: rest) where
  neighbours := by
    refine List.isChain_append.mpr ⟨hv.neighbours, hw.neighbours, ?_⟩
    intro a' ha' b' hb'
    rw [List.getLast?_concat] at ha'
    obtain rfl := Option.some.inj ha'
    obtain rfl := Option.some.inj hb'
    exact hseam.meets
  led := by
    refine List.isChain_append.mpr ⟨hv.led, hw.led, ?_⟩
    intro a' _ b' hb' hpoint
    obtain rfl := Option.some.inj hb'
    exact absurd hpoint hseam.ne_point
  points run hrun hnumeric := by
    rcases part_of_seam hrun hseam.apart hnumeric with hpart | hpart
    · exact hv.points run hpart hnumeric
    · exact hw.points run hpart hnumeric

/-- One key in front of a part. -/
theorem cons {rest : List Key} {a b : Key} (hw : Linked (b :: rest))
    (hseam : a.Parted b) : Linked (a :: b :: rest) :=
  @seam [] rest a b (singleton a) hw hseam

end Linked

namespace Phrase

theorem isNumeric_of_mem_numberKeys {whole : List (Fin 10)}
    {fraction : Option (List (Fin 10))} {k : Key}
    (hk : k ∈ numberKeys whole fraction) : k.isNumeric = true := by
  cases fraction with
  | none =>
      obtain ⟨d, -, rfl⟩ := List.mem_map.mp hk
      rfl
  | some f =>
      simp only [numberKeys, List.mem_append, List.mem_cons, List.mem_map] at hk
      rcases hk with ⟨d, -, rfl⟩ | rfl | ⟨d, -, rfl⟩ <;> rfl

theorem count_point_digits (ds : List (Fin 10)) :
    (ds.map Key.digit).count .point = 0 := by
  rw [List.count_eq_zero]
  simp

/-- Digits have no point among them. -/
theorem isChain_digits (ds : List (Fin 10)) :
    (ds.map Key.digit).IsChain fun a b => b = .point → a.isDigit = true := by
  refine (List.pairwise_of_forall_mem_list ?_).isChain
  rintro a - b hb rfl
  simp at hb

/-- The keys of a number go together, and it has one point at most. -/
theorem linked_numberKeys {whole : List (Fin 10)}
    (fraction : Option (List (Fin 10))) : Linked (numberKeys whole fraction) where
  neighbours := by
    refine (List.pairwise_of_forall_mem_list ?_).isChain
    intro a ha b hb
    exact Key.meets_of_isNumeric (isNumeric_of_mem_numberKeys ha)
      (isNumeric_of_mem_numberKeys hb)
  led := by
    cases fraction with
    | none => exact isChain_digits whole
    | some f =>
        refine List.isChain_append.mpr ⟨isChain_digits whole,
          List.isChain_cons.mpr ⟨?_, isChain_digits f⟩, ?_⟩
        · rintro b hb rfl
          simp [List.head?_map] at hb
        · intro a ha b _ _
          simp only [List.getLast?_map, Option.mem_def, Option.map_eq_some_iff]
            at ha
          obtain ⟨d, -, rfl⟩ := ha
          rfl
  points run hrun _ := by
    refine le_trans (hrun.sublist.count_le _) ?_
    cases fraction with
    | none => simp [numberKeys, count_point_digits]
    | some f => simp [numberKeys, List.count_append, count_point_digits]

/-- **FORMED KEYS ARE LINKED**, if what follows their points may follow. -/
theorem Formed.linked {form : Form} {keys : List Key} (h : Formed form keys)
    (hfollowed : PointsFollowed keys) : Linked keys := by
  induction h with
  | number whole fraction hne => exact linked_numberKeys fraction
  | answer => exact .singleton .answer
  | group hw ih =>
      obtain ⟨b, rest, hfirst, hstart, -⟩ := hw.head
      obtain ⟨front, a, rfl, ha⟩ := hw.last
      have hinner := (List.isChain_append.mp hfollowed).1
      have hpoint : a ≠ .point := by
        intro hpoint
        rcases @PointsFollowed.seam (.opening :: front) [] a .closing
          hfollowed hpoint with hdigit | hoperator
        · cases hdigit
        · cases hoperator
      have hend := (ih (List.isChain_cons.mp hinner).2).seam
        (.singleton .closing) (Key.parted_closing ha hpoint)
      rw [hfirst] at hend ⊢
      exact Linked.cons hend (Key.parted_opening hstart)
  | single _ ih | plain _ ih => exact ih hfollowed
  | implied hjuxtaposed hv hw ihv ihw =>
      obtain ⟨b, rest, rfl, hstart, -⟩ := hw.head
      obtain ⟨front, a, rfl, ha⟩ := hv.last
      obtain ⟨hleft, hright, -⟩ := List.isChain_append.mp hfollowed
      have hpoint : ¬ (a = .point ∧ b = .opening) := by
        rintro ⟨rfl, rfl⟩
        rcases hfollowed.seam rfl with hdigit | hoperator
        · cases hdigit
        · cases hoperator
      exact (ihv hleft).seam (ihw hright)
        (Key.parted_group ha hstart hjuxtaposed.group hpoint)
  | negated hw ih =>
      obtain ⟨b, rest, rfl, hstart, hoperator⟩ := hw.head
      exact (ih (List.isChain_cons.mp hfollowed).2).cons
        (Key.parted_after_operator .subtract hstart
          (hoperator Form.noConfusion))
  | joined o hv hw ihv ihw =>
      obtain ⟨b, rest, rfl, hstart, hoperator⟩ := hw.head
      obtain ⟨front, a, rfl, ha⟩ := hv.last
      obtain ⟨hleft, hright, -⟩ := List.isChain_append.mp hfollowed
      have hproduct := (ihw (List.isChain_cons.mp hright).2).cons
        (Key.parted_after_operator o hstart (hoperator Form.noConfusion))
      exact (ihv hleft).seam hproduct (Key.parted_before_operator ha o)

/-- **A SENTENCE IS ORDERLY**. -/
theorem IsSentence.orderly {keys : List Key} (h : IsSentence keys) :
    Orderly keys where
  tidy := by
    have hlinked := h.formed.linked h.followed
    obtain ⟨k, rest, rfl, hstart, -⟩ := h.formed.head
    refine ⟨⟨?_, hlinked.neighbours, hlinked.points, ?_⟩, hlinked.led⟩
    · intro k' hk'
      obtain rfl := Option.some.inj hk'
      exact hstart
    · rw [h.formed.depth 0]
      rfl
  followed := h.followed

end Phrase

/-! ## From the neighbours to a sentence -/

namespace Phrase

variable {u : List Key}

/-- Behind the keys any factor makes a sentence. -/
def Expects (u : List Key) : Prop :=
  ∀ f, Formed .factor f → Formed (.sentence true) (u ++ f)

theorem expects_nil : Expects [] := fun _ hf => .plain (.single hf)

theorem expects_minus : Expects [.operator .subtract] :=
  fun _ hf => .negated (.single hf)

theorem expects_operator (h : Formed (.sentence true) u) (o : Operator) :
    Expects (u ++ [.operator o]) := by
  intro f hf
  rw [List.append_assoc]
  exact .joined o h (.single hf)

theorem expects_closing (h : Formed (.sentence true) u)
    (hclosing : u.getLast? = some .closing) : Expects u :=
  fun _ hf => h.followed hf (Or.inl hclosing)

/-- Behind the keys any group makes a sentence. -/
def TakesGroup (u : List Key) : Prop :=
  ∀ w, Formed (.sentence true) w →
    Formed (.sentence true) (u ++ (.opening :: w ++ [.closing]))

theorem Expects.takesGroup (h : Expects u) : TakesGroup u :=
  fun _ hw => h _ (.group hw)

theorem Formed.takesGroup (h : Formed (.sentence true) u) : TakesGroup u :=
  fun _ hw => h.followed (.group hw) (Or.inr rfl)

/-- The keys up to the last of `n` open groups, each of which stands where it
    may. -/
inductive Enclosing : Nat → List Key → Prop where
  | outside : Enclosing 0 []
  | inside {n e u} : Enclosing n e → TakesGroup u →
      Enclosing (n + 1) (e ++ u ++ [.opening])

/-- How far a sentence has come with keys `u` after a key `last`. -/
def Reached (u : List Key) : (last : Option Key) → Prop
  | none | some .opening => u = []
  | some (.operator _) => Expects u
  | some .closing | some .answer => Formed (.sentence true) u
  | some (.digit _) | some .point =>
      ∃ v whole fraction, u = v ++ numberKeys whole fraction ∧ whole ≠ []
        ∧ Expects v

/-- The keys are the beginning of a sentence with `n` groups open. -/
def Begins (n : Nat) (keys : List Key) : Prop :=
  Key.depthFrom 0 keys = some n
    ∧ ∃ e u, keys = e ++ u ∧ Enclosing n e ∧ Reached u keys.getLast?

theorem begins_nil : Begins 0 [] := ⟨rfl, [], [], rfl, .outside, rfl⟩

/-- After a digit or a point a number has begun. -/
theorem reached_numeric {k : Key} (hk : k.isNumeric = true) :
    Reached u (some k) ↔ ∃ v whole fraction,
      u = v ++ numberKeys whole fraction ∧ whole ≠ [] ∧ Expects v := by
  cases k with
  | digit _ | point => exact Iff.rfl
  | operator _ | opening | closing | answer => cases hk

/-- After a key that may end an expression the sentence may end. -/
theorem Reached.formed {a : Key} (h : Reached u (some a))
    (ha : a.canEnd = true) : Formed (.sentence true) u := by
  cases a with
  | closing | answer => exact h
  | digit _ | point =>
      obtain ⟨v, whole, fraction, rfl, hne, hv⟩ := h
      exact hv _ (.number whole fraction hne)
  | operator _ | opening => cases ha

/-- Where an operand is due and an operator comes, nothing of the sentence has
    come before. -/
theorem Reached.eq_nil {keys : List Key} {o : Operator}
    (h : Reached u keys.getLast?) (hw : WellFormed (keys ++ [Key.operator o]))
    (hlast : Rule.lacksOperand keys.getLast? = true)
    (hpoint : keys.getLast? ≠ some .point) : u = [] := by
  rcases List.eq_nil_or_concat keys with rfl | ⟨front, a, rfl⟩
  · exact h
  · rw [List.concat_eq_append] at hw h hlast hpoint
    rw [List.getLast?_concat] at h hlast hpoint
    have hmeets : a.meets (.operator o) = true := hw.meets
    cases a with
    | opening => exact h
    | operator _ => cases hmeets
    | point => exact absurd rfl hpoint
    | digit _ | closing | answer => cases hlast

/-- Where an operand is due a factor is expected. -/
theorem Reached.expects {last : Option Key} (h : Reached u last)
    (hlast : Rule.lacksOperand last = true) (hpoint : last ≠ some .point) :
    Expects u := by
  cases last with
  | none =>
      obtain rfl : u = [] := h
      exact expects_nil
  | some a =>
      cases a with
      | opening =>
          obtain rfl : u = [] := h
          exact expects_nil
      | operator _ => exact h
      | point => exact absurd rfl hpoint
      | digit _ | closing | answer => cases hlast

namespace Begins

variable {n : Nat} {keys : List Key}

/-- A factor is expected where an operand is due and after a group. -/
theorem exists_expects (h : Begins n keys)
    (hlast : keys.getLast? = some .closing
      ∨ Rule.lacksOperand keys.getLast? = true ∧ keys.getLast? ≠ some .point) :
    ∃ e u, keys = e ++ u ∧ Enclosing n e ∧ Expects u := by
  obtain ⟨-, e, u, hkeys, he, hu⟩ := h
  refine ⟨e, u, hkeys, he, ?_⟩
  rcases hlast with hclosing | ⟨hlast, hpoint⟩
  · rw [hclosing] at hu
    have hformed : Formed (.sentence true) u := hu
    refine expects_closing hformed ?_
    rw [← hclosing, hkeys, List.getLast?_append_of_ne_nil _ hformed.ne_nil]
  · exact hu.expects hlast hpoint

/-- A group is opened where a factor is expected and beside a factor. -/
theorem snoc_opening (h : Begins n keys) :
    Begins (n + 1) (keys ++ [.opening]) := by
  have hdepth := Key.depthFrom_concat h.1 .opening
  obtain ⟨-, e, u, hkeys, he, hu⟩ := h
  have hgroup : TakesGroup u := by
    rcases due_or_done keys with ⟨hlast, hpoint⟩ | ⟨front, a, rfl, ha⟩
    · exact (hu.expects hlast hpoint).takesGroup
    · rw [List.getLast?_concat] at hu
      exact (hu.formed ha).takesGroup
  refine ⟨hdepth, e ++ u ++ [.opening], [], ?_, .inside he hgroup, ?_⟩
  · rw [hkeys, List.append_nil]
  · rw [List.getLast?_concat]
    rfl

/-- A group is closed where the sentence in it may end. -/
theorem snoc_closing (h : Begins n keys)
    (hw : WellFormed (keys ++ [Key.closing])) :
    ∃ m, Begins m (keys ++ [.closing]) := by
  have hdepth := Key.depthFrom_concat h.1 .closing
  obtain ⟨-, e, u, hkeys, he, hu⟩ := h
  obtain ⟨front, a, hfront, ha⟩ := hw.canEnd_before_closing
  rw [hfront, List.getLast?_concat] at hu
  have hformed := hu.formed ha
  cases he with
  | outside =>
      -- without an open parenthesis the keys would not be well-formed
      have hcloses := hw.closes
      rw [hdepth] at hcloses
      cases hcloses
  | @inside n e' u' he' hgroup =>
      refine ⟨n, hdepth, e', u' ++ (.opening :: u ++ [.closing]), ?_, he', ?_⟩
      · rw [hkeys]
        simp
      · rw [List.getLast?_concat]
        exact hgroup u hformed

/-- The answer is a factor. -/
theorem snoc_answer (h : Begins n keys)
    (hw : WellFormed (keys ++ [Key.answer])) :
    Begins n (keys ++ [.answer]) := by
  have hlast : keys.getLast? = some .closing
      ∨ Rule.lacksOperand keys.getLast? = true ∧ keys.getLast? ≠ some .point := by
    rcases due_or_done keys with hdue | ⟨front, a, rfl, ha⟩
    · exact Or.inr hdue
    · have hmeets : a.meets .answer = true := hw.meets
      cases a with
      | closing => exact Or.inl List.getLast?_concat
      | digit _ | point | answer => cases hmeets
      | operator _ | opening => cases ha
  obtain ⟨e, u, hkeys, he, hu⟩ := h.exists_expects hlast
  refine ⟨Key.depthFrom_concat h.1 .answer, e, u ++ [.answer], ?_, he, ?_⟩
  · rw [hkeys, List.append_assoc]
  · rw [List.getLast?_concat]
    exact hu _ .answer

/-- An operator comes behind a sentence, or it is the minus in front of
    one. -/
theorem snoc_operator (h : Begins n keys) {o : Operator}
    (hw : WellFormed (keys ++ [Key.operator o])) :
    Begins n (keys ++ [.operator o]) := by
  have hdepth := Key.depthFrom_concat h.1 (.operator o)
  obtain ⟨-, e, u, hkeys, he, hu⟩ := h
  refine ⟨hdepth, e, u ++ [.operator o], ?_, he, ?_⟩
  · rw [hkeys, List.append_assoc]
  · rw [List.getLast?_concat]
    show Expects (u ++ [.operator o])
    rcases due_or_done keys with ⟨hlast, hpoint⟩ | ⟨front, a, hfront, ha⟩
    · obtain rfl := hw.eq_subtract hlast hpoint
      obtain rfl : u = [] := hu.eq_nil hw hlast hpoint
      exact expects_minus
    · rw [hfront, List.getLast?_concat] at hu
      exact expects_operator (hu.formed ha) o

/-- A number goes on with one more digit or point. -/
theorem extend {front : List Key} {a k : Key} (h : Begins n (front ++ [a]))
    (ha : a.isNumeric = true) (hw : WellFormed (front ++ [a] ++ [k]))
    (hk : k.isNumeric = true) : Begins n (front ++ [a] ++ [k]) := by
  have hdepth : Key.depthFrom 0 (front ++ [a] ++ [k]) = some n := by
    rw [Key.depthFrom_concat h.1]
    cases k with
    | digit _ | point => rfl
    | operator _ | opening | closing | answer => cases hk
  obtain ⟨-, e, u, hkeys, he, hu⟩ := h
  rw [List.getLast?_concat, reached_numeric ha] at hu
  obtain ⟨v, whole, fraction, rfl, hne, hv⟩ := hu
  rw [← List.append_assoc] at hkeys
  obtain ⟨whole', fraction', hkeys', hne', -⟩ := numberKeys_concat hw hk hkeys
  refine ⟨hdepth, e, v ++ numberKeys whole' fraction', ?_, he, ?_⟩
  · rw [hkeys', List.append_assoc]
  · rw [List.getLast?_concat, reached_numeric hk]
    exact ⟨v, whole', fraction', rfl, hne' hne, hv⟩

/-- A digit goes on with the number before it, or a number begins. -/
theorem snoc_digit (h : Begins n keys) {d : Fin 10}
    (hw : WellFormed (keys ++ [Key.digit d])) :
    Begins n (keys ++ [.digit d]) := by
  have hbegin : (keys.getLast? = some .closing
      ∨ Rule.lacksOperand keys.getLast? = true
        ∧ keys.getLast? ≠ some .point) → Begins n (keys ++ [.digit d]) := by
    intro hlast
    obtain ⟨e, u, hkeys, he, hu⟩ := h.exists_expects hlast
    refine ⟨Key.depthFrom_concat h.1 (.digit d), e, u ++ [.digit d], ?_, he, ?_⟩
    · rw [hkeys, List.append_assoc]
    · rw [List.getLast?_concat]
      exact ⟨u, [d], none, rfl, List.cons_ne_nil d [], hu⟩
  rcases due_or_done keys with hdue | ⟨front, a, rfl, ha⟩
  · exact hbegin (Or.inr hdue)
  · have hmeets : a.meets (.digit d) = true := hw.meets
    cases a with
    | digit _ | point => exact h.extend rfl hw rfl
    | closing => exact hbegin (Or.inl List.getLast?_concat)
    | answer => cases hmeets
    | operator _ | opening => cases ha

/-- A point goes on with the digits before it. -/
theorem snoc_point (h : Begins n keys) (htidy : Tidy (keys ++ [Key.point])) :
    Begins n (keys ++ [.point]) := by
  have hdigit := htidy.isDigit_before
  rcases List.eq_nil_or_concat keys with rfl | ⟨front, a, rfl⟩
  · cases hdigit
  · rw [List.concat_eq_append] at h htidy hdigit ⊢
    rw [List.getLast?_concat] at hdigit
    exact h.extend (Key.isNumeric_of_isDigit hdigit) htidy.wellFormed rfl

/-- **ONE MORE KEY**: with one more key at their end, tidy keys still are the
    beginning of a sentence. -/
theorem snoc {k : Key} (h : Begins n keys) (htidy : Tidy (keys ++ [k])) :
    ∃ m, Begins m (keys ++ [k]) := by
  have hw := htidy.wellFormed
  cases k with
  | opening => exact ⟨n + 1, h.snoc_opening⟩
  | closing => exact h.snoc_closing hw
  | answer => exact ⟨n, h.snoc_answer hw⟩
  | operator o => exact ⟨n, h.snoc_operator hw⟩
  | digit d => exact ⟨n, h.snoc_digit hw⟩
  | point => exact ⟨n, h.snoc_point htidy⟩

end Begins

/-- **TIDY KEYS BEGIN A SENTENCE**. -/
theorem exists_begins {keys : List Key} (h : Tidy keys) :
    ∃ n, Begins n keys := by
  -- from the end, for what comes last decides how far the sentence has come
  induction keys using List.reverseRecOn with
  | nil => exact ⟨0, begins_nil⟩
  | append_singleton keys k ih =>
      obtain ⟨n, hbegins⟩ := ih h.left
      exact hbegins.snoc h

/-- Tidy keys are formed where no parenthesis is open and the last key may
    end an expression. -/
theorem formed_of_tidy {keys : List Key} (h : Tidy keys)
    (hdepth : Key.depthFrom 0 keys = some 0)
    (hend : keys.getLast?.any Key.canEnd = true) :
    Formed (.sentence true) keys := by
  obtain ⟨n, hsame, e, u, hkeys, he, hu⟩ := exists_begins h
  obtain rfl : n = 0 := by
    rw [hdepth] at hsame
    exact (Option.some.inj hsame).symm
  cases he
  obtain rfl : keys = u := hkeys
  cases hlast : keys.getLast? with
  | none =>
      rw [hlast] at hend
      cases hend
  | some a =>
      rw [hlast] at hend hu
      exact hu.formed hend

/-- **THE GRAMMAR BY NEIGHBOURS**: keys are a sentence exactly if they are
    orderly, no parenthesis is open and the last key may end an
    expression. -/
theorem isSentence_iff {keys : List Key} :
    IsSentence keys ↔ Orderly keys ∧ Key.depthFrom 0 keys = some 0
      ∧ keys.getLast?.any Key.canEnd = true := by
  constructor
  · intro h
    refine ⟨h.orderly, h.formed.depth 0, ?_⟩
    obtain ⟨front, a, rfl, ha⟩ := h.formed.last
    rw [List.getLast?_concat]
    exact ha
  · rintro ⟨horderly, hdepth, hend⟩
    exact ⟨formed_of_tidy horderly.tidy hdepth hend, horderly.followed⟩

end Phrase

end Keypad
