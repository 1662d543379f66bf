import Keypad.Sentence
import Keypad.Yard

/-! # Grammar — sentences found from left to right

    How tightly operators bind says how a sentence is built and not whether
    there is one: with a structure or without, the sentences are the same
    (`grammatical_iff`).

    Whether lexemes are a sentence shows on a walk over them that keeps two
    things, the slot and the number of open parentheses.  The grammar is
    followed by the walk lexeme by lexeme (`Grammatical.walk`).  Back from the
    walk to the grammar, the lexemes up to some place are explained by what
    they lack: an operand in every open parenthesis, and where an operand is
    due one more (`Position.Explains`). -/

namespace Keypad

/-! ## With a structure and without -/

/-- The part of a sentence that a category makes up. -/
def Category.part : Category → Part
  | .sum | .product => .sentence
  | .signed => .operand
  | .atom => .atom

/-- The category of a part: the loosest one that makes it up. -/
def Part.category : Part → Category
  | .sentence => .sum
  | .operand => .signed
  | .atom => .atom

namespace Grammatical

/-- Two sentences with an operator between them are a sentence. -/
theorem join {p : Part} {v w : List Lexeme} (o : Operator)
    (hv : Grammatical .sentence v) (hw : Grammatical p w)
    (hp : p = .sentence) : Grammatical .sentence (v ++ .operator o :: w) := by
  -- along the operands of the second sentence
  induction hw with
  | single h _ => exact .joined o hv h
  | @joined v' w' o' _ h ih _ =>
      have hjoined := Grammatical.joined o' (ih rfl) h
      rw [List.append_assoc] at hjoined
      exact hjoined
  | number | group | unsigned | sign => cases hp

end Grammatical

/-- A phrase is grammatical. -/
theorem Sentence.grammatical {c : Category} {w : List Lexeme} {t : Tree}
    (h : Sentence c w t) : Grammatical c.part w := by
  induction h with
  | number x => exact .number x
  | group _ ih => exact .group ih
  | unsigned _ ih => exact .unsigned ih
  | sign s _ ih => exact .sign s ih
  | factor _ ih => exact .single ih
  | product o _ _ _ ihl ihr => exact .joined o ihl ihr
  | term _ ih => exact ih
  | sum o _ _ _ ihl ihr => exact ihl.join o ihr rfl

/-- One more operand goes to the end of a sum, or into its last product. -/
theorem Sentence.exists_join {v w : List Lexeme} {l r : Tree} (o : Operator)
    (hv : Sentence .sum v l) (hw : Sentence .signed w r) :
    ∃ t, Sentence .sum (v ++ .operator o :: w) t := by
  rcases o.additive_or_multiplicative with ho | ho
  · exact ⟨_, .sum o ho hv (.factor hw)⟩
  · cases hv with
    | term hv => exact ⟨_, .term (.product o ho hv hw)⟩
    | sum o' ho' hv hlast =>
        have hsum := Sentence.sum o' ho' hv (.product o ho hlast hw)
        rw [← List.cons_append, ← List.append_assoc] at hsum
        exact ⟨_, hsum⟩

/-- What is grammatical has a structure. -/
theorem Grammatical.exists_sentence {p : Part} {w : List Lexeme}
    (h : Grammatical p w) : ∃ t, Sentence p.category w t := by
  induction h with
  | number x => exact ⟨_, .number x⟩
  | group _ ih =>
      obtain ⟨t, ht⟩ := ih
      exact ⟨t, .group ht⟩
  | unsigned _ ih =>
      obtain ⟨t, ht⟩ := ih
      exact ⟨t, .unsigned ht⟩
  | sign s _ ih =>
      obtain ⟨t, ht⟩ := ih
      exact ⟨_, .sign s ht⟩
  | single _ ih =>
      obtain ⟨t, ht⟩ := ih
      exact ⟨t, .term (.factor ht)⟩
  | joined o _ _ ihv ihw =>
      obtain ⟨l, hl⟩ := ihv
      obtain ⟨r, hr⟩ := ihw
      exact hl.exists_join o hr

/-- **EVERY SENTENCE HAS A STRUCTURE**, and only a sentence has one. -/
theorem grammatical_iff {w : List Lexeme} :
    Grammatical .sentence w ↔ ∃ t, Sentence .sum w t := by
  constructor
  · intro h
    exact h.exists_sentence
  · rintro ⟨t, ht⟩
    exact ht.grammatical

/-! ## The walk -/

/-- What is due, and how many parentheses are open. -/
structure Position where
  slot : Slot
  opened : Nat
deriving DecidableEq, Repr

namespace Position

/-- Where a sentence starts. -/
def start : Position := ⟨.operand, 0⟩

/-- Where a sentence may end. -/
def goal : Position := ⟨.operator, 0⟩

/-- The position after a lexeme, if it may stand here. -/
def step : Position → Lexeme → Option Position
  | ⟨.operand, n⟩, .number _ => some ⟨.operator, n⟩
  | ⟨.operand, n⟩, .operator .add => some ⟨.operand, n⟩
  | ⟨.operand, n⟩, .operator .subtract => some ⟨.operand, n⟩
  | ⟨.operand, n⟩, .opening => some ⟨.operand, n + 1⟩
  | ⟨.operator, n⟩, .operator _ => some ⟨.operand, n⟩
  | ⟨.operator, n + 1⟩, .closing => some ⟨.operator, n⟩
  | _, _ => none

/-- The position after lexemes. -/
def walk (p : Position) (w : List Lexeme) : Option Position := w.foldlM step p

@[simp] theorem walk_nil (p : Position) : p.walk [] = some p := rfl

@[simp] theorem walk_cons (p : Position) (l : Lexeme) (w : List Lexeme) :
    p.walk (l :: w) = (p.step l).bind fun p' => p'.walk w := rfl

theorem walk_append (p : Position) (v w : List Lexeme) :
    p.walk (v ++ w) = (p.walk v).bind fun p' => p'.walk w := by
  show List.foldlM step p (v ++ w) = _
  rw [List.foldlM_append]
  rfl

/-- A walk that gets to the end gets there from every place on its way. -/
theorem exists_walk_of_append {p : Position} {v w : List Lexeme}
    (h : (p.walk (v ++ w)).isSome = true) :
    ∃ p' : Position, (p'.walk w).isSome = true := by
  rw [walk_append] at h
  cases hp' : p.walk v with
  | none =>
      rw [hp'] at h
      cases h
  | some p' =>
      rw [hp'] at h
      exact ⟨p', h⟩

theorem walk_singleton (p : Position) (l : Lexeme) : p.walk [l] = p.step l := by
  rw [walk_cons]
  cases p.step l <;> rfl

@[simp] theorem step_sign (n : Nat) (s : Sign) :
    step ⟨.operand, n⟩ s.lexeme = some ⟨.operand, n⟩ := by
  cases s <;> rfl

end Position

/-- Whatever part of a sentence is walked over, an operator is due after it
    and as many parentheses are open as before. -/
theorem Grammatical.walk {p : Part} {w : List Lexeme} (h : Grammatical p w) :
    ∀ n, Position.walk ⟨.operand, n⟩ w = some ⟨.operator, n⟩ := by
  induction h with
  | number x =>
      intro n
      rfl
  | group _ ih =>
      intro n
      rw [List.cons_append, Position.walk_cons]
      show Position.walk ⟨.operand, n + 1⟩ (_ ++ [Lexeme.closing]) = _
      rw [Position.walk_append, ih]
      rfl
  | unsigned _ ih | single _ ih => exact ih
  | sign s _ ih =>
      intro n
      rw [Position.walk_cons, Position.step_sign]
      exact ih n
  | joined o _ _ ihv ihw =>
      intro n
      rw [Position.walk_append, ihv]
      exact ihw n

/-! ## From the walk to the grammar -/

/-- Any operand makes a sentence of what stands here. -/
def Awaits (u : List Lexeme) : Prop :=
  ∀ w, Grammatical .operand w → Grammatical .sentence (u ++ w)

namespace Awaits

theorem nil : Awaits [] := fun _ hw => .single hw

/-- A sign goes with the operand. -/
theorem sign {u : List Lexeme} (h : Awaits u) (s : Sign) :
    Awaits (u ++ [s.lexeme]) := by
  intro w hw
  rw [List.append_assoc]
  exact h _ (.sign s hw)

/-- After a sentence and an operator one more operand is due. -/
theorem operator {u : List Lexeme} (h : Grammatical .sentence u)
    (o : Operator) : Awaits (u ++ [.operator o]) := by
  intro w hw
  rw [List.append_assoc]
  exact .joined o h hw

end Awaits

/-- The lexemes up to the innermost of `n` open parentheses, each of which
    stands where an operand is due. -/
inductive Enclosing : Nat → List Lexeme → Prop where
  | none : Enclosing 0 []
  | opening {n v u} : Enclosing n v → Awaits u →
      Enclosing (n + 1) (v ++ (u ++ [.opening]))

namespace Position

/-- What the slot says of the lexemes behind the innermost open
    parenthesis. -/
def Completed : Slot → List Lexeme → Prop
  | .operand, u => Awaits u
  | .operator, u => Grammatical .sentence u

/-- How a sentence has come to this position. -/
def Explains (p : Position) (w : List Lexeme) : Prop :=
  ∃ v u, w = v ++ u ∧ Enclosing p.opened v ∧ Completed p.slot u

theorem explains_start : start.Explains [] :=
  ⟨[], [], rfl, .none, Awaits.nil⟩

/-- A step takes the explanation along, one case for each kind of lexeme. -/
theorem Explains.step {p p' : Position} {w : List Lexeme} {l : Lexeme}
    (h : p.Explains w) (hstep : p.step l = some p') :
    p'.Explains (w ++ [l]) := by
  obtain ⟨slot, n⟩ := p
  obtain ⟨v, u, rfl, hv, hu⟩ := h
  -- most lexemes stay behind the innermost open parenthesis
  have hstay : ∀ slot', Completed slot' (u ++ [l]) →
      Explains ⟨slot', n⟩ (v ++ u ++ [l]) := by
    intro slot' hcompleted
    exact ⟨v, u ++ [l], List.append_assoc v u [l], hv, hcompleted⟩
  cases slot with
  | operand =>
      have hu' : Awaits u := hu
      cases l with
      | number x =>
          obtain rfl := Option.some.inj hstep
          exact hstay .operator (hu' _ (.unsigned (.number x)))
      | operator o =>
          cases o with
          | add =>
              obtain rfl := Option.some.inj hstep
              exact hstay .operand (hu'.sign .positive)
          | subtract =>
              obtain rfl := Option.some.inj hstep
              exact hstay .operand (hu'.sign .negative)
          | multiply | divide | remainder => cases hstep
      | opening =>
          obtain rfl := Option.some.inj hstep
          refine ⟨v ++ (u ++ [.opening]), [], ?_, .opening hv hu', Awaits.nil⟩
          rw [List.append_nil, List.append_assoc]
      | closing => cases hstep
  | operator =>
      have hu' : Grammatical .sentence u := hu
      cases l with
      | number x => cases hstep
      | operator o =>
          obtain rfl := Option.some.inj hstep
          exact hstay .operand (Awaits.operator hu' o)
      | opening => cases hstep
      | closing =>
          cases n with
          | zero => cases hstep
          | succ n =>
              -- the group takes its place among what stood in front of it
              obtain rfl := Option.some.inj hstep
              cases hv with
              | @opening _ v u₁ hv hu₁ =>
                  refine ⟨v, u₁ ++ (.opening :: u ++ [.closing]), ?_, hv,
                    hu₁ _ (.unsigned (.group hu'))⟩
                  simp

theorem Explains.walk {w : List Lexeme} :
    ∀ {p p' : Position} {v : List Lexeme}, p.Explains v →
      p.walk w = some p' → p'.Explains (v ++ w) := by
  induction w with
  | nil =>
      intro p p' v h hwalk
      obtain rfl := Option.some.inj hwalk
      rw [List.append_nil]
      exact h
  | cons l w ih =>
      intro p p' v h hwalk
      rw [walk_cons] at hwalk
      obtain ⟨p₁, hstep, hrest⟩ := Option.bind_eq_some_iff.mp hwalk
      have hrest' := ih (h.step hstep) hrest
      rw [List.append_assoc] at hrest'
      exact hrest'

end Position

/-- **A SENTENCE IS A WALK** from the start to the goal. -/
theorem grammatical_iff_walk {w : List Lexeme} :
    Grammatical .sentence w
      ↔ Position.start.walk w = some Position.goal := by
  constructor
  · intro h
    exact h.walk 0
  · intro h
    obtain ⟨v, u, hw, hv, hu⟩ := Position.explains_start.walk h
    cases hv with
    | none =>
        rw [List.nil_append, List.nil_append] at hw
        rw [hw]
        exact hu

end Keypad
