import Keypad.Phrase
import Keypad.Proofs.Structure

/-! # The form of phrases — where they start and end

    What a phrase looks like at its two ends, and that its parentheses pair
    up, has nothing to do with its meaning.  It is proved of the form of keys
    (`Formed`), where it does not count how tightly an operator binds.

    The two grammars of the keypad agree (`formed_iff_exists_means`).  A
    phrase with a meaning has a form: a factor that is juxtaposed goes into
    the last product, and a sum of products is a row.  And a sentence has a
    meaning, for the kind of an operator decides whether the factor behind it
    joins the last product of the sum or starts a new one. -/

namespace Keypad

namespace Key

/-- The keys that may end an expression, a point with digits in front of it
    among them. -/
def canEnd : Key → Bool
  | .digit _ | .point | .answer | .closing => true
  | .operator _ | .opening => false

theorem canEnd_of_isOperand {k : Key} (h : k.isOperand = true) :
    k.canEnd = true := by
  cases k with
  | digit _ | point | answer => rfl
  | operator _ | opening | closing => cases h

/-- A key that leaves no operand missing may end an expression. -/
theorem canEnd_of_lacksOperand {k : Key}
    (h : Rule.lacksOperand (some k) = false) : k.canEnd = true := by
  cases k with
  | digit _ | answer | closing => rfl
  | point | operator _ | opening => cases h

end Key

namespace Phrase

/-! ## The ends of a phrase -/

theorem isOperand_of_mem_numberKeys {whole : List (Fin 10)}
    {fraction : Option (List (Fin 10))} {k : Key}
    (hk : k ∈ numberKeys whole fraction) : k.isOperand = true := by
  have hdigits : ∀ ds : List (Fin 10), k ∈ ds.map Key.digit →
      k.isOperand = true := by
    intro ds hmem
    obtain ⟨d, -, rfl⟩ := List.mem_map.mp hmem
    rfl
  cases fraction with
  | none => exact hdigits whole hk
  | some f =>
      rcases List.mem_append.mp hk with hw | hf
      · exact hdigits whole hw
      · rcases List.mem_cons.mp hf with rfl | hf
        · rfl
        · exact hdigits f hf

/-- The keys of a number start with a digit. -/
theorem numberKeys_head {whole : List (Fin 10)}
    (fraction : Option (List (Fin 10))) (hne : whole ≠ []) :
    ∃ d rest, numberKeys whole fraction = .digit d :: rest := by
  obtain ⟨d, ds, rfl⟩ := List.exists_cons_of_ne_nil hne
  cases fraction with
  | none => exact ⟨d, _, rfl⟩
  | some f => exact ⟨d, _, rfl⟩

/-- Of two factors side by side one is a group. -/
theorem Juxtaposed.group {front rest : List Key} {a b : Key}
    (h : Juxtaposed (front ++ [a]) (b :: rest)) : a = .closing ∨ b = .opening := by
  rcases h with hclosing | hopening
  · rw [List.getLast?_concat] at hclosing
    exact Or.inl (Option.some.inj hclosing)
  · exact Or.inr (Option.some.inj hopening)

/-- What comes before the last keys does not matter to what stands beside
    them. -/
theorem Juxtaposed.of_append {u v w : List Key} (h : Juxtaposed (u ++ v) w)
    (hne : v ≠ []) : Juxtaposed v w := by
  refine h.imp_left fun hclosing => ?_
  rw [List.getLast?_append_of_ne_nil _ hne] at hclosing
  exact hclosing

namespace Formed

variable {form : Form} {signed : Bool} {keys v w : List Key}

/-- Formed keys start with a key that may start, and only a sentence that may
    be signed with an operator. -/
theorem head (h : Formed form keys) :
    ∃ k rest, keys = k :: rest ∧ k.canStart = true
      ∧ (form ≠ .sentence true → k.isOperator = false) := by
  induction h with
  | number whole fraction hne =>
      obtain ⟨d, rest, hkeys⟩ := numberKeys_head fraction hne
      exact ⟨_, rest, hkeys, rfl, fun _ => rfl⟩
  | answer | group => exact ⟨_, _, rfl, rfl, fun _ => rfl⟩
  | single _ ih | plain _ ih =>
      obtain ⟨k, rest, hkeys, hstart, hoperator⟩ := ih
      exact ⟨k, rest, hkeys, hstart, fun _ => hoperator Form.noConfusion⟩
  | implied _ _ _ ih _ =>
      obtain ⟨k, rest, rfl, hstart, hoperator⟩ := ih
      exact ⟨k, _, rfl, hstart, hoperator⟩
  | negated => exact ⟨_, _, rfl, rfl, fun h => absurd rfl h⟩
  | joined _ _ _ ih _ =>
      obtain ⟨k, rest, rfl, hstart, hoperator⟩ := ih
      exact ⟨k, _, rfl, hstart, hoperator⟩

/-- Formed keys end with a key that may end an expression. -/
theorem last (h : Formed form keys) :
    ∃ front k, keys = front ++ [k] ∧ k.canEnd = true := by
  induction h with
  | number whole fraction hne =>
      have hne' : numberKeys whole fraction ≠ [] := by
        obtain ⟨d, rest, hkeys⟩ := numberKeys_head fraction hne
        rw [hkeys]
        exact List.cons_ne_nil _ _
      refine ⟨_, _, (List.dropLast_concat_getLast hne').symm, ?_⟩
      exact Key.canEnd_of_isOperand
        (isOperand_of_mem_numberKeys (List.getLast_mem hne'))
  | answer => exact ⟨[], _, rfl, rfl⟩
  | group => exact ⟨_, _, rfl, rfl⟩
  | single _ ih | plain _ ih => exact ih
  | @implied v _ _ _ _ _ ih =>
      obtain ⟨front, k, rfl, hk⟩ := ih
      exact ⟨v ++ front, k, (List.append_assoc v front [k]).symm, hk⟩
  | negated _ ih =>
      obtain ⟨front, k, rfl, hk⟩ := ih
      exact ⟨_ :: front, k, rfl, hk⟩
  | @joined _ v _ _ _ _ _ ih =>
      obtain ⟨front, k, rfl, hk⟩ := ih
      exact ⟨v ++ _ :: front, k,
        (List.append_assoc v (_ :: front) [k]).symm, hk⟩

theorem ne_nil (h : Formed form keys) : keys ≠ [] := by
  obtain ⟨k, rest, rfl, -⟩ := h.head
  exact List.cons_ne_nil k rest

/-- The parentheses of formed keys pair up. -/
theorem depth (h : Formed form keys) (d : Nat) :
    Key.depthFrom d keys = some d := by
  induction h generalizing d with
  | number whole fraction hne =>
      exact Key.depthFrom_of_isOperand d fun k => isOperand_of_mem_numberKeys
  | answer => rfl
  | group _ ih =>
      rw [List.cons_append, Key.depthFrom_opening, Key.depthFrom_append, ih]
      rfl
  | single _ ih | plain _ ih | negated _ ih => exact ih d
  | implied _ _ _ ihl ihr =>
      rw [Key.depthFrom_append, ihl, Option.bind_some, ihr]
  | joined _ _ _ ihl ihr =>
      rw [Key.depthFrom_append, ihl, Option.bind_some, Key.depthFrom_operator,
        ihr]

/-! ## Longer sentences -/

/-- A factor beside a sentence goes into its last product. -/
theorem followed (h : Formed (.sentence signed) v) (hw : Formed .factor w)
    (hjuxtaposed : Juxtaposed v w) : Formed (.sentence signed) (v ++ w) := by
  cases h with
  | plain hv => exact .plain (.implied hjuxtaposed hv hw)
  | @negated v hv =>
      refine .negated (.implied ?_ hv hw)
      exact Juxtaposed.of_append (u := [.operator .subtract]) hjuxtaposed
        hv.ne_nil
  | @joined _ v v' o hv hv' =>
      rw [List.append_assoc, List.cons_append]
      refine .joined o hv (.implied ?_ hv' hw)
      refine Juxtaposed.of_append (u := v ++ [.operator o]) ?_ hv'.ne_nil
      rw [List.append_assoc]
      exact hjuxtaposed

/-- A sentence without a sign goes on a row of products. -/
theorem chained (hv : Formed (.sentence signed) v) (o : Operator)
    (hw : Formed (.sentence false) w) :
    Formed (.sentence signed) (v ++ .operator o :: w) := by
  generalize hform : Form.sentence false = form at hw
  induction hw with
  | number | answer | group | single | implied => cases hform
  | negated => cases hform
  | plain hw => exact .joined o hv hw
  | joined o' _ hw ih =>
      rw [← List.cons_append, ← List.append_assoc]
      exact .joined o' (ih hform) hw

end Formed

/-! ## The form of a phrase -/

/-- The form that a phrase has: what its meaning calls a product is a row of
    products to the eye. -/
def Kind.form : Kind → Form
  | .sum => .sentence true
  | .product first => .sentence first
  | .factor => .factor

/-- A phrase has a form. -/
theorem Means.formed {answer : Float} {kind : Kind} {keys : List Key}
    {t : Tree} (h : Means answer kind keys t) : Formed kind.form keys := by
  induction h with
  | number whole fraction hne => exact .number whole fraction hne
  | answer => exact .answer
  | group _ ih => exact .group ih
  | single _ ih => exact .plain (.single ih)
  | negated _ ih => exact .negated (.single ih)
  | product o _ _ _ ihl ihr => exact .joined o ihl (.single ihr)
  | implied hjuxtaposed _ _ ihl ihr => exact ihl.followed ihr hjuxtaposed
  | term _ ih => exact ih
  | sum o _ _ _ ihl ihr => exact ihl.chained o ihr

/-! ## The meaning of a form -/

section

variable {answer : Float} {v f : List Key} {l r : Tree}

/-- A factor behind an operator goes into the last product of a sum or starts
    a new one. -/
theorem Means.exists_operator (hv : Means answer .sum v l) (o : Operator)
    (hf : Means answer .factor f r) :
    ∃ t, Means answer .sum (v ++ .operator o :: f) t := by
  rcases o.additive_or_multiplicative with ho | ho
  · exact ⟨_, .sum o ho hv (.single hf)⟩
  · cases hv with
    | term hv => exact ⟨_, .term (.product o ho hv hf)⟩
    | sum o' ho' hv hw =>
        rw [List.append_assoc, List.cons_append]
        exact ⟨_, .sum o' ho' hv (.product o ho hw hf)⟩

/-- A factor beside a sum goes into its last product. -/
theorem Means.exists_implied (hv : Means answer .sum v l)
    (hjuxtaposed : Juxtaposed v f) (hf : Means answer .factor f r) :
    ∃ t, Means answer .sum (v ++ f) t := by
  cases hv with
  | term hv => exact ⟨_, .term (.implied hjuxtaposed hv hf)⟩
  | @sum v w _ _ o ho hv hw =>
      rw [List.append_assoc, List.cons_append]
      refine ⟨_, .sum o ho hv (.implied ?_ hw hf)⟩
      refine Juxtaposed.of_append (u := v ++ [.operator o]) ?_ hw.formed.ne_nil
      rw [List.append_assoc]
      exact hjuxtaposed

/-- What a form means: a product goes wherever a factor may go. -/
def Form.Meaningful (answer : Float) : Form → List Key → Prop
  | .sentence _, w => ∃ t, Means answer .sum w t
  | .product, w => ∀ u,
      (∀ f r, Means answer .factor f r → ∃ t, Means answer .sum (u ++ f) t) →
      ∃ t, Means answer .sum (u ++ w) t
  | .factor, w => ∃ t, Means answer .factor w t

/-- **WHAT HAS A FORM HAS A MEANING**. -/
theorem Formed.meaningful (answer : Float) {form : Form} {keys : List Key}
    (h : Formed form keys) : form.Meaningful answer keys := by
  induction h with
  | number whole fraction hne => exact ⟨_, .number whole fraction hne⟩
  | answer => exact ⟨_, .answer⟩
  | group _ ih =>
      obtain ⟨t, ht⟩ := ih
      exact ⟨t, .group ht⟩
  | single _ ih =>
      obtain ⟨t, ht⟩ := ih
      intro u hu
      exact hu _ t ht
  | implied hjuxtaposed hv _ ihv ihw =>
      intro u hu
      obtain ⟨l, hl⟩ := ihv u hu
      obtain ⟨r, hr⟩ := ihw
      rw [← List.append_assoc]
      refine hl.exists_implied (hjuxtaposed.imp_left fun hclosing => ?_) hr
      rw [List.getLast?_append_of_ne_nil u hv.ne_nil]
      exact hclosing
  | plain _ ih => exact ih [] fun f r hf => ⟨r, .term (.single hf)⟩
  | negated _ ih =>
      exact ih [.operator .subtract] fun f r hf => ⟨_, .term (.negated hf)⟩
  | @joined _ v w o _ _ ihv ihw =>
      obtain ⟨l, hl⟩ := ihv
      show ∃ t, Means answer .sum (v ++ .operator o :: w) t
      rw [List.append_cons]
      refine ihw (v ++ [.operator o]) fun f r hf => ?_
      rw [← List.append_cons]
      exact hl.exists_operator o hf

/-- **THE TWO GRAMMARS AGREE**: the sentences are the keys with a meaning. -/
theorem formed_iff_exists_means {keys : List Key} :
    Formed (.sentence true) keys ↔ ∃ t, Means answer .sum keys t := by
  constructor
  · exact Formed.meaningful answer
  · rintro ⟨t, ht⟩
    exact ht.formed

end

end Phrase

end Keypad
