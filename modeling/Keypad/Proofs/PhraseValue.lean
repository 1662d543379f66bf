import Keypad.Proofs.ImpliedProducts
import Keypad.Proofs.PhraseForm
import Keypad.Proofs.Scanning
import Keypad.Proofs.WrittenOut

/-! # Phrase value — keys mean what the grammar says

    Toward: the keys of a phrase evaluate to the value of its tree.

    The plain text of a phrase stands for a sentence of the same category and
    value (`reads_phrase`).  The tree of the sentence need not be that of the
    phrase, for a negative answer is one number to the phrase and a signed
    number in parentheses to the sentence.  A phrase also passes the check
    before a commit (`malformation?_phrase`), and the yard does the rest. -/

namespace Keypad

open Plain (ofKeys)

namespace Plain

/-- A number implies no product in itself. -/
theorem insertTimes_of_isNumeric {t : Text}
    (h : ∀ c ∈ t, Token.isNumeric c = true) :
    insertTimes implied t = t := by
  induction t with
  | nil => rfl
  | cons a t ih =>
      cases t with
      | nil => rfl
      | cons b t =>
          have ha : a ≠ ')' := by
            rintro rfl
            cases h ')' (List.mem_cons_self ..)
          have hb : b ≠ '(' := by
            rintro rfl
            cases h '(' (List.mem_cons_of_mem _ (List.mem_cons_self ..))
          have himplied : implied a b = false := by
            rw [implied, numberThenGroup, groupThenNumber, groupThenGroup,
              beq_false_of_ne ha, beq_false_of_ne hb, Bool.and_false]
            rfl
          rw [insertTimes_cons_cons, if_neg (Bool.eq_false_iff.mp himplied),
            ih fun c hc => h c (List.mem_cons_of_mem _ hc)]

/-- An operator implies no product. -/
theorem ofKeys_operator {answer : Float} (h : answer.isFinite = true)
    (v : List Key) (o : Operator) (w : List Key) :
    ofKeys answer (v ++ Key.operator o :: w)
      = ofKeys answer v ++ ([o.symbol] ++ ofKeys answer w) := by
  have hleft : Key.seam v (.operator o :: w) = [] := by
    refine Key.seam_eq_nil ?_
    intro a _ b hb
    obtain rfl := Option.some.inj hb
    cases a <;> rfl
  have hright : Key.seam [.operator o] w = [] := by
    refine Key.seam_eq_nil ?_
    intro a ha b _
    obtain rfl := Option.some.inj ha
    rfl
  have hapart : ∀ a ∈ v.getLast?,
      ∀ b ∈ (Key.operator o :: w).head?, a.Apart b := by
    intro a _ b hb
    obtain rfl := Option.some.inj hb
    exact Key.apart_of_right a rfl
  have hapart' : ∀ a ∈ [Key.operator o].getLast?, ∀ b ∈ w.head?, a.Apart b := by
    intro a ha b _
    obtain rfl := Option.some.inj ha
    exact Key.apart_of_left b rfl
  rw [ofKeys_append h hapart, hleft, List.append_nil, ← List.singleton_append,
    ofKeys_append h hapart', hright, List.append_nil]
  rfl

/-- Parentheses imply no product with what they enclose. -/
theorem ofKeys_group {answer : Float} (h : answer.isFinite = true)
    (w : List Key) :
    ofKeys answer (.opening :: w ++ [Key.closing])
      = ['('] ++ (ofKeys answer w ++ [')']) := by
  have hleft : Key.seam [.opening] (w ++ [Key.closing]) = [] := by
    refine Key.seam_eq_nil ?_
    intro a ha b _
    obtain rfl := Option.some.inj ha
    rfl
  have hright : Key.seam w [.closing] = [] := by
    refine Key.seam_eq_nil ?_
    intro a _ b hb
    obtain rfl := Option.some.inj hb
    cases a <;> rfl
  have hapart : ∀ a ∈ [Key.opening].getLast?,
      ∀ b ∈ (w ++ [Key.closing]).head?, a.Apart b := by
    intro a ha b _
    obtain rfl := Option.some.inj ha
    exact Key.apart_of_left b rfl
  have hapart' : ∀ a ∈ w.getLast?, ∀ b ∈ [Key.closing].head?, a.Apart b := by
    intro a _ b hb
    obtain rfl := Option.some.inj hb
    exact Key.apart_of_right a rfl
  rw [List.cons_append, ← List.singleton_append, ofKeys_append h hapart, hleft,
    List.append_nil, ofKeys_append h hapart', hright, List.append_nil]
  rfl

/-- The answer implies no product in itself. -/
theorem ofKeys_answer {answer : Float} (h : answer.isFinite = true) :
    ofKeys answer [.answer] = answerOperand answer := by
  show insertTimes implied (answerOperand answer ++ []) = _
  rw [List.append_nil]
  obtain ⟨m, n, hm, -, hcase⟩ := answer_cases h
  have hsame : insertTimes implied m = m := insertTimes_of_isNumeric hm.numeric
  rcases hcase with ⟨hpos, -⟩ | ⟨hminus, -⟩
  · rw [hpos, hsame]
  · have hleft : seam implied ['(', '-'] (m ++ [')']) = [] := by
      refine seam_eq_nil ?_
      intro a ha b _
      obtain rfl := Option.some.inj ha
      exact implied_eq_false_of_left rfl rfl b
    have hright : seam implied m [')'] = [] := by
      refine seam_eq_nil ?_
      intro a _ b hb
      obtain rfl := Option.some.inj hb
      exact implied_eq_false_of_right rfl rfl a
    rw [hminus]
    show insertTimes implied (['(', '-'] ++ (m ++ [')'])) = _
    rw [insertTimes_append, hleft, insertTimes_append, hright, hsame,
      List.append_nil, List.append_nil]
    rfl

/-- A key implies no product in itself. -/
theorem ofKeys_singleton {answer : Float} (h : answer.isFinite = true)
    (k : Key) : ofKeys answer [k] = k.plain answer := by
  cases k with
  | answer => exact ofKeys_answer h
  | _ => rfl

end Plain

namespace Key

/-- The token of a key that is shown as one character and is no part of a
    number. -/
theorem single?_of_plain (answer : Float) {k : Key}
    (hk : k.isOperand = false) :
    ∃ c tok, k.plain answer = [c] ∧ Text.isBlank c = false
      ∧ Token.isNumeric c = false ∧ Token.single? c = some tok := by
  cases k with
  | operator o => cases o <;> exact ⟨_, _, rfl, rfl, rfl, rfl⟩
  | opening => exact ⟨_, _, rfl, rfl, rfl, rfl⟩
  | closing => exact ⟨_, _, rfl, rfl, rfl, rfl⟩
  | digit _ | point | answer => cases hk

end Key

namespace Phrase

/-! ## Numbers -/

/-- The digits that keys show. -/
def digits (ds : List (Fin 10)) : Text :=
  ds.map fun d : Fin 10 => Nat.digitChar d.val

theorem isDigit_of_mem_digits {ds : List (Fin 10)} {c : Char}
    (hc : c ∈ digits ds) : c.isDigit = true := by
  obtain ⟨d, -, rfl⟩ := List.mem_map.mp hc
  exact Key.isDigit_digitChar d

theorem length_digits (ds : List (Fin 10)) : (digits ds).length = ds.length :=
  List.length_map _

theorem flatMap_plain_digits (answer : Float) (ds : List (Fin 10)) :
    (ds.map Key.digit).flatMap (Key.plain answer) = digits ds := by
  induction ds with
  | nil => rfl
  | cons d ds ih =>
      rw [List.map_cons, List.flatMap_cons, ih]
      rfl

theorem flatMap_plain_numberKeys (answer : Float) (whole : List (Fin 10))
    (fraction : Option (List (Fin 10))) :
    (numberKeys whole fraction).flatMap (Key.plain answer)
      = Numeral.digitsText (digits whole) (fraction.map digits) := by
  cases fraction with
  | none => exact flatMap_plain_digits answer whole
  | some f =>
      rw [numberKeys, List.flatMap_append, List.flatMap_cons,
        flatMap_plain_digits, flatMap_plain_digits]
      rfl

theorem ofDigitChars_digits (ds : List (Fin 10)) (n : Nat) :
    Nat.ofDigitChars 10 (digits ds) n
      = ds.foldl (fun n d => 10 * n + d.val) n := by
  induction ds generalizing n with
  | nil => rfl
  | cons d ds ih =>
      show Nat.ofDigitChars 10 (Nat.digitChar d :: digits ds) n = _
      rw [Nat.ofDigitChars_cons_digitChar_of_lt_ten d.isLt]
      exact ih _

theorem digits_append_getD (whole : List (Fin 10))
    (fraction : Option (List (Fin 10))) :
    digits whole ++ (fraction.map digits).getD []
      = digits (whole ++ fraction.getD []) := by
  cases fraction with
  | none => rw [Option.map_none, Option.getD_none, Option.getD_none,
      List.append_nil, List.append_nil]
  | some f => exact List.map_append.symm

/-- The keys of a number are read as its float. -/
theorem reads_numberKeys (answer : Float) {whole : List (Fin 10)}
    (fraction : Option (List (Fin 10))) (hne : whole ≠ []) :
    (ofKeys answer (numberKeys whole fraction)).Reads
      [.number (numberFloat whole fraction)] := by
  have hgetD : (fraction.map digits).getD [] = digits (fraction.getD []) := by
    cases fraction <;> rfl
  have happend := digits_append_getD whole fraction
  have hne' : digits whole ++ (fraction.map digits).getD [] ≠ [] := by
    rw [happend]
    intro hnil
    exact hne (List.append_eq_nil_iff.mp (List.map_eq_nil_iff.mp hnil)).1
  have hall : ∀ c ∈ digits whole ++ (fraction.map digits).getD [],
      c.isDigit = true := by
    rw [happend]
    exact fun c => isDigit_of_mem_digits
  -- a number is one token, and no product is implied inside it
  have hnumeric := Numeral.isNumeric_of_mem_digitsText hall
  have hreads := Text.Reads.number (Numeral.digitsText_ne_nil hne') hnumeric
    (Numeral.ofText?_digitsText hne' hall)
  rw [Numeral.toFloat_digitsDecimal, happend, hgetD, Numeral.ofDigits,
    ofDigitChars_digits, length_digits] at hreads
  rw [ofKeys, flatMap_plain_numberKeys, Plain.insertTimes_of_isNumeric hnumeric]
  exact hreads

/-- A phrase passes the check before a commit, unless it ends in a point. -/
theorem malformation?_phrase {answer : Float} {kind : Kind} {keys : List Key}
    {t : Tree} (h : Means answer kind keys t)
    (hend : keys.getLast? ≠ some .point) :
    malformation? (keysText keys) = none := by
  obtain ⟨first, rest, hfirst, hstart, -⟩ := h.formed.head
  obtain ⟨front, last, hlast, hcanEnd⟩ := h.formed.last
  refine malformation?_keysText_eq_none.mpr ⟨?_, ?_, h.formed.depth 0⟩
  · rw [hfirst]
    exact hstart
  · rw [hlast, List.getLast?_concat] at hend ⊢
    cases last with
    | point => exact absurd rfl hend
    | digit _ | answer | closing => rfl
    | operator _ | opening => cases hcanEnd

/-! ## The sentence of a phrase -/

/-- The category of arithmetic that a phrase belongs to. -/
def Kind.category : Kind → Category
  | .sum => .sum
  | .product _ => .product
  | .factor => .atom

/-- Side by side two factors imply a product. -/
theorem implies_of_juxtaposed {a b : Key}
    (ha : a.canEnd = true) (hstart : b.canStart = true)
    (hfactor : b.isOperator = false) (hgroup : a = .closing ∨ b = .opening)
    (hpoint : ¬ (a = .point ∧ b = .opening)) :
    a.implies b = true ∧ a.Apart b := by
  rcases hgroup with rfl | rfl
  · refine ⟨?_, Key.apart_of_left b rfl⟩
    cases b with
    | digit _ | answer | opening => rfl
    | operator _ => cases hfactor
    | point | closing => cases hstart
  · refine ⟨?_, Key.apart_of_right a rfl⟩
    cases a with
    | digit _ | answer | closing => rfl
    | point => exact absurd ⟨rfl, rfl⟩ hpoint
    | operator _ | opening => cases ha

/-- The answer is written out, with its sign in parentheses. -/
theorem reads_writtenOut_answer {answer : Float}
    (h : answer.isFinite = true) :
    ∃ w, (ofKeys answer [.answer]).Reads w
      ∧ (Lexeme.number (answerFloat answer)).WrittenOut w := by
  obtain ⟨m, n, hm, hn, hcase⟩ := answer_cases h
  have hnumber := Text.Reads.number hm.ne_nil hm.numeric hn
  rw [Plain.ofKeys_answer h]
  rcases hcase with ⟨hpos, hvalue⟩ | ⟨hminus, hvalue⟩
  · rw [hpos, hvalue]
    exact ⟨_, hnumber, .self _⟩
  · rw [hminus, hvalue]
    exact ⟨_, (Text.Reads.nil.between .subtract hnumber).group, .negative _⟩

/-- The answer is one operand. -/
theorem reads_answer {answer : Float} (h : answer.isFinite = true) :
    ∃ w t, (ofKeys answer [.answer]).Reads w ∧ Sentence .atom w t
      ∧ t.value = answerFloat answer := by
  obtain ⟨w, hreads, hwritten⟩ := reads_writtenOut_answer h
  obtain ⟨t, ht, hvalue⟩ := (Sentence.number (answerFloat answer)).writtenOut
    (.cons hwritten .nil)
  rw [List.flatten_singleton] at ht
  exact ⟨w, t, hreads, ht, hvalue⟩

/-- Keys with an operator between them stand for their lexemes with the
    operator between them. -/
theorem reads_operator {answer : Float} (hfinite : answer.isFinite = true)
    {v w : List Key} {ls rs : List Lexeme} (o : Operator)
    (hv : (ofKeys answer v).Reads ls) (hw : (ofKeys answer w).Reads rs) :
    (ofKeys answer (v ++ Key.operator o :: w)).Reads
      (ls ++ Lexeme.operator o :: rs) := by
  rw [Plain.ofKeys_operator hfinite]
  exact hv.between o hw

/-- Between the keys of two phrases side by side there is a multiplication
    sign. -/
theorem ofKeys_juxtaposed {answer : Float} (hfinite : answer.isFinite = true)
    {kind : Kind} {v w : List Key} {l r : Tree} (hv : Means answer kind v l)
    (hw : Means answer .factor w r) (hjuxtaposed : Juxtaposed v w)
    (hpoints : ¬ [Key.point, Key.opening] <:+: v ++ w) :
    ofKeys answer (v ++ w)
      = ofKeys answer v ++ ([Operator.multiply.symbol] ++ ofKeys answer w) := by
  -- all that matters is the last key of the one and the first of the other
  obtain ⟨b, rest, rfl, hstart, hfactor⟩ := hw.formed.head
  obtain ⟨front, a, rfl, ha⟩ := hv.formed.last
  have hgroup := hjuxtaposed.group
  have hpoint : ¬ (a = .point ∧ b = .opening) := by
    rintro ⟨rfl, rfl⟩
    refine hpoints ⟨front, rest, ?_⟩
    rw [List.append_assoc, List.append_assoc]
    rfl
  obtain ⟨himplies, hapart⟩ :=
    implies_of_juxtaposed ha hstart (hfactor Form.noConfusion) hgroup hpoint
  have hapart' : ∀ x ∈ (front ++ [a]).getLast?,
      ∀ y ∈ (b :: rest).head?, x.Apart y := by
    intro x hx y hy
    rw [List.getLast?_concat] at hx
    obtain rfl := Option.some.inj hx
    obtain rfl := Option.some.inj hy
    exact hapart
  rw [Plain.ofKeys_append hfinite hapart', Key.seam_of_implies himplies,
    List.append_assoc]
  rfl

/-- **A PHRASE IS A SENTENCE**: where no point stands before an opening
    parenthesis, the plain text of a phrase stands for a sentence of its
    category and value. -/
theorem reads_phrase {answer : Float} (hfinite : answer.isFinite = true)
    {kind : Kind} {keys : List Key} {t : Tree} (h : Means answer kind keys t)
    (hpoints : ¬ [Key.point, Key.opening] <:+: keys) :
    ∃ w t', (ofKeys answer keys).Reads w ∧ Sentence kind.category w t'
      ∧ t'.value = t.value := by
  induction h with
  | number whole fraction hne =>
      exact ⟨_, _, reads_numberKeys answer fraction hne, .number _, rfl⟩
  | answer => exact reads_answer hfinite
  | group _ ih =>
      obtain ⟨ls, t', hreads, hsentence, hvalue⟩ := ih fun hin =>
        hpoints (hin.trans ⟨[.opening], [.closing], rfl⟩)
      refine ⟨_, t', ?_, .group hsentence, hvalue⟩
      rw [Plain.ofKeys_group hfinite]
      exact hreads.group
  | single _ ih =>
      obtain ⟨ls, t', hreads, hsentence, hvalue⟩ := ih hpoints
      exact ⟨ls, t', hreads, .factor (.unsigned hsentence), hvalue⟩
  | negated _ ih =>
      obtain ⟨ls, t', hreads, hsentence, hvalue⟩ := ih fun hin =>
        hpoints (List.infix_cons hin)
      -- a sign looks like an operator with nothing in front of it
      have hsigned := reads_operator hfinite .subtract
        (show (ofKeys answer []).Reads [] from Text.Reads.nil) hreads
      exact ⟨_, .sign .negative t', hsigned,
        .factor (.sign .negative (.unsigned hsentence)),
        congrArg (-·) hvalue⟩
  | product o ho _ _ ihl ihr =>
      obtain ⟨ls, l', hreadsl, hl, hvaluel⟩ := ihl fun hin =>
        hpoints (List.infix_append_of_infix_left hin)
      obtain ⟨rs, r', hreadsr, hr, hvaluer⟩ := ihr fun hin =>
        hpoints (List.infix_append_of_infix_right (List.infix_cons hin))
      exact ⟨_, _, reads_operator hfinite o hreadsl hreadsr,
        .product o ho hl (.unsigned hr),
        Tree.value_operator_congr o hvaluel hvaluer⟩
  | implied hjuxtaposed hv hw ihl ihr =>
      obtain ⟨ls, l', hreadsl, hl, hvaluel⟩ := ihl fun hin =>
        hpoints (List.infix_append_of_infix_left hin)
      obtain ⟨rs, r', hreadsr, hr, hvaluer⟩ := ihr fun hin =>
        hpoints (List.infix_append_of_infix_right hin)
      refine ⟨_, _, ?_, .product .multiply .multiply hl (.unsigned hr),
        Tree.value_operator_congr .multiply hvaluel hvaluer⟩
      rw [ofKeys_juxtaposed hfinite hv hw hjuxtaposed hpoints]
      exact hreadsl.between .multiply hreadsr
  | term _ ih =>
      obtain ⟨ls, t', hreads, hsentence, hvalue⟩ := ih hpoints
      exact ⟨ls, t', hreads, .term hsentence, hvalue⟩
  | sum o ho _ _ ihl ihr =>
      obtain ⟨ls, l', hreadsl, hl, hvaluel⟩ := ihl fun hin =>
        hpoints (List.infix_append_of_infix_left hin)
      obtain ⟨rs, r', hreadsr, hr, hvaluer⟩ := ihr fun hin =>
        hpoints (List.infix_append_of_infix_right (List.infix_cons hin))
      exact ⟨_, _, reads_operator hfinite o hreadsl hreadsr,
        .sum o ho hl hr, Tree.value_operator_congr o hvaluel hvaluer⟩

/-- **KEYS MEAN WHAT THE GRAMMAR SAYS**: for every finite answer the keys of
    a sum, with its points closed, evaluate to the value of its tree, or to
    the fault of a value that is not finite. -/
theorem evaluateComplete_phrase {answer : Float}
    (hfinite : answer.isFinite = true) {keys : List Key} {t : Tree}
    (h : Means answer .sum keys t) (hpoints : PointsClosed keys) :
    evaluateComplete answer (keysText keys)
      = if t.value.isFinite then .ok t.value else .error .notFinite := by
  obtain ⟨w, t', hreads, hsentence, hvalue⟩ :=
    reads_phrase hfinite h hpoints.1
  rw [evaluateComplete, malformation?_phrase h hpoints.2]
  show evaluatePlain (Plain.ofKeypad answer (keysText keys)) = _
  rw [Plain.ofKeypad_keysText hfinite, hreads.evaluatePlain hsentence, hvalue]

/-- All five operators, a leading minus, and a product that is implied beside
    a group with a negative answer:
    `(-20 - 7 ÷ 2) - ((10 % 4) × 3) × (2 + -3)`. -/
theorem evaluateComplete_negative_answer :
    (-3.0 : Float).isFinite = true
      ∧ ∃ keys t, Means (-3.0) .sum keys t ∧ PointsClosed keys
        ∧ keysText keys = "-20-7÷2-10%4×3(2+ANS)".toList
        ∧ evaluateComplete (-3.0) (keysText keys) = .ok (-17.5) := by
  have hfinite : (-3.0 : Float).isFinite = true := by decide +kernel
  have hdigit : ∀ d : Fin 10, Means (-3.0) .factor [.digit d] _ := fun d =>
    .number [d] none (List.cons_ne_nil d [])
  -- the terms of the sum, one by one
  have htwenty : Means (-3.0) (.product true)
      [.operator .subtract, .digit 2, .digit 0] _ :=
    .negated (.number [2, 0] none (by decide))
  have hquotient : Means (-3.0) (.product false)
      [.digit 7, .operator .divide, .digit 2] _ :=
    .product .divide .divide (.single (hdigit 7)) (hdigit 2)
  have hremainder : Means (-3.0) (.product false)
      [.digit 1, .digit 0, .operator .remainder, .digit 4] _ :=
    .product .remainder .remainder
      (.single (.number [1, 0] none (by decide))) (hdigit 4)
  have hgroup : Means (-3.0) .factor
      [.opening, .digit 2, .operator .add, .answer, .closing] _ :=
    .group (.sum .add .add (.term (.single (hdigit 2))) (.single .answer))
  have hproduct := Means.implied (.inr rfl)
    (.product .multiply .multiply hremainder (hdigit 3)) hgroup
  have hphrase := Means.sum .subtract .subtract
    (.sum .subtract .subtract (.term htwenty) hquotient) hproduct
  refine ⟨hfinite, _, _, hphrase, ⟨by decide, by decide⟩, by rfl, ?_⟩
  exact (evaluateComplete_phrase hfinite hphrase
    ⟨by decide, by decide⟩).trans rfl

end Phrase

end Keypad
