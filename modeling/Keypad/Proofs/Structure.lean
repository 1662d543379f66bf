import Keypad.Evaluation
import Keypad.Guard
import Keypad.Proofs.Numerals

/-! # Structure — the check before a commit, key by key

    The check of a text that is handed in for a commit looks at characters.
    On the text of keys it can be said of the keys themselves: the first one
    may start, the last one leaves no operand missing, and the parentheses
    pair up (`malformation?_keysText_eq_none`). -/

namespace Keypad

namespace Text

/-- Without parentheses the depth stays. -/
theorem depthFrom_of_forall {t : Text} (d : Nat)
    (h : ∀ c ∈ t, c ≠ '(' ∧ c ≠ ')') : depthFrom d t = some d := by
  induction t with
  | nil => rfl
  | cons c t ih =>
      obtain ⟨hopening, hclosing⟩ := h c (List.mem_cons_self ..)
      rw [depthFrom_cons, deepen, if_neg hopening, if_neg hclosing]
      exact ih fun c hc => h c (List.mem_cons_of_mem _ hc)

/-- A text without blanks is trimmed. -/
theorem trim_eq_self {t : Text} (h : ∀ c ∈ t, isBlank c = false) :
    trim t = t := by
  have hfront : t.dropWhile isBlank = t := by
    cases t with
    | nil => rfl
    | cons c t => rw [List.dropWhile_cons, h c (List.mem_cons_self ..)]; rfl
  rw [trim, hfront]
  exact trimEnd_eq_self fun c hc => h c (List.mem_of_getLast? hc)

end Text

namespace Key

/-! ## The characters of a key -/

theorem text_ne_nil (k : Key) : k.text ≠ [] := by
  cases k <;> exact List.cons_ne_nil _ _

theorem isBlank_of_mem_text {k : Key} {c : Char} (hc : c ∈ k.text) :
    Text.isBlank c = false := by
  cases k with
  | digit d =>
      rw [List.mem_singleton.mp hc]
      exact Token.isBlank_of_isNumeric
        (Token.isNumeric_of_isDigit (isDigit_digitChar d))
  | operator o =>
      rw [List.mem_singleton.mp hc]
      cases o <;> rfl
  | answer =>
      rcases List.mem_cons.mp hc with rfl | hc
      · rfl
      · rcases List.mem_cons.mp hc with rfl | hc
        · rfl
        · rw [List.mem_singleton.mp hc]
          rfl
  | point | opening | closing =>
      rw [List.mem_singleton.mp hc]
      rfl

/-- No letter of the answer is a blank. -/
theorem notMem_answerName_of_isBlank {c : Char} (h : Text.isBlank c = true) :
    c ∉ answerName := by
  intro hc
  rw [isBlank_of_mem_text (k := .answer) hc] at h
  cases h

/-- The depth after one more key. -/
def deepen (d : Nat) : Key → Option Nat
  | .opening => some (d + 1)
  | .closing => if d = 0 then none else some (d - 1)
  | _ => some d

/-- The number of parentheses that keys leave open, starting from `d`. -/
def depthFrom (d : Nat) (keys : List Key) : Option Nat := keys.foldlM deepen d

theorem depthFrom_cons (d : Nat) (k : Key) (keys : List Key) :
    depthFrom d (k :: keys) = (deepen d k).bind fun d' => depthFrom d' keys :=
  rfl

theorem depthFrom_append (d : Nat) (v w : List Key) :
    depthFrom d (v ++ w) = (depthFrom d v).bind fun d' => depthFrom d' w := by
  show List.foldlM deepen d (v ++ w) = _
  rw [List.foldlM_append]
  rfl

/-- The depth after one more key. -/
theorem depthFrom_concat {d n : Nat} {keys : List Key}
    (h : depthFrom d keys = some n) (k : Key) :
    depthFrom d (keys ++ [k]) = deepen n k := by
  rw [depthFrom_append, h]
  show (deepen n k).bind some = _
  cases deepen n k <;> rfl

theorem depthFrom_opening (d : Nat) (keys : List Key) :
    depthFrom d (.opening :: keys) = depthFrom (d + 1) keys := rfl

theorem depthFrom_operator (d : Nat) (o : Operator) (keys : List Key) :
    depthFrom d (.operator o :: keys) = depthFrom d keys := rfl

/-- Operands leave the depth as it is. -/
theorem depthFrom_of_isOperand (d : Nat) {keys : List Key}
    (h : ∀ k ∈ keys, k.isOperand = true) : depthFrom d keys = some d := by
  induction keys with
  | nil => rfl
  | cons k keys ih =>
      have hk := h k (List.mem_cons_self ..)
      rw [← ih fun k hk => h k (List.mem_cons_of_mem _ hk)]
      cases k with
      | digit _ | point | answer => rfl
      | operator _ | opening | closing => cases hk

theorem depthFrom_text (d : Nat) (k : Key) :
    Text.depthFrom d k.text = deepen d k := by
  cases k with
  | digit e =>
      refine Text.depthFrom_of_forall d ?_
      intro c hc
      rw [List.mem_singleton.mp hc]
      have hdigit := isDigit_digitChar e
      exact ⟨Token.ne_of_isDigit hdigit rfl, Token.ne_of_isDigit hdigit rfl⟩
  | operator o => cases o <;> rfl
  | opening => rfl
  | closing =>
      cases d with
      | zero => rfl
      | succ d => rfl
  | point => rfl
  | answer => rfl

end Key

/-! ## The text of keys -/

theorem isBlank_of_mem_keysText {keys : List Key} {c : Char}
    (hc : c ∈ keysText keys) : Text.isBlank c = false := by
  obtain ⟨k, -, hk⟩ := List.mem_flatMap.mp hc
  exact Key.isBlank_of_mem_text hk

/-- Keys are shown without blanks. -/
@[simp] theorem trim_keysText (keys : List Key) :
    Text.trim (keysText keys) = keysText keys :=
  Text.trim_eq_self fun _ => isBlank_of_mem_keysText

theorem keysText_eq_nil {keys : List Key} : keysText keys = [] ↔ keys = [] := by
  cases keys with
  | nil => exact ⟨fun _ => rfl, fun _ => rfl⟩
  | cons k keys =>
      constructor
      · intro h
        rw [keysText_cons] at h
        exact absurd (List.append_eq_nil_iff.mp h).1 k.text_ne_nil
      · intro h
        cases h

theorem isEmpty_keysText {keys : List Key} (h : keys ≠ []) :
    (keysText keys).isEmpty = false := by
  rw [List.isEmpty_eq_false_iff]
  exact mt keysText_eq_nil.mp h

/-- The depth of a text of keys is the depth of the keys. -/
theorem depthFrom_keysText (d : Nat) (keys : List Key) :
    Text.depthFrom d (keysText keys) = Key.depthFrom d keys := by
  induction keys generalizing d with
  | nil => rfl
  | cons k keys ih =>
      rw [keysText_cons, Text.depthFrom_append, Key.depthFrom_text,
        Key.depthFrom_cons]
      exact congrArg _ (funext ih)

/-- A text of keys starts well if its first key may start. -/
theorem startsWell_keysText (k : Key) (keys : List Key) :
    startsWell (keysText (k :: keys)) = k.canStart := by
  cases k with
  | digit d =>
      show ((Nat.digitChar d).isDigit || _ || _ || _) = true
      rw [Key.isDigit_digitChar d]
      rfl
  | operator o => cases o <;> rfl
  | _ => rfl

/-- A text of keys ends where an operand is due if its last key leaves one
    missing. -/
theorem wantsOperand_keysText (keys : List Key) (k : Key) :
    (keysText (keys ++ [k])).getLast?.any wantsOperand
      = Rule.lacksOperand (some k) := by
  have hlast : (keysText (keys ++ [k])).getLast? = k.text.getLast? := by
    rw [keysText_append, List.getLast?_append, keysText_cons, keysText_nil,
      List.append_nil, List.getLast?_eq_some_getLast k.text_ne_nil]
    rfl
  have hdigit : ∀ d : Fin 10, wantsOperand (Nat.digitChar d) = false := by
    decide
  rw [hlast]
  cases k with
  | digit d => exact hdigit d
  | operator o => cases o <;> rfl
  | _ => rfl

/-- A text passes the check if none of its four questions finds fault. -/
theorem malformation?_eq_none {t : Text} :
    malformation? t = none
      ↔ t.isEmpty = false ∧ startsWell t = true
        ∧ t.getLast?.any wantsOperand = false ∧ Text.isBalanced t = true := by
  rw [malformation?]
  cases t.isEmpty <;> cases startsWell t <;>
    cases t.getLast?.any wantsOperand <;> cases Text.isBalanced t <;> simp

/-- **THE CHECK BEFORE A COMMIT**: keys pass if the first one may start, the
    last one leaves no operand missing and the parentheses pair up. -/
theorem malformation?_keysText_eq_none {keys : List Key} :
    malformation? (keysText keys) = none
      ↔ keys.head?.any Key.canStart = true
        ∧ Rule.lacksOperand keys.getLast? = false
        ∧ Key.depthFrom 0 keys = some 0 := by
  rcases List.eq_nil_or_concat keys with rfl | ⟨front, last, hkeys⟩
  · constructor
    · rintro ⟨⟩
    · rintro ⟨⟨⟩, -⟩
  · rw [List.concat_eq_append] at hkeys
    have hnonempty : keys ≠ [] := by
      rw [hkeys]
      exact List.append_ne_nil_of_right_ne_nil _ (List.cons_ne_nil _ _)
    obtain ⟨k, rest, hfirst⟩ := List.exists_cons_of_ne_nil hnonempty
    -- the four questions, each put to the keys
    have hne : (keysText keys).isEmpty = false := isEmpty_keysText hnonempty
    have hstart : startsWell (keysText keys) = keys.head?.any Key.canStart := by
      rw [hfirst, startsWell_keysText]
      rfl
    have hend : (keysText keys).getLast?.any wantsOperand
        = Rule.lacksOperand keys.getLast? := by
      rw [hkeys, wantsOperand_keysText, List.getLast?_concat]
    have hbalanced : Text.isBalanced (keysText keys)
        = (Key.depthFrom 0 keys == some 0) := by
      rw [Text.isBalanced, Text.depth, depthFrom_keysText]
    rw [malformation?_eq_none, hne, hstart, hend, hbalanced, beq_iff_eq]
    exact and_iff_right rfl

end Keypad
