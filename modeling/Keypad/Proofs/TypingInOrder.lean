import Keypad.Proofs.Completion
import Keypad.Proofs.LocalGrammar

/-! # Typing in order — the keys that can be typed from left to right

    Toward: the keys that a new session takes one after the other are exactly
    the prefixes of the sentences of the keypad.

    With the caret at the end every rule of the guard is about the key in
    front of it, the number that ends there or the parentheses so far.
    Together the rules accept a key exactly if it leaves the keys orderly
    (`Orderly.accepted_iff`), so what can be typed is what is orderly.
    Orderly keys are on their way to a sentence: a digit, if an operand is
    due, and the missing parentheses make one (`Orderly.exists_sentence`). -/

namespace Keypad

open Phrase (IsSentence)

/-! ## What the guard accepts at the end -/

namespace Orderly

variable {keys : List Key} {k : Key}

/-- A key that is accepted at the end keeps keys orderly. -/
theorem concat (h : Orderly keys)
    (hk : Context.accepted ⟨keys, [], k⟩ = true) : Orderly (keys ++ [k]) := by
  have htidy : Tidy (keys ++ [k]) := by
    refine Tidy.insert ?_ hk nofun
    rw [List.append_nil]
    exact h.tidy
  refine ⟨htidy, List.isChain_append.mpr
    ⟨h.followed, List.isChain_singleton k, ?_⟩⟩
  rintro a ha b hb rfl
  obtain rfl := Option.some.inj hb
  have hmeets := Context.meets_before hk .point ha
  have hlast : keys.getLast? = some .point := ha
  cases k with
  | digit _ => exact Or.inl rfl
  | operator _ => exact Or.inr rfl
  | closing =>
      have hlacks := (Context.closing_of_accepted hk).1
      rw [hlast] at hlacks
      cases hlacks
  | point =>
      have hdigit := htidy.isDigit_before
      rw [hlast] at hdigit
      cases hdigit
  | opening | answer => cases hmeets

/-- **WHAT THE GUARD ACCEPTS AT THE END** of orderly keys is what leaves them
    orderly. -/
theorem accepted_iff (h : Orderly keys) :
    Context.accepted ⟨keys, [], k⟩ = true ↔ Orderly (keys ++ [k]) := by
  constructor
  · exact h.concat
  · intro hk
    rw [hk.tidy.wellFormed.accepted_iff]
    constructor
    · rintro rfl
      exact hk.tidy.isDigit_before
    · rintro rfl hpoint
      obtain ⟨front, rfl⟩ := List.getLast?_eq_some_iff.mp hpoint
      rcases hk.followed.seam rfl with hdigit | hoperator
      · cases hdigit
      · cases hoperator

/-! ## On the way to a sentence -/

/-- The missing parentheses make a sentence where no operand is due. -/
theorem exists_closings {n : Nat} :
    ∀ {keys : List Key}, Orderly keys →
      Rule.lacksOperand keys.getLast? = false →
      Key.depthFrom 0 keys = some n → ∃ rest, IsSentence (keys ++ rest) := by
  induction n with
  | zero =>
      intro keys h hlast hdepth
      refine ⟨[], ?_⟩
      rw [List.append_nil, Phrase.isSentence_iff]
      refine ⟨h, hdepth, ?_⟩
      cases hkeys : keys.getLast? with
      | none =>
          rw [hkeys] at hlast
          cases hlast
      | some a =>
          rw [hkeys] at hlast
          exact Key.canEnd_of_lacksOperand hlast
  | succ n ih =>
      intro keys h hlast hdepth
      have hclosed := h.concat (accepted_closing hlast hdepth)
      obtain ⟨rest, hrest⟩ := ih hclosed
        (by rw [List.getLast?_concat]; rfl)
        (by rw [Key.depthFrom_append, hdepth]; rfl)
      rw [List.append_assoc] at hrest
      exact ⟨_, hrest⟩

/-- **ORDERLY KEYS CAN BE FINISHED**: they are a prefix of a sentence. -/
theorem exists_sentence (h : Orderly keys) :
    ∃ rest, IsSentence (keys ++ rest) := by
  obtain ⟨n, hdepth⟩ := Option.isSome_iff_exists.mp h.tidy.wellFormed.closes
  cases hlast : Rule.lacksOperand keys.getLast? with
  | false => exact h.exists_closings hlast hdepth
  | true =>
      -- a digit first
      have hdigit := h.concat (accepted_digit 0 hlast)
      obtain ⟨rest, hrest⟩ := hdigit.exists_closings
        (by rw [List.getLast?_concat]; rfl)
        (by rw [Key.depthFrom_append, hdepth]; rfl)
      rw [List.append_assoc] at hrest
      exact ⟨_, hrest⟩

theorem iff_exists_sentence :
    Orderly keys ↔ ∃ rest, IsSentence (keys ++ rest) := by
  constructor
  · exact exists_sentence
  · rintro ⟨rest, hrest⟩
    exact hrest.orderly.left

end Orderly

/-! ## What is shown tells the keys -/

namespace Key

/-- The first character that a key shows names it, unless it is the
    answer. -/
theorem ofChar?_head_text (k : Key) :
    k.text.head?.bind ofChar? = if k = .answer then none else some k := by
  cases k with
  | digit d => exact ofChar?_digitChar d
  | operator o => cases o <;> rfl
  | point | opening | closing | answer => rfl

theorem eq_of_head?_text {k k' : Key} (h : k.text.head? = k'.text.head?) :
    k = k' := by
  have hname : (if k = .answer then none else some k)
      = if k' = .answer then none else some k' := by
    rw [← ofChar?_head_text k, ← ofChar?_head_text k', h]
  by_cases hk : k = .answer
  · by_cases hk' : k' = .answer
    · rw [hk, hk']
    · rw [if_pos hk, if_neg hk'] at hname
      cases hname
  · by_cases hk' : k' = .answer
    · rw [if_neg hk, if_pos hk'] at hname
      cases hname
    · rw [if_neg hk, if_neg hk'] at hname
      exact Option.some.inj hname

end Key

/-- Different keys are shown differently. -/
theorem keysText_injective : Function.Injective keysText := by
  intro v
  induction v with
  | nil =>
      intro w h
      exact (keysText_eq_nil.mp h.symm).symm
  | cons k v ih =>
      intro w h
      cases w with
      | nil => exact keysText_eq_nil.mp h
      | cons k' w =>
          rw [keysText_cons, keysText_cons] at h
          obtain rfl : k = k' := by
            refine Key.eq_of_head?_text ?_
            have hhead := congrArg List.head? h
            rw [List.head?_append_of_ne_nil _ k.text_ne_nil,
              List.head?_append_of_ne_nil _ k'.text_ne_nil] at hhead
            exact hhead
          rw [ih (List.append_cancel_left h)]

/-! ## Typing -/

namespace Session

/-- Every key goes in as it is typed. -/
def TakesAll (s : Session) : List Key → Prop
  | [] => True
  | k :: keys => Admission.of s.mode s.expression k = .inserted
      ∧ (s.press k).TakesAll keys

/-- The session is editing the keys, with the caret at their end. -/
structure Edits (s : Session) (keys : List Key) : Prop where
  mode : s.mode = .editing
  banner : s.banner = none
  expression : s.expression = .ofKeys keys

variable {s : Session} {keys typed : List Key} {k : Key}

theorem edits_new : new.Edits [] := ⟨rfl, rfl, rfl⟩

theorem Edits.display (h : s.Edits keys) : s.display = keysText keys := by
  rw [display_of_none h.banner, h.expression, Expression.text,
    Expression.keys, Expression.ofKeys, List.append_nil]

/-- What becomes of a key is up to the guard. -/
theorem Edits.admission (h : s.Edits keys) :
    Admission.of s.mode s.expression k
      = if Context.accepted ⟨keys, [], k⟩ then .inserted else .rejected := by
  rw [h.mode, h.expression]
  rfl

/-- A key that is accepted goes in at the end. -/
theorem Edits.press_accepted (h : s.Edits keys)
    (hk : Context.accepted ⟨keys, [], k⟩ = true) :
    (s.press k).Edits (keys ++ [k]) := by
  rw [press, h.admission, if_pos hk]
  refine ⟨rfl, rfl, ?_⟩
  show s.expression.insert k = _
  rw [h.expression]
  rfl

/-- A key that is not accepted changes nothing. -/
theorem Edits.press_rejected (h : s.Edits keys)
    (hk : ¬ Context.accepted ⟨keys, [], k⟩ = true) : s.press k = s := by
  rw [press, h.admission, if_neg hk]

/-- **KEY BY KEY** behind orderly keys, all are taken if the keys together are
    orderly. -/
theorem Edits.takesAll_iff :
    ∀ {s : Session} {keys : List Key}, s.Edits keys → Orderly keys →
      (s.TakesAll typed ↔ Orderly (keys ++ typed)) := by
  induction typed with
  | nil =>
      intro s keys _ hkeys
      rw [List.append_nil]
      exact ⟨fun _ => hkeys, fun _ => trivial⟩
  | cons k typed ih =>
      intro s keys h hkeys
      rw [TakesAll, h.admission, List.append_cons]
      by_cases hk : Context.accepted ⟨keys, [], k⟩ = true
      · rw [if_pos hk, ih (h.press_accepted hk) (hkeys.concat hk)]
        exact and_iff_right rfl
      · rw [if_neg hk]
        constructor
        · rintro ⟨⟨⟩, -⟩
        · intro htyped
          exact absurd (hkeys.accepted_iff.mpr htyped.left) hk

/-- Some of the keys are kept, and all of them if every key is taken. -/
theorem Edits.strikes :
    ∀ {s : Session} {keys : List Key}, s.Edits keys →
      ∃ kept, kept.Sublist typed
        ∧ (s.strikes (typed.map Keystroke.key)).Edits (keys ++ kept)
        ∧ (s.TakesAll typed ↔ kept = typed) := by
  induction typed with
  | nil =>
      intro s keys h
      refine ⟨[], List.Sublist.refl [], ?_, fun _ => rfl, fun _ => trivial⟩
      rw [List.append_nil]
      exact h
  | cons k typed ih =>
      intro s keys h
      by_cases hk : Context.accepted ⟨keys, [], k⟩ = true
      · obtain ⟨kept, hkept, hedits, hall⟩ := ih (h.press_accepted hk)
        refine ⟨k :: kept, hkept.cons_cons k, ?_, ?_⟩
        · rw [List.append_cons]
          exact hedits
        · rw [TakesAll, h.admission, if_pos hk, hall, List.cons.injEq]
          exact and_congr_left fun _ => ⟨fun _ => rfl, fun _ => rfl⟩
      · have hsame := h.press_rejected hk
        obtain ⟨kept, hkept, hedits, -⟩ := ih h
        refine ⟨kept, hkept.cons k, ?_, ?_⟩
        · show ((s.press k).strikes (typed.map Keystroke.key)).Edits _
          rw [hsame]
          exact hedits
        · rw [TakesAll, h.admission, if_neg hk]
          constructor
          · rintro ⟨⟨⟩, -⟩
          · -- one key fewer cannot be all
            rintro rfl
            exact absurd hkept.length_le (Nat.not_succ_le_self _)

/-- **WHAT CAN BE TYPED FROM LEFT TO RIGHT**: a new session takes all keys,
    which is to say that it shows all of them at the end, exactly if they are
    a prefix of a sentence of the keypad. -/
theorem display_typed_iff (keys : List Key) :
    (new.TakesAll keys
      ↔ (new.strikes (keys.map Keystroke.key)).display = keysText keys)
    ∧ ((new.strikes (keys.map Keystroke.key)).display = keysText keys
      ↔ ∃ rest, IsSentence (keys ++ rest)) := by
  obtain ⟨kept, -, hedits, hall⟩ := @Edits.strikes keys new [] edits_new
  have hdisplay : new.TakesAll keys
      ↔ (new.strikes (keys.map Keystroke.key)).display = keysText keys := by
    rw [hall, hedits.display, List.nil_append, keysText_injective.eq_iff]
  refine ⟨hdisplay, ?_⟩
  rw [← hdisplay, edits_new.takesAll_iff Orderly.nil, List.nil_append]
  exact Orderly.iff_exists_sentence

-- The second point is not taken, nor is the operator behind the parenthesis.
example : (new.strikes ([.digit 1, .point, .point, .operator .add, .opening,
    .operator .divide, .digit 5].map Keystroke.key)).display
      = "1.+(5".toList := by rfl

end Session

end Keypad
