import Keypad.Proofs.Acceptance

/-! # Continuation — unfinished texts and broken ones

    A text without a program is unfinished or it is broken.  It is unfinished
    where an operand is missing at its end or a parenthesis is still open, and
    then something can be put behind it that gives a program.  It is broken
    where a token was refused or a character belongs to no token, and then
    the fault stays, whatever is put behind the text.

    The two are told apart by when their faults are found: a break while the
    text is read (`Reader.endsEarly_of_read`), what is missing not before its
    end (`Yard.State.endsEarly_of_finish`).  Only the last number of a text is
    not judged before more of the text is known, so what is put behind must
    not go on with it (`Text.EndsNumber`). -/

namespace Keypad

/-- The text ends too early: it may be the start of one that has a program. -/
def Fault.endsEarly : Fault → Bool
  | .unfinished | .unclosed => true
  | _ => false

theorem Fault.endsEarly_iff {f : Fault} :
    f.endsEarly = true ↔ f = .unfinished ∨ f = .unclosed := by
  cases f <;> simp [endsEarly]

/-- A number in front of the text ends there: the text is empty or starts with
    neither a digit nor a point. -/
def Text.EndsNumber (t : Text) : Prop :=
  ∀ c ∈ t.head?, Token.isNumeric c = false

/-! ## Faults and when they are found -/

namespace Yard

/-- No token is refused because the text ends too early. -/
theorem State.endsEarly_of_next {s : State} {t : Token} {f : Fault}
    (h : s.next t = .error f) : f.endsEarly = false := by
  cases State.refusal_of_next h <;> rfl

/-- Behind the last token nothing else can be wrong. -/
theorem State.endsEarly_of_finish {s : State} {f : Fault}
    (h : s.finish = .error f) : f.endsEarly = true := by
  obtain ⟨slot, y⟩ := s
  cases slot with
  | operand =>
      obtain rfl := Except.error.inj h
      rfl
  | operator =>
      have hfinish : y.finish = .error f := h
      rw [Yard.finish] at hfinish
      split at hfinish
      · obtain rfl := Except.error.inj hfinish
        rfl
      · cases hfinish

end Yard

namespace Reader

/-- The number that is being read is at most refused as a token. -/
theorem next_of_settle_error {r : Reader} {f : Fault}
    (h : r.settle = .error f) : r.state.next ⟨.number, r.run⟩ = .error f := by
  rw [settle] at h
  split at h
  · cases h
  · exact h

/-- **A CHARACTER THAT IS REFUSED**: a token that ends with it is refused, or
    it belongs to no token. -/
theorem fault_of_take {r : Reader} {c : Char} {f : Fault}
    (h : r.take c = .error f) :
    r.settle = .error f
      ∨ (∃ s tok, r.settle = .ok s ∧ Token.single? c = some tok
        ∧ s.next tok = .error f)
      ∨ f = .unknown [c] := by
  rcases r.take_cases c with ⟨-, htake⟩ | ⟨f', hsettle, htake⟩
    | ⟨s, hsettle, ⟨-, htake⟩ | ⟨tok, hc, htake⟩ | htake⟩
  · rw [htake] at h
    cases h
  · rw [htake] at h
    rw [Except.error.inj h] at hsettle
    exact Or.inl hsettle
  · rw [htake] at h
    cases h
  · rw [htake] at h
    cases hnext : s.next tok with
    | ok s' =>
        rw [hnext] at h
        cases h
    | error f' =>
        rw [hnext] at h
        rw [Except.error.inj h] at hnext
        exact Or.inr (Or.inl ⟨s, tok, hsettle, hc, hnext⟩)
  · rw [htake] at h
    exact Or.inr (Or.inr (Except.error.inj h).symm)

/-- While a text is read a token is refused, or a character belongs to none. -/
theorem fault_of_read {t : Text} :
    ∀ {r : Reader} {f : Fault}, r.read t = .error f →
      (∃ (s : Yard.State) (tok : Token), s.next tok = .error f)
        ∨ ∃ c, f = .unknown [c] := by
  induction t with
  | nil =>
      intro r f h
      cases h
  | cons c t ih =>
      intro r f h
      rw [read_cons] at h
      cases htake : r.take c with
      | error f' =>
          rw [htake] at h
          obtain rfl := Except.error.inj h
          rcases fault_of_take htake with hsettle | ⟨s, tok, -, -, hnext⟩
            | hunknown
          · exact Or.inl ⟨_, _, next_of_settle_error hsettle⟩
          · exact Or.inl ⟨s, tok, hnext⟩
          · exact Or.inr ⟨c, hunknown⟩
      | ok r' =>
          rw [htake] at h
          exact ih h

theorem endsEarly_of_settle {r : Reader} {f : Fault}
    (h : r.settle = .error f) : f.endsEarly = false :=
  Yard.State.endsEarly_of_next (next_of_settle_error h)

/-- While a text is read it is not yet known to end too early. -/
theorem endsEarly_of_read {t : Text} {r : Reader} {f : Fault}
    (h : r.read t = .error f) : f.endsEarly = false := by
  rcases fault_of_read h with ⟨s, tok, hnext⟩ | ⟨c, rfl⟩
  · exact Yard.State.endsEarly_of_next hnext
  · rfl

end Reader

/-- **WHY A TEXT HAS NO PROGRAM**: a token is refused, a character belongs to no
    token, or the text ends too early. -/
theorem Program.fault_of_ofText {t : Text} {f : Fault}
    (h : ofText t = .error f) :
    (∃ (s : Yard.State) (tok : Token), s.next tok = .error f)
      ∨ (∃ c, f = .unknown [c]) ∨ f.endsEarly = true := by
  rw [Reader.ofText_eq_read] at h
  cases hread : Reader.start.read t with
  | error f' =>
      rw [hread] at h
      obtain rfl := Except.error.inj h
      exact (Reader.fault_of_read hread).imp_right Or.inl
  | ok r =>
      rw [hread] at h
      have hfinish : r.settle.bind Yard.State.finish = .error f := h
      cases hsettle : r.settle with
      | error f' =>
          rw [hsettle] at hfinish
          obtain rfl := Except.error.inj hfinish
          exact Or.inl ⟨_, _, Reader.next_of_settle_error hsettle⟩
      | ok s =>
          rw [hsettle] at hfinish
          exact Or.inr (Or.inr (Yard.State.endsEarly_of_finish hfinish))

namespace Reader

/-! ## Broken texts -/

/-- A number that is refused is refused as well in front of any text that ends
    it. -/
theorem finish_read_of_settle_error {r : Reader} {f : Fault} {t : Text}
    (h : r.settle = .error f) (ht : t.EndsNumber) :
    (r.read t).bind finish = .error f := by
  cases t with
  | nil =>
      show r.settle.bind _ = _
      rw [h]
      rfl
  | cons c t => exact finish_of_error (take_of_settle_error h (ht c rfl))

/-! ## Unfinished texts -/

/-- As many closing parentheses as are missing give a program. -/
theorem Settles.exists_closings {n : Nat} :
    ∀ {r : Reader}, r.Settles .operator n →
      ∃ p, (r.read (List.replicate n ')')).bind Reader.finish = .ok p := by
  induction n with
  | zero =>
      intro r h
      exact h.finish
  | succ n ih =>
      intro r h
      obtain ⟨s, hread, hat⟩ := h.closing
      obtain ⟨p, hp⟩ := ih (settles_of_at hat)
      refine ⟨p, ?_⟩
      rw [List.replicate_succ, ← List.singleton_append, read_append, hread]
      exact hp

/-- Where an operand is due, a number is read behind a blank. -/
theorem Settles.number {r : Reader} {n : Nat} (h : r.Settles .operand n) :
    ∃ r', r.read [' ', '0'] = .ok r' ∧ r'.Settles .operator n := by
  obtain ⟨s, hsettle, hat⟩ := h
  have hzero : Numeral.ofText? ['0'] = some (.decimal ⟨false, 0, 0⟩) := rfl
  obtain ⟨s', hnext, hat'⟩ := hat.number hzero
  refine ⟨⟨s, ['0']⟩, ?_, s', hnext, hat'⟩
  have hblank : r.take ' ' = r.settle.map fun s => ⟨s, []⟩ := rfl
  rw [read_cons, hblank, hsettle]
  rfl

/-- **WHAT IS MISSING CAN BE PUT BEHIND**: an operand if one is due, and the
    closing parentheses. -/
theorem Settles.exists_continuation {r : Reader} {slot : Slot} {n : Nat}
    (h : r.Settles slot n) :
    ∃ t : Text, t.EndsNumber ∧ ∃ p, (r.read t).bind Reader.finish = .ok p := by
  cases slot with
  | operator =>
      refine ⟨List.replicate n ')', ?_, h.exists_closings⟩
      intro c hc
      have hmem := List.mem_of_mem_head? hc
      rw [(List.mem_replicate.mp hmem).2]
      rfl
  | operand =>
      obtain ⟨r', hread, hsettles⟩ := h.number
      obtain ⟨p, hp⟩ := hsettles.exists_closings
      refine ⟨[' ', '0'] ++ List.replicate n ')', ?_, p, ?_⟩
      · intro c hc
        obtain rfl := Option.some.inj hc
        rfl
      · rw [read_append, hread]
        exact hp

end Reader

/-! ## The two kinds of texts without a program -/

/-- **BROKEN OR UNFINISHED**: a text has a fault that stays with it whatever is
    put behind, or it can go on and at most ends too early. -/
theorem Program.broken_or_unfinished (s : Text) :
    (∃ f, f.endsEarly = false
        ∧ ∀ t : Text, t.EndsNumber → ofText (s ++ t) = .error f)
      ∨ (∀ f, ofText s = .error f → f.endsEarly = true)
        ∧ ∃ t : Text, t.EndsNumber ∧ ∃ p, ofText (s ++ t) = .ok p := by
  cases hread : Reader.start.read s with
  | error f =>
      refine Or.inl ⟨f, Reader.endsEarly_of_read hread, ?_⟩
      intro t _
      rw [Reader.ofText_eq_read, Reader.read_append, hread]
      rfl
  | ok r =>
      cases hsettle : r.settle with
      | error f =>
          refine Or.inl ⟨f, Reader.endsEarly_of_settle hsettle, ?_⟩
          intro t ht
          rw [Reader.ofText_eq_read, Reader.read_append, hread]
          exact Reader.finish_read_of_settle_error hsettle ht
      | ok st =>
          have hsettles : r.Settles st.slot st.yard.opened :=
            ⟨st, hsettle, rfl, rfl⟩
          obtain ⟨t, ht, p, hp⟩ := hsettles.exists_continuation
          refine Or.inr ⟨?_, t, ht, p, ?_⟩
          · intro f hf
            rw [Reader.ofText_eq_read, hread] at hf
            have hfinish : r.settle.bind Yard.State.finish = .error f := hf
            rw [hsettle] at hfinish
            exact Yard.State.endsEarly_of_finish hfinish
          · rw [Reader.ofText_eq_read, Reader.read_append, hread]
            exact hp

/-- **WHAT CAN STILL BECOME A PROGRAM**: a text that has a program, or ends
    where an operand is due or with a parenthesis open, and no other, has a
    program with something put behind it that does not go on with its last
    number.  Any other fault of a text is the fault of every such longer
    text. -/
theorem Program.exists_continuation_iff (s : Text) :
    ((∃ p, ofText s = .ok p) ∨ ofText s = .error .unfinished
        ∨ ofText s = .error .unclosed
      ↔ ∃ t : Text, t.EndsNumber ∧ ∃ p, ofText (s ++ t) = .ok p)
    ∧ ∀ f, ofText s = .error f → f ≠ .unfinished → f ≠ .unclosed →
      ∀ t : Text, t.EndsNumber → ofText (s ++ t) = .error f := by
  rcases broken_or_unfinished s with ⟨f, hearly, hbroken⟩ | ⟨hearly, hcontinues⟩
  · -- the fault is there with nothing behind the text
    have hs : ofText s = .error f := by
      have h := hbroken [] nofun
      rwa [List.append_nil] at h
    rw [hs]
    refine ⟨⟨?_, ?_⟩, ?_⟩
    · rintro (⟨p, hp⟩ | hf | hf)
      · cases hp
      · rw [Except.error.inj hf] at hearly
        cases hearly
      · rw [Except.error.inj hf] at hearly
        cases hearly
    · rintro ⟨t, ht, p, hp⟩
      rw [hbroken t ht] at hp
      cases hp
    · intro f' hf' _ _
      rw [← Except.error.inj hf']
      exact hbroken
  · refine ⟨⟨fun _ => hcontinues, fun _ => ?_⟩, ?_⟩
    · cases hs : ofText s with
      | ok p => exact Or.inl ⟨p, rfl⟩
      | error f =>
          rcases Fault.endsEarly_iff.mp (hearly f hs) with rfl | rfl
          · exact Or.inr (Or.inl rfl)
          · exact Or.inr (Or.inr rfl)
    · intro f hf hunfinished hunclosed
      rcases Fault.endsEarly_iff.mp (hearly f hf) with rfl | rfl
      · exact absurd rfl hunfinished
      · exact absurd rfl hunclosed

/-- `(1+` can go on, and `1 2` has one number too many for good. -/
theorem Program.exists_continuation_two :
    (∃ t : Text, t.EndsNumber ∧ ∃ p, ofText ("(1+".toList ++ t) = .ok p)
      ∧ ofText ("1 2".toList ++ "+3".toList)
        = .error (.unexpected "2".toList) := by
  constructor
  · exact (exists_continuation_iff _).1.mp (Or.inr (Or.inl (by rfl)))
  · refine (exists_continuation_iff _).2 _ (by rfl) (by decide) (by decide) _ ?_
    intro c hc
    obtain rfl := Option.some.inj hc
    rfl

end Keypad
