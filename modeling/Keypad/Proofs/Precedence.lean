import Keypad.Evaluation
import Keypad.Sentence
import Mathlib.Data.List.Forall2

/-! # Precedence — the yard puts a sentence into postorder

    Toward: whatever tokens spell a sentence, the program read from them is
    the postorder of the sentence's tree, and its value is the tree's value.

    A phrase of the grammar is rarely settled when its last token has been
    read: its operators still wait for what comes next.  `Yard.Holds` says
    what is left of a phrase in the yard — a settled part, and waiting
    entries that bind at least as tightly as the phrase's category — and
    `Yard.Takes` that a list of tokens is read so, wherever an operand is due.
    There is one lemma for each way of building a phrase, and
    `Sentence.takes` carries them through a derivation.  Every entry that
    leaves the stack later leaves it by `Yard.release_of_holds`. -/

namespace Keypad

/-! ## Tokens and lexemes -/

/-- A token is the written form of a lexeme. -/
inductive Token.Spells : Token → Lexeme → Prop where
  | number {content : Text} {n : Numeral} :
      Numeral.ofText? content = some n →
      Spells ⟨.number, content⟩ (.number n.toFloat)
  | operator (o : Operator) : Spells ⟨.operator, [o.symbol]⟩ (.operator o)
  | opening : Spells ⟨.parenthesis, ['(']⟩ .opening
  | closing : Spells ⟨.parenthesis, [')']⟩ .closing

/-- Tokens are the written form of lexemes, one by one. -/
abbrev Spelling : List Token → List Lexeme → Prop :=
  List.Forall₂ Token.Spells

/-- The tokens of two phrases in a row fall into those of the one and those
    of the other. -/
theorem Spelling.split {tokens : List Token} {v w : List Lexeme}
    (h : Spelling tokens (v ++ w)) :
    ∃ left right, tokens = left ++ right ∧ Spelling left v
      ∧ Spelling right w :=
  ⟨_, _, (List.take_append_drop v.length tokens).symm,
    List.forall₂_take_append tokens v w h,
    List.forall₂_drop_append tokens v w h⟩

theorem Spelling.append {a b : List Token} {v w : List Lexeme}
    (ha : Spelling a v) (hb : Spelling b w) : Spelling (a ++ b) (v ++ w) :=
  List.rel_append ha hb

/-- A token spells one lexeme. -/
theorem Token.Spells.unique {t : Token} {l l' : Lexeme} (h : t.Spells l)
    (h' : t.Spells l') : l = l' := by
  cases h with
  | number hn =>
      cases h' with
      | number hn' =>
          rw [hn] at hn'
          rw [Option.some.inj hn']
  | operator o =>
      generalize hs : [o.symbol] = content at h'
      cases h' with
      | operator o' =>
          have hsymbol := (List.cons.inj hs).1
          cases o <;> cases o' <;> first | rfl | cases hsymbol
  | opening => cases h'; rfl
  | closing => cases h'; rfl

/-- Tokens are the written form of one list of lexemes. -/
theorem Spelling.unique {tokens : List Token} {w w' : List Lexeme}
    (h : Spelling tokens w) (h' : Spelling tokens w') : w = w' := by
  have hunique : Relator.RightUnique Token.Spells := fun _ _ _ hl hl' =>
    hl.unique hl'
  exact List.right_unique_forall₂' hunique h h'

/-! ## One lexeme at a time -/

namespace Yard.State

theorem read_cons (s : State) (t : Token) (ts : List Token) :
    s.read (t :: ts) = (s.next t).bind fun s' => s'.read ts := rfl

theorem read_append (s : State) (a b : List Token) :
    s.read (a ++ b) = (s.read a).bind fun s' => s'.read b := by
  show List.foldlM next s (a ++ b) = _
  rw [List.foldlM_append]
  rfl

theorem next_number {t : Token} {x : Float} (y : Yard)
    (h : t.Spells (.number x)) :
    next ⟨.operand, y⟩ t = .ok ⟨.operator, y.emit (.number x)⟩ := by
  cases h with
  | number hn => simp only [next, feed, hn]

theorem next_sign {t : Token} {s : Sign} (y : Yard) (h : t.Spells s.lexeme) :
    next ⟨.operand, y⟩ t = .ok ⟨.operand, y.push (.sign s)⟩ := by
  cases s with
  | positive =>
      cases h
      rfl
  | negative =>
      cases h
      rfl

theorem next_opening {t : Token} (y : Yard) (h : t.Spells .opening) :
    next ⟨.operand, y⟩ t = .ok ⟨.operand, y.push .parenthesis⟩ := by
  cases h
  rfl

theorem next_operator {t : Token} {o : Operator} (y : Yard)
    (h : t.Spells (.operator o)) :
    next ⟨.operator, y⟩ t
      = .ok ⟨.operand, (y.release fun e => o.rank ≤ e.rank).push
          (.operator o)⟩ := by
  cases h
  cases o <;> rfl

theorem next_closing {t : Token} {y y' : Yard} (h : t.Spells .closing)
    (hclose : y.close = (.ok .operator, y')) :
    next ⟨.operator, y⟩ t = .ok ⟨.operator, y'⟩ := by
  cases h
  have hfeed : y.feed .operator ⟨.parenthesis, [')']⟩ = (.ok .operator, y') :=
    hclose
  simp only [next, hfeed]

end Yard.State

/-! ## What a phrase leaves in the yard -/

/-- How tightly the operators of a category bind. -/
def Category.rank : Category → Nat
  | .sum => 1
  | .product => 2
  | .signed | .atom => 3

theorem Operator.Additive.rank {o : Operator} (h : o.Additive) :
    o.rank = Category.sum.rank := by
  cases h <;> rfl

theorem Operator.Multiplicative.rank {o : Operator} (h : o.Multiplicative) :
    o.rank = Category.product.rank := by
  cases h <;> rfl

/-- The stack under a phrase stays where it is while the phrase is read: its
    topmost entry binds less tightly than any operator of the phrase. -/
def Category.Above (c : Category) (stack : List Entry) : Prop :=
  c.rank < 3 → ∀ e ∈ stack.head?, e.rank < c.rank

namespace Yard

/-- Above `stack` the yard holds the program `p`, in part settled and in part
    waiting, and what waits binds at least as tightly as the category. -/
def Holds (c : Category) (p : Program) (stack : List Entry) (y : Yard) : Prop :=
  ∃ waiting, y.stack = waiting ++ stack
    ∧ (∀ e ∈ waiting, c.rank ≤ e.rank)
    ∧ y.output ++ waiting.filterMap Entry.node? = p

theorem Holds.mono {c c' : Category} {p : Program} {stack : List Entry}
    {y : Yard} (h : y.Holds c p stack) (hc : c'.rank ≤ c.rank) :
    y.Holds c' p stack := by
  obtain ⟨waiting, hstack, hrank, hprogram⟩ := h
  exact ⟨waiting, hstack, fun e he => Nat.le_trans hc (hrank e he), hprogram⟩

/-- What is settled already is held over any stack. -/
theorem holds_settled (c : Category) (p : Program) (stack : List Entry) :
    Holds c p stack ⟨p, stack⟩ := by
  refine ⟨[], rfl, ?_, List.append_nil p⟩
  rintro e ⟨⟩

/-- The topmost entry below a phrase is taken in as the last of its waiting
    ones. -/
theorem Holds.absorb {c : Category} {p : Program} {stack : List Entry}
    {y : Yard} {e : Entry} (h : y.Holds c p (e :: stack))
    (hc : c.rank ≤ e.rank) : y.Holds c (p ++ e.node?.toList) stack := by
  obtain ⟨waiting, hstack, hrank, hprogram⟩ := h
  refine ⟨waiting ++ [e], ?_, ?_, ?_⟩
  · rw [hstack, List.append_assoc]
    rfl
  · intro e' he'
    rcases List.mem_append.mp he' with hwaiting | hlast
    · exact hrank e' hwaiting
    · rw [List.mem_singleton.mp hlast]
      exact hc
  · rw [List.filterMap_append, ← List.append_assoc, hprogram]
    cases e <;> rfl

/-- A condition that the waiting entries of a phrase meet and the stack below
    does not settles the phrase and nothing else. -/
theorem release_of_holds {c : Category} {p : Program} {stack : List Entry}
    {y : Yard} (h : y.Holds c p stack) {q : Entry → Bool}
    (hq : ∀ e, c.rank ≤ e.rank → q e = true)
    (hstack : ∀ e ∈ stack.head?, q e = false) :
    y.release q = ⟨p, stack⟩ := by
  obtain ⟨waiting, hsplit, hrank, hprogram⟩ := h
  -- all that waits goes, and the entry below it stops the release
  have hall : ∀ e ∈ waiting, q e = true := fun e he => hq e (hrank e he)
  have htake : stack.takeWhile q = [] := by
    cases stack with
    | nil => rfl
    | cons e below => rw [List.takeWhile_cons, hstack e rfl]; rfl
  have hdrop : stack.dropWhile q = stack := by
    cases stack with
    | nil => rfl
    | cons e below => rw [List.dropWhile_cons, hstack e rfl]; rfl
  rw [release, hsplit, List.takeWhile_append_of_pos hall, htake,
    List.dropWhile_append_of_pos hall, hdrop, List.append_nil, hprogram]

/-- An operator settles the phrase to its left. -/
theorem release_operator {c : Category} {p : Program} {stack : List Entry}
    {y : Yard} {o : Operator} (h : y.Holds c p stack) (ho : o.rank = c.rank)
    (hstack : c.Above stack) :
    y.release (fun e => o.rank ≤ e.rank) = ⟨p, stack⟩ := by
  have hlow : c.rank < 3 := by
    rw [← ho]
    cases o <;> decide
  rw [ho]
  refine release_of_holds h ?_ ?_
  · intro e he
    exact decide_eq_true he
  · intro e he
    exact decide_eq_false (Nat.not_le.mpr (hstack hlow e he))

/-- A closing parenthesis settles the sentence back to the opening one. -/
theorem close_of_holds {p : Program} {stack : List Entry} {y : Yard}
    (h : y.Holds .sum p (.parenthesis :: stack)) :
    y.close = (.ok .operator, ⟨p, stack⟩) := by
  have hrelease : y.release (!·.isParenthesis)
      = ⟨p, .parenthesis :: stack⟩ := by
    refine release_of_holds h ?_ ?_
    · intro e he
      cases e with
      | parenthesis => exact absurd he (by decide)
      | sign s => rfl
      | operator o => rfl
    · rintro e ⟨⟩
      rfl
  simp only [close, hrelease]

/-- Two phrases with an operator between them are held as one phrase. -/
theorem holds_operator {c c' : Category} {out : Program} {l r : Tree}
    {stack : List Entry} {y : Yard} {o : Operator} (ho : o.rank = c.rank)
    (hc : c.rank ≤ c'.rank)
    (h : y.Holds c' (out ++ l.postorder ++ r.postorder)
      (.operator o :: stack)) :
    y.Holds c (out ++ (Tree.operator o l r).postorder) stack := by
  have hheld := (h.mono hc).absorb (Nat.le_of_eq ho.symm)
  rw [Tree.postorder, ← List.append_assoc, ← List.append_assoc]
  exact hheld

/-- A phrase with a sign in front of it is held as one phrase. -/
theorem holds_sign {out : Program} {t : Tree} {stack : List Entry} {y : Yard}
    {s : Sign} (h : y.Holds .signed (out ++ t.postorder) (.sign s :: stack)) :
    y.Holds .signed (out ++ (Tree.sign s t).postorder) stack := by
  have hheld := h.absorb (Nat.le_refl 3)
  rw [Tree.postorder, ← List.append_assoc]
  exact hheld

/-! ## What reading a phrase does -/

/-- Reading the tokens where an operand is due leaves the postorder of the
    tree in the yard, over an untouched stack, and an operator is due
    next. -/
def Takes (c : Category) (tokens : List Token) (t : Tree) : Prop :=
  ∀ (out : Program) (stack : List Entry), c.Above stack →
    ∃ y, State.read ⟨.operand, ⟨out, stack⟩⟩ tokens = .ok ⟨.operator, y⟩
      ∧ y.Holds c (out ++ t.postorder) stack

theorem takes_number {tok : Token} {x : Float} (h : tok.Spells (.number x)) :
    Takes .atom [tok] (.number x) := by
  intro out stack _
  refine ⟨⟨out ++ [.number x], stack⟩, ?_, holds_settled _ _ _⟩
  rw [State.read_cons, State.next_number _ h]
  rfl

/-- The parentheses around a sentence leave nothing of it waiting. -/
theorem Takes.group {inner : List Token} {tok tok' : Token} {t : Tree}
    (hopen : tok.Spells .opening) (h : Takes .sum inner t)
    (hclose : tok'.Spells .closing) :
    Takes .atom (tok :: inner ++ [tok']) t := by
  intro out stack _
  have habove : Category.sum.Above (.parenthesis :: stack) := by
    rintro - e ⟨⟩
    decide
  obtain ⟨y, hread, hholds⟩ := h out (.parenthesis :: stack) habove
  refine ⟨⟨out ++ t.postorder, stack⟩, ?_, holds_settled _ _ _⟩
  rw [List.cons_append, State.read_cons, State.next_opening _ hopen]
  show State.read ⟨.operand, ⟨out, .parenthesis :: stack⟩⟩
    (inner ++ [tok']) = _
  rw [State.read_append, hread]
  show State.read ⟨.operator, y⟩ [tok'] = _
  rw [State.read_cons, State.next_closing hclose (close_of_holds hholds)]
  rfl

/-- A sign waits until its operand has been read. -/
theorem Takes.sign {tokens : List Token} {tok : Token} {s : Sign} {t : Tree}
    (htok : tok.Spells s.lexeme) (h : Takes .signed tokens t) :
    Takes .signed (tok :: tokens) (.sign s t) := by
  intro out stack _
  have habove : Category.signed.Above (.sign s :: stack) := by
    intro hlow
    exact absurd hlow (by decide)
  obtain ⟨y, hread, hholds⟩ := h out (.sign s :: stack) habove
  refine ⟨y, ?_, holds_sign hholds⟩
  rw [State.read_cons, State.next_sign _ htok]
  exact hread

/-- A phrase belongs to the categories that bind less tightly as well. -/
theorem Takes.mono {c c' : Category} {tokens : List Token} {t : Tree}
    (h : Takes c tokens t) (hc : c'.rank ≤ c.rank) : Takes c' tokens t := by
  intro out stack habove
  have habove' : c.Above stack := by
    intro hlow e he
    exact Nat.lt_of_lt_of_le (habove (Nat.lt_of_le_of_lt hc hlow) e he) hc
  obtain ⟨y, hread, hholds⟩ := h out stack habove'
  exact ⟨y, hread, hholds.mono hc⟩

/-- An operator settles what is to its left and then waits itself, below all
    that is to its right. -/
theorem Takes.operator {c c' : Category} {left right : List Token}
    {tok : Token} {o : Operator} {l r : Tree} (ho : o.rank = c.rank)
    (hc : c.rank < c'.rank) (hl : Takes c left l)
    (htok : tok.Spells (.operator o)) (hr : Takes c' right r) :
    Takes c (left ++ tok :: right) (.operator o l r) := by
  intro out stack habove
  obtain ⟨y, hread, hholds⟩ := hl out stack habove
  have habove' : c'.Above (.operator o :: stack) := by
    rintro - e ⟨⟩
    exact Nat.lt_of_le_of_lt (Nat.le_of_eq ho) hc
  obtain ⟨y', hread', hholds'⟩ :=
    hr (out ++ l.postorder) (.operator o :: stack) habove'
  refine ⟨y', ?_, holds_operator ho (Nat.le_of_lt hc) hholds'⟩
  rw [State.read_append, hread]
  show State.read ⟨.operator, y⟩ (tok :: right) = _
  rw [State.read_cons, State.next_operator _ htok,
    release_operator hholds ho habove]
  exact hread'

end Yard

/-! ## Sentences -/

/-- **THE YARD FOLLOWS THE GRAMMAR**: the tokens of a phrase are taken as the
    tree of the phrase. -/
theorem Sentence.takes {c : Category} {w : List Lexeme} {t : Tree}
    (h : Sentence c w t) :
    ∀ {tokens : List Token}, Spelling tokens w → Yard.Takes c tokens t := by
  -- along the derivation, whose steps are the lemmas above one by one
  induction h with
  | number x =>
      intro tokens hspell
      obtain ⟨tok, rest, htok, hrest, rfl⟩ :=
        List.forall₂_cons_right_iff.mp hspell
      obtain rfl := List.forall₂_nil_right_iff.mp hrest
      exact Yard.takes_number htok
  | group _ ih =>
      intro tokens hspell
      obtain ⟨tok, rest, hopen, hrest, rfl⟩ :=
        List.forall₂_cons_right_iff.mp hspell
      obtain ⟨inner, last, rfl, hinner, hlast⟩ := Spelling.split hrest
      obtain ⟨tok', none', hclose, hnone, rfl⟩ :=
        List.forall₂_cons_right_iff.mp hlast
      obtain rfl := List.forall₂_nil_right_iff.mp hnone
      exact (ih hinner).group hopen hclose
  | sign s _ ih =>
      intro tokens hspell
      obtain ⟨tok, rest, htok, hrest, rfl⟩ :=
        List.forall₂_cons_right_iff.mp hspell
      exact (ih hrest).sign htok
  | unsigned _ ih =>
      intro tokens hspell
      exact (ih hspell).mono (Nat.le_refl 3)
  | factor _ ih =>
      intro tokens hspell
      exact (ih hspell).mono (by decide)
  | term _ ih =>
      intro tokens hspell
      exact (ih hspell).mono (by decide)
  | product o ho _ _ ihl ihr =>
      intro tokens hspell
      obtain ⟨left, rest, rfl, hleft, hrest⟩ := Spelling.split hspell
      obtain ⟨tok, right, htok, hright, rfl⟩ :=
        List.forall₂_cons_right_iff.mp hrest
      exact (ihl hleft).operator ho.rank (by decide) htok (ihr hright)
  | sum o ho _ _ ihl ihr =>
      intro tokens hspell
      obtain ⟨left, rest, rfl, hleft, hrest⟩ := Spelling.split hspell
      obtain ⟨tok, right, htok, hright, rfl⟩ :=
        List.forall₂_cons_right_iff.mp hrest
      exact (ihl hleft).operator ho.rank (by decide) htok (ihr hright)

/-- The program of a text that spells a sentence is the postorder of its
    tree. -/
theorem Program.ofText_of_sentence {u : Text} {w : List Lexeme} {t : Tree}
    (hfault : (Token.scan u).fault = none)
    (hspell : Spelling (Token.scan u).tokens w) (h : Sentence .sum w t) :
    Program.ofText u = .ok t.postorder := by
  have habove : Category.sum.Above [] := by
    rintro - e ⟨⟩
  obtain ⟨⟨out, stack⟩, hread, waiting, hstack, hrank, hprogram⟩ :=
    h.takes hspell [] [] habove
  rw [List.append_nil] at hstack
  have hstack' : stack = waiting := hstack
  subst hstack'
  -- nothing that waits is a parenthesis, so the program can be finished
  have hopen : stack.any Entry.isParenthesis = false := by
    rw [List.any_eq_false]
    intro e he hparenthesis
    cases e with
    | parenthesis => exact absurd (hrank _ he) (by decide)
    | sign s => cases hparenthesis
    | operator o => cases hparenthesis
  have hstart : Yard.State.start.read (Token.scan u).tokens
      = .ok ⟨.operator, ⟨out, stack⟩⟩ := hread
  simp only [Program.ofText, hstart, hfault]
  show Yard.finish ⟨out, stack⟩ = _
  rw [Yard.finish, hopen]
  exact congrArg Except.ok hprogram

/-- **A SENTENCE HAS THE VALUE OF ITS TREE**, unless that is not finite. -/
theorem evaluatePlain_of_sentence {u : Text} {w : List Lexeme} {t : Tree}
    (hfault : (Token.scan u).fault = none)
    (hspell : Spelling (Token.scan u).tokens w) (h : Sentence .sum w t) :
    evaluatePlain u
      = if t.value.isFinite then .ok t.value else .error .notFinite := by
  rw [evaluatePlain, Program.ofText_of_sentence hfault hspell h]
  exact Program.evaluate_postorder t

end Keypad
