import Keypad.Proofs.Grammar
import Keypad.Proofs.Reader

/-! # Acceptance — the texts that have a program

    The yard takes a token only where the token stands for a lexeme that may
    stand there (`Yard.State.next_cases`), so the tokens it gets through are
    a walk, and a text that has a program is a sentence.  The program is then
    known without a look at the stack: the yard follows the grammar, and it
    has no choice.

    Number tokens need a word of their own.  The reader of numerals takes
    more than a keypad can type, but of a run of digits and points it takes
    exactly the numbers in digits (`Numeral.written_iff`). -/

namespace Keypad

/-! ## Numbers in digits -/

namespace Numeral

/-- A run of digits and points that is read is a number in digits. -/
theorem exists_digitsText {negative : Bool} {u : Text} {n : Numeral}
    (hall : ∀ c ∈ u, Token.isNumeric c = true)
    (h : decimal? negative u = some n) :
    ∃ whole fraction, u = digitsText whole fraction
      ∧ whole ++ fraction.getD [] ≠ []
      ∧ ∀ c ∈ whole ++ fraction.getD [], c.isDigit = true := by
  have hsplit : u.takeWhile Char.isDigit ++ u.dropWhile Char.isDigit = u :=
    List.takeWhile_append_dropWhile
  have hwhole : ∀ c ∈ u.takeWhile Char.isDigit, c.isDigit = true := fun c hc =>
    List.mem_takeWhile_imp hc
  rw [decimal?] at h
  cases hrest : u.dropWhile Char.isDigit with
  | nil =>
      rw [hrest, List.append_nil] at hsplit
      rw [hsplit] at hwhole h
      simp only [hrest, List.append_nil] at h
      refine ⟨u, none, rfl, ?_, ?_⟩
      · rintro hnil
        rw [Option.getD_none, List.append_nil] at hnil
        rw [hnil] at h
        cases h
      · rw [Option.getD_none, List.append_nil]
        exact hwhole
  | cons c r =>
      -- what stops the digits is numeric and no digit
      have hc : c = '.' := by
        have hstop := List.head?_dropWhile_not Char.isDigit u
        rw [hrest] at hstop
        have hdigit : c.isDigit = false := by simpa using hstop
        have hnumeric : Token.isNumeric c = true := by
          refine hall c ?_
          rw [← hsplit, hrest]
          exact List.mem_append_right _ (List.mem_cons_self ..)
        rw [Token.isNumeric, hdigit, Bool.false_or] at hnumeric
        exact eq_of_beq hnumeric
      subst hc
      simp only [hrest] at h
      -- and no exponent can follow the digits behind the point
      have htail : r.dropWhile Char.isDigit = [] := by
        cases htail : r.dropWhile Char.isDigit with
        | nil => rfl
        | cons m t =>
            have hnumeric : Token.isNumeric m = true := by
              refine hall m ?_
              rw [← hsplit, hrest]
              refine List.mem_append_right _ (List.mem_cons_of_mem _ ?_)
              refine (List.dropWhile_sublist Char.isDigit).mem ?_
              rw [htail]
              exact List.mem_cons_self ..
            have hmark : (m == 'e' || m == 'E') = false := by
              have hbounds := Token.toNat_bounds_of_isNumeric hnumeric
              rw [Bool.or_eq_false_iff, beq_eq_false_iff_ne,
                beq_eq_false_iff_ne]
              constructor <;> rintro rfl <;> exact absurd hbounds (by decide)
            simp [htail, exponent?, hmark] at h
      have hr : r.takeWhile Char.isDigit = r := by
        have hsplit' := List.takeWhile_append_dropWhile
          (p := Char.isDigit) (l := r)
        rw [htail, List.append_nil] at hsplit'
        exact hsplit'
      have hfraction : ∀ c ∈ r, c.isDigit = true := by
        intro c hc
        rw [← hr] at hc
        exact List.mem_takeWhile_imp hc
      refine ⟨u.takeWhile Char.isDigit, some r, ?_, ?_, ?_⟩
      · rw [digitsText, ← hrest, hsplit]
      · intro hnil
        rw [Option.getD_some] at hnil
        simp [hr, hnil] at h
      · intro c hc
        rcases List.mem_append.mp hc with hw | hf
        · exact hwhole c hw
        · exact hfraction c hf

/-- A number in digits is a written number. -/
theorem written_digitsText {whole : Text} {fraction : Option Text}
    (hne : whole ++ fraction.getD [] ≠ [])
    (hall : ∀ c ∈ whole ++ fraction.getD [], c.isDigit = true) :
    Written (digitsText whole fraction)
      (Numeral.decimal (digitsDecimal false whole fraction)).toFloat := by
  rw [toFloat_digitsDecimal]
  cases fraction with
  | none =>
      rw [Option.getD_none, List.append_nil] at hne hall
      exact .whole hne hall
  | some fraction => exact .point hne hall

/-- **OF DIGITS AND POINTS** exactly the numbers in digits are read, each as
    the float nearest to it. -/
theorem written_iff {u : Text} {x : Float}
    (hall : ∀ c ∈ u, Token.isNumeric c = true) :
    Written u x ↔ ∃ n, ofText? u = some n ∧ n.toFloat = x := by
  constructor
  · intro h
    cases h with
    | whole hne hdigits =>
        rw [← List.append_nil u] at hne hdigits
        have hread : ofText? (digitsText u none) = _ :=
          ofText?_digitsText hne hdigits
        refine ⟨_, hread, ?_⟩
        rw [toFloat_digitsDecimal]
        rfl
    | @point ds fs hne hdigits =>
        have hread : ofText? (digitsText ds (some fs)) = _ :=
          ofText?_digitsText hne hdigits
        refine ⟨_, hread, ?_⟩
        rw [toFloat_digitsDecimal]
        rfl
  · rintro ⟨n, hn, rfl⟩
    cases u with
    | nil => cases hn
    | cons c t =>
        rw [ofText?_of_numeric t (hall c (List.mem_cons_self ..))] at hn
        obtain ⟨whole, fraction, hu, hne, hdigits⟩ := exists_digitsText hall hn
        rw [hu, decimal?_digitsText false hne hdigits] at hn
        rw [hu, ← Option.some.inj hn]
        exact written_digitsText hne hdigits

end Numeral

namespace Token

/-- A digit or a point begins a number token. -/
theorem exists_tokens_scan_numeric {c : Char} (t : Text)
    (h : isNumeric c = true) :
    ∃ content rest, (scan (c :: t)).tokens = ⟨.number, c :: content⟩ :: rest := by
  rw [scan_numeric_cons t h]
  cases t.head?.any isNumeric with
  | false => exact ⟨[], _, rfl⟩
  | true =>
      simp only [Scan.pushNumeric]
      split
      · exact ⟨_, _, rfl⟩
      · exact ⟨[], _, rfl⟩

/-- The number tokens of a text are made of digits and points. -/
theorem isNumeric_of_mem_scan {t : Text} {tok : Token}
    (htok : tok ∈ (scan t).tokens) (hkind : tok.kind = .number) :
    ∀ c ∈ tok.content, isNumeric c = true := by
  induction t generalizing tok with
  | nil => cases htok
  | cons c t ih =>
      cases hblank : Text.isBlank c with
      | true =>
          rw [scan_blank t hblank] at htok
          exact ih htok hkind
      | false =>
        cases hnumeric : isNumeric c with
        | true =>
            rw [scan_numeric_cons t hnumeric] at htok
            cases htouches : t.head?.any isNumeric with
            | false =>
                rw [htouches] at htok
                rcases List.mem_cons.mp htok with rfl | hrest
                · intro d hd
                  rw [List.mem_singleton.mp hd]
                  exact hnumeric
                · exact ih hrest hkind
            | true =>
                -- the number in front grows by the character
                rw [htouches] at htok
                cases t with
                | nil => cases htouches
                | cons d t =>
                    obtain ⟨content, rest, htokens⟩ :=
                      exists_tokens_scan_numeric t htouches
                    simp only [Scan.pushNumeric, htokens] at htok
                    rcases List.mem_cons.mp htok with rfl | hrest
                    · intro e he
                      rcases List.mem_cons.mp he with rfl | he
                      · exact hnumeric
                      · have hfirst : ⟨.number, d :: content⟩
                            ∈ (scan (d :: t)).tokens := by
                          rw [htokens]
                          exact List.mem_cons_self ..
                        exact ih hfirst rfl e he
                    · refine ih ?_ hkind
                      rw [htokens]
                      exact List.mem_cons_of_mem _ hrest
        | false =>
          cases hsingle : single? c with
          | some tok' =>
              rw [scan_single t hblank hnumeric hsingle] at htok
              rcases List.mem_cons.mp htok with rfl | hrest
              · rcases single?_cases hsingle with
                  ⟨o, -, rfl⟩ | ⟨-, rfl⟩ | ⟨-, rfl⟩ <;> cases hkind
              · exact ih hrest hkind
          | none =>
              rw [scan_unknown t hblank hnumeric hsingle] at htok
              cases htok

/-- A token that is read as a sign spells that sign. -/
theorem spells_sign {content : Text} {s : Sign}
    (h : Sign.ofText? content = some s) : Spells ⟨.operator, content⟩ s.lexeme := by
  unfold Sign.ofText? at h
  split at h
  · obtain rfl := Option.some.inj h
    exact .operator .add
  · obtain rfl := Option.some.inj h
    exact .operator .subtract
  · cases h

/-- A token that is read as an operator spells that operator. -/
theorem spells_operator {content : Text} {o : Operator}
    (h : Operator.ofText? content = some o) :
    Spells ⟨.operator, content⟩ (.operator o) := by
  unfold Operator.ofText? at h
  split at h
  · rw [Operator.ofSymbol?_eq_some.mp h]
    exact .operator o
  · cases h

/-- The lexeme of a token, a number token being a number in digits. -/
inductive Denotes : Token → Lexeme → Prop where
  | number {content : Text} {x : Float} : Numeral.Written content x →
      Denotes ⟨.number, content⟩ (.number x)
  | operator (o : Operator) : Denotes ⟨.operator, [o.symbol]⟩ (.operator o)
  | opening : Denotes ⟨.parenthesis, ['(']⟩ .opening
  | closing : Denotes ⟨.parenthesis, [')']⟩ .closing

/-- Among the tokens of a text a token denotes the lexeme that it spells. -/
theorem denotes_iff_spells {t : Text} {tok : Token} {l : Lexeme}
    (htok : tok ∈ (scan t).tokens) : tok.Denotes l ↔ tok.Spells l := by
  constructor
  · intro h
    cases h with
    | number hwritten =>
        obtain ⟨n, hn, rfl⟩ := (Numeral.written_iff
          (isNumeric_of_mem_scan htok rfl)).mp hwritten
        exact .number hn
    | operator o => exact .operator o
    | opening => exact .opening
    | closing => exact .closing
  · intro h
    cases h with
    | number hn =>
        exact .number ((Numeral.written_iff
          (isNumeric_of_mem_scan htok rfl)).mpr ⟨_, hn, rfl⟩)
    | operator o => exact .operator o
    | opening => exact .opening
    | closing => exact .closing

end Token

/-- Tokens as lexemes, one by one. -/
abbrev Denotation : List Token → List Lexeme → Prop :=
  List.Forall₂ Token.Denotes

/-- The tokens of a text denote what they spell. -/
theorem denotation_iff_spelling {t : Text} {w : List Lexeme} :
    Denotation (Token.scan t).tokens w ↔ Spelling (Token.scan t).tokens w := by
  -- of every token it may be assumed that it is one of them
  have hmem : ∀ tok ∈ (Token.scan t).tokens, tok ∈ (Token.scan t).tokens :=
    fun _ h => h
  constructor
  · intro h
    exact ((List.forall₂_and_left _ _).mpr ⟨hmem, h⟩).imp fun _ _ h =>
      (Token.denotes_iff_spells h.1).mp h.2
  · intro h
    exact ((List.forall₂_and_left _ _).mpr ⟨hmem, h⟩).imp fun _ _ h =>
      (Token.denotes_iff_spells h.1).mpr h.2

/-! ## What the yard takes -/

namespace Yard

/-- Why a token is refused, with so many parentheses open: for what it is
    itself, or as a closing parenthesis while none is open. -/
inductive Refusal (opened : Nat) : Token → Fault → Prop where
  | notANumeral (t : Token) : Refusal opened t (.notANumeral t.content)
  | misplaced (t : Token) : Refusal opened t (.misplacedOperator t.content)
  | unexpected (t : Token) : Refusal opened t (.unexpected t.content)
  | unopened : opened = 0 → Refusal opened ⟨.parenthesis, [')']⟩ .unopened

namespace State

/-- Where a state of the yard stands in a sentence. -/
def position (s : State) : Position := ⟨s.slot, s.yard.opened⟩

/-- The token is taken for a lexeme that may stand here. -/
def Accepts (s : State) (t : Token) : Prop :=
  ∃ l s', s.next t = .ok s' ∧ t.Spells l
    ∧ s.position.step l = some s'.position

/-- The token is refused. -/
def Rejects (s : State) (t : Token) : Prop :=
  ∃ f, s.next t = .error f ∧ Refusal s.yard.opened t f

/-- Where an operand is due, a number, a sign or an opening parenthesis is
    taken. -/
theorem next_cases_operand (y : Yard) (t : Token) :
    Accepts ⟨.operand, y⟩ t ∨ Rejects ⟨.operand, y⟩ t := by
  obtain ⟨kind, content⟩ := t
  cases kind with
  | number =>
      cases hn : Numeral.ofText? content with
      | none =>
          refine Or.inr ⟨_, ?_, .notANumeral _⟩
          simp only [next, feed, hn]
      | some n =>
          refine Or.inl ⟨_, ⟨.operator, y.emit (.number n.toFloat)⟩, ?_,
            .number hn, rfl⟩
          simp only [next, feed, hn]
  | operator =>
      cases hs : Sign.ofText? content with
      | none =>
          refine Or.inr ⟨_, ?_, .misplaced _⟩
          simp only [next, feed, hs]
      | some s =>
          refine Or.inl ⟨s.lexeme, ⟨.operand, y.push (.sign s)⟩, ?_,
            Token.spells_sign hs, Position.step_sign _ s⟩
          simp only [next, feed, hs]
  | parenthesis =>
      by_cases hopening : content = ['(']
      · subst hopening
        refine Or.inl ⟨.opening, ⟨.operand, y.push .parenthesis⟩, rfl,
          .opening, ?_⟩
        have hopened : (y.push .parenthesis).opened = y.opened + 1 :=
          List.countP_cons_of_pos rfl
        rw [position, position, hopened]
        rfl
      · refine Or.inr ⟨_, ?_, .unexpected _⟩
        simp only [next, feed, if_neg hopening]

/-- After an operand, an operator or the partner of an open parenthesis is
    taken. -/
theorem next_cases_operator (y : Yard) (t : Token) :
    Accepts ⟨.operator, y⟩ t ∨ Rejects ⟨.operator, y⟩ t := by
  obtain ⟨kind, content⟩ := t
  cases kind with
  | number => exact Or.inr ⟨_, rfl, .unexpected _⟩
  | operator =>
      cases ho : Operator.ofText? content with
      | none =>
          refine Or.inr ⟨_, ?_, .misplaced _⟩
          simp only [next, feed, ho]
      | some o =>
          refine Or.inl ⟨.operator o, ⟨.operand,
            (y.release fun e => o.rank ≤ e.rank).push (.operator o)⟩, ?_,
            Token.spells_operator ho, ?_⟩
          · simp only [next, feed, ho]
          · have hopened : ((y.release fun e => o.rank ≤ e.rank).push
                (.operator o)).opened = y.opened := opened_release o y
            rw [position, position, hopened]
            rfl
  | parenthesis =>
      by_cases hclosing : content = [')']
      · subst hclosing
        have hfeed : y.feed .operator ⟨.parenthesis, [')']⟩ = y.close := rfl
        cases hopened : y.opened with
        | zero =>
            obtain ⟨y', hclose, -⟩ := close_of_opened_zero hopened
            refine Or.inr ⟨_, ?_, .unopened hopened⟩
            simp only [next, hfeed, hclose]
        | succ n =>
            obtain ⟨y', hclose, hopened'⟩ := close_of_opened hopened
            refine Or.inl ⟨.closing, ⟨.operator, y'⟩, ?_, .closing, ?_⟩
            · simp only [next, hfeed, hclose]
            · rw [position, position, hopened, hopened']
              rfl
      · refine Or.inr ⟨_, ?_, .unexpected _⟩
        simp only [next, feed, if_neg hclosing]

/-- **ONE TOKEN**: it is taken for a lexeme that may stand there, or it is
    refused. -/
theorem next_cases (s : State) (t : Token) : s.Accepts t ∨ s.Rejects t := by
  obtain ⟨slot, y⟩ := s
  cases slot with
  | operand => exact next_cases_operand y t
  | operator => exact next_cases_operator y t

/-- A token that is taken spells a lexeme that may stand there. -/
theorem next_walks {s s' : State} {t : Token} (h : s.next t = .ok s') :
    ∃ l, t.Spells l ∧ s.position.step l = some s'.position := by
  rcases s.next_cases t with ⟨l, s₁, hnext, hl, hstep⟩ | ⟨f, hnext, -⟩
  · rw [hnext] at h
    rw [← Except.ok.inj h]
    exact ⟨l, hl, hstep⟩
  · rw [hnext] at h
    cases h

/-- A token that is not taken is refused for itself or for want of a
    partner. -/
theorem refusal_of_next {s : State} {t : Token} {f : Fault}
    (h : s.next t = .error f) : Refusal s.yard.opened t f := by
  rcases s.next_cases t with ⟨l, s₁, hnext, -, -⟩ | ⟨f', hnext, hrefusal⟩
  · rw [hnext] at h
    cases h
  · rw [hnext] at h
    rw [← Except.error.inj h]
    exact hrefusal

/-- The tokens that are taken spell a walk. -/
theorem read_walks {tokens : List Token} :
    ∀ {s s' : State}, s.read tokens = .ok s' →
      ∃ w, Spelling tokens w ∧ s.position.walk w = some s'.position := by
  induction tokens with
  | nil =>
      intro s s' h
      obtain rfl := Except.ok.inj h
      exact ⟨[], .nil, rfl⟩
  | cons t tokens ih =>
      intro s s' h
      rw [read_cons] at h
      cases hnext : s.next t with
      | error f =>
          rw [hnext] at h
          cases h
      | ok s₁ =>
          rw [hnext] at h
          obtain ⟨l, hl, hstep⟩ := next_walks hnext
          obtain ⟨w, hw, hwalk⟩ := ih h
          refine ⟨l :: w, .cons hl hw, ?_⟩
          rw [Position.walk_cons, hstep]
          exact hwalk

/-- A state that has a program stands at the goal. -/
theorem position_of_finish {s : State} {p : Program} (h : s.finish = .ok p) :
    s.position = Position.goal := by
  obtain ⟨slot, y⟩ := s
  cases slot with
  | operand => cases h
  | operator =>
      have hfinish : y.finish = .ok p := h
      have hopened : y.opened = 0 := by
        by_contra hne
        rw [finish_of_opened hne] at hfinish
        cases hfinish
      rw [position, hopened]
      rfl

end State

end Yard

/-- **A TEXT THAT HAS A PROGRAM IS A SENTENCE**, and the program is the
    postorder of its structure. -/
theorem Program.exists_sentence {t : Text} {p : Program}
    (h : Program.ofText t = .ok p) :
    (Token.scan t).fault = none
      ∧ ∃ w tree, Spelling (Token.scan t).tokens w ∧ Sentence .sum w tree
        ∧ p = tree.postorder := by
  have hread := h
  rw [ofText] at hread
  cases hstate : Yard.State.start.read (Token.scan t).tokens with
  | error f =>
      simp only [hstate] at hread
      cases hread
  | ok s =>
      cases hfault : (Token.scan t).fault with
      | some f =>
          simp only [hstate, hfault] at hread
          cases hread
      | none =>
          simp only [hstate, hfault] at hread
          obtain ⟨w, hw, hwalk⟩ := Yard.State.read_walks hstate
          rw [Yard.State.position_of_finish hread] at hwalk
          obtain ⟨tree, htree⟩ :=
            grammatical_iff.mp (grammatical_iff_walk.mpr hwalk)
          refine ⟨rfl, w, tree, hw, htree, ?_⟩
          -- a sentence has one program
          have hsame := Program.ofText_of_sentence hfault hw htree
          rw [h] at hsame
          exact Except.ok.inj hsame

/-- A text that has a program has a value, unless that is not finite. -/
theorem evaluatePlain_of_ofText {t : Text} {p : Program}
    (h : Program.ofText t = .ok p) :
    (∃ x, evaluatePlain t = .ok x) ∨ evaluatePlain t = .error .notFinite := by
  obtain ⟨-, w, tree, -, -, rfl⟩ := Program.exists_sentence h
  rw [evaluatePlain, h]
  show (∃ x, tree.postorder.evaluate = .ok x) ∨ tree.postorder.evaluate = _
  rw [Program.evaluate_postorder]
  by_cases hfinite : tree.value.isFinite = true
  · rw [if_pos hfinite]
    exact Or.inl ⟨_, rfl⟩
  · rw [if_neg hfinite]
    exact Or.inr rfl

/-- **THE PROGRAM OF A TEXT**: a text has a program exactly if it scans and
    its tokens are a sentence: operands with operators between them, each
    operand an atom with signs in front, each number token a number in digits.
    The program is the postorder of the structure in which signs bind
    tightest, multiplication, division and remainder more tightly than
    addition and subtraction, and all operators associate to the left. -/
theorem program_iff_sentence (t : Text) :
    ((∃ p, Program.ofText t = .ok p) ↔
      (Token.scan t).fault = none
        ∧ ∃ w, Denotation (Token.scan t).tokens w ∧ Grammatical .sentence w)
    ∧ ∀ p, Program.ofText t = .ok p ↔
      (Token.scan t).fault = none
        ∧ ∃ w tree, Denotation (Token.scan t).tokens w
          ∧ Sentence .sum w tree ∧ p = tree.postorder := by
  have hstructure : ∀ p, Program.ofText t = .ok p ↔
      (Token.scan t).fault = none
        ∧ ∃ w tree, Denotation (Token.scan t).tokens w
          ∧ Sentence .sum w tree ∧ p = tree.postorder := by
    intro p
    constructor
    · intro hp
      obtain ⟨hfault, w, tree, hw, htree⟩ := Program.exists_sentence hp
      exact ⟨hfault, w, tree, denotation_iff_spelling.mpr hw, htree⟩
    · rintro ⟨hfault, w, tree, hw, htree, rfl⟩
      exact Program.ofText_of_sentence hfault (denotation_iff_spelling.mp hw)
        htree
  refine ⟨?_, hstructure⟩
  constructor
  · rintro ⟨p, hp⟩
    obtain ⟨hfault, w, tree, hw, htree, -⟩ := (hstructure p).mp hp
    exact ⟨hfault, w, hw, grammatical_iff.mpr ⟨tree, htree⟩⟩
  · rintro ⟨hfault, w, hw, hgrammatical⟩
    obtain ⟨tree, htree⟩ := grammatical_iff.mp hgrammatical
    exact ⟨_, (hstructure _).mpr ⟨hfault, w, tree, hw, htree, rfl⟩⟩

/-- Signs before products, products before sums, and each from the left:
    `((-8) - 3 / (2 + 1)) - (10 % 4) * 2`. -/
theorem ofText_mixed_precedence :
    Program.ofText "-8-3/(2+1)-10%4*2".toList
      = .ok [.number 8.0, .sign .negative, .number 3.0, .number 2.0,
          .number 1.0, .operator .add, .operator .divide, .operator .subtract,
          .number 10.0, .number 4.0, .operator .remainder, .number 2.0,
          .operator .multiply, .operator .subtract] := by
  have hdenotes : ∀ u : Text, u ≠ [] → u.all Char.isDigit = true →
      Token.Denotes ⟨.number, u⟩ (.number (Numeral.digitsFloat u [])) :=
    fun u hne hall => .number (.whole hne (List.all_eq_true.mp hall))
  have hdenotation : Denotation (Token.scan "-8-3/(2+1)-10%4*2".toList).tokens
      _ :=
    .cons (.operator .subtract) <| .cons (hdenotes ['8'] nofun rfl) <|
    .cons (.operator .subtract) <| .cons (hdenotes ['3'] nofun rfl) <|
    .cons (.operator .divide) <| .cons .opening <|
    .cons (hdenotes ['2'] nofun rfl) <| .cons (.operator .add) <|
    .cons (hdenotes ['1'] nofun rfl) <| .cons .closing <|
    .cons (.operator .subtract) <|
    .cons (hdenotes ['1', '0'] nofun rfl) <|
    .cons (.operator .remainder) <|
    .cons (hdenotes ['4'] nofun rfl) <|
    .cons (.operator .multiply) <|
    .cons (hdenotes ['2'] nofun rfl) .nil
  have hnumber : ∀ u : Text,
      Sentence .signed [.number (Numeral.digitsFloat u [])] _ := fun u =>
    .unsigned (.number _)
  have hnegative := Sentence.factor (.sign .negative (hnumber ['8']))
  have hgroup := Sentence.unsigned (.group (.sum .add .add
    (.term (.factor (hnumber ['2']))) (.factor (hnumber ['1']))))
  have hquotient := Sentence.product .divide .divide
    (.factor (hnumber ['3'])) hgroup
  have hremainder := Sentence.product .remainder .remainder
    (.factor (hnumber ['1', '0'])) (hnumber ['4'])
  have hproduct := Sentence.product .multiply .multiply hremainder
    (hnumber ['2'])
  have hsum := Sentence.sum .subtract .subtract
    (.sum .subtract .subtract (.term hnegative) hquotient) hproduct
  exact ((program_iff_sentence _).2 _).mpr
    ⟨rfl, _, _, hdenotation, hsum, by decide +kernel⟩

end Keypad
