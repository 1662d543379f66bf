import Keypad.Proofs.Scanning
import Keypad.Spaced

/-! # Factorization — a text is its tokens and what stands around them

    Toward: every text is in exactly one way a row of words with blanks around
    them, and behind them nothing or a rest that no word can begin; and scanning
    finds these words and that rest.

    A factorization is stated without the scanner: which texts are words, that
    blanks alone stand around them, that two numbers do not touch, and what the
    rest begins with.  The scanner goes through a factorization word by word
    (`Factorization.Of.scan_eq`), each character in front of a text extends the
    factorization of that text (`exists_of`), and what is a blank, what a word
    and what the rest can be read off the text (`Of.unique`). -/

namespace Keypad

/-! ## Spaced words -/

namespace Spaced

variable {α : Type} {write : α → Text}

/-- Blanks end where something else begins. -/
theorem takeWhile_blanks {u t : Text} {c : Char}
    (hu : ∀ a ∈ u, Text.isBlank a = true) (hc : Text.isBlank c = false) :
    (u ++ c :: t).takeWhile Text.isBlank = u := by
  rw [List.takeWhile_append_of_pos hu,
    List.takeWhile_cons_of_neg (Bool.eq_false_iff.mp hc), List.append_nil]

/-- **NO CHOICE OF BLANKS.**  Where no word begins with a blank, the text and
    the words leave no choice of what stands around them. -/
theorem eq_of_text_eq {s s' : Spaced α} (hs : s.Blank) (hs' : s'.Blank)
    (hlist : s.list = s'.list)
    (hword : ∀ a ∈ s.list, ∃ c u, write a = c :: u ∧ Text.isBlank c = false)
    (htext : s.text write = s'.text write) : s = s' := by
  obtain ⟨front, words⟩ := s
  obtain ⟨front', words'⟩ := s'
  induction words generalizing front front' words' with
  | nil =>
      obtain rfl : words' = [] := List.map_eq_nil_iff.mp hlist.symm
      rw [text_nil, text_nil] at htext
      rw [htext]
  | cons p words ih =>
      obtain ⟨a, gap⟩ := p
      cases words' with
      | nil => cases hlist
      | cons p' words' =>
          obtain ⟨a', gap'⟩ := p'
          obtain ⟨rfl, hlist'⟩ := List.cons.inj hlist
          obtain ⟨c, u, hwrite, hc⟩ := hword a List.mem_cons_self
          have hfront : front = front' := by
            have hblanks := congrArg (List.takeWhile Text.isBlank) htext
            rwa [text_cons, text_cons, hwrite, List.cons_append,
              List.cons_append, takeWhile_blanks hs.front hc,
              takeWhile_blanks hs'.front hc] at hblanks
          rw [text_cons, text_cons, hfront] at htext
          have hrest := List.append_cancel_left
            (List.append_cancel_left htext)
          have hsame := ih gap hs.of_cons
            (fun b hb => hword b (List.mem_cons_of_mem a hb))
            gap' words' hs'.of_cons hlist' hrest
          obtain ⟨rfl, rfl⟩ := Spaced.mk.inj hsame
          rw [hfront]

end Spaced

namespace Token

/-! ## Words -/

/-- The texts that are tokens, each with its kind. -/
inductive IsWord : Token → Prop where
  | number {u : Text} : u ≠ [] → (∀ c ∈ u, isNumeric c = true) →
      IsWord ⟨.number, u⟩
  | operator (o : Operator) : IsWord ⟨.operator, [o.symbol]⟩
  | opening : IsWord ⟨.parenthesis, ['(']⟩
  | closing : IsWord ⟨.parenthesis, [')']⟩

/-- A character that is no blank and that no word has. -/
def isForeign (c : Char) : Bool :=
  !Text.isBlank c && !isNumeric c
    && !(['+', '-', '*', '/', '%', '(', ')'].contains c)

/-- Two numbers in a row have something between them. -/
def Separated (p q : Token × Text) : Prop :=
  p.1.kind = .number → q.1.kind = .number → p.2 ≠ []

theorem isForeign_of_isBlank {c : Char} (h : Text.isBlank c = true) :
    isForeign c = false := by
  rw [isForeign, h]
  rfl

theorem isForeign_of_isNumeric {c : Char} (h : isNumeric c = true) :
    isForeign c = false := by
  rw [isForeign, h, Bool.not_true, Bool.and_false, Bool.false_and]

/-- A character that stands for itself is a word. -/
theorem isWord_of_single? {c : Char} {tok : Token} (h : single? c = some tok) :
    IsWord tok ∧ tok.content = [c] ∧ tok.kind ≠ .number := by
  rcases single?_cases h with ⟨o, rfl, rfl⟩ | ⟨rfl, rfl⟩ | ⟨rfl, rfl⟩
  · exact ⟨.operator o, rfl, nofun⟩
  · exact ⟨.opening, rfl, nofun⟩
  · exact ⟨.closing, rfl, nofun⟩

/-- What is foreign, as the scanner asks for it. -/
theorem isForeign_iff {c : Char} :
    isForeign c = true ↔
      Text.isBlank c = false ∧ isNumeric c = false ∧ single? c = none := by
  have hsingle : single? c = none ↔
      ['+', '-', '*', '/', '%', '(', ')'].contains c = false := by
    constructor
    · intro h
      by_contra hmem
      have hmem' := List.contains_iff_mem.mp (Bool.eq_true_of_not_eq_false hmem)
      simp only [List.mem_cons, List.not_mem_nil, or_false] at hmem'
      rcases hmem' with rfl | rfl | rfl | rfl | rfl | rfl | rfl <;>
        exact absurd h (by decide)
    · intro h
      cases hc : single? c with
      | none => rfl
      | some tok =>
          rcases single?_cases hc with ⟨o, rfl, -⟩ | ⟨rfl, -⟩ | ⟨rfl, -⟩
          · cases o <;> cases h
          · cases h
          · cases h
  rw [hsingle, isForeign, Bool.and_eq_true, Bool.and_eq_true, and_assoc,
    Bool.not_eq_true', Bool.not_eq_true', Bool.not_eq_true']

namespace IsWord

variable {tok : Token}

/-- A word is scanned as itself. -/
theorem scan_content (h : IsWord tok) : scan tok.content = ⟨[tok], none⟩ := by
  cases h with
  | number hne hall => exact scan_of_numeric hne hall
  | operator o => cases o <;> rfl
  | opening => rfl
  | closing => rfl

/-- A word begins, and not with a blank. -/
theorem content_cons (h : IsWord tok) :
    ∃ c u, tok.content = c :: u ∧ Text.isBlank c = false := by
  cases h with
  | @number u hne hall =>
      obtain ⟨c, t, rfl⟩ := List.exists_cons_of_ne_nil hne
      exact ⟨c, t, rfl, isBlank_of_isNumeric (hall c List.mem_cons_self)⟩
  | operator o => cases o <;> exact ⟨_, [], rfl, rfl⟩
  | opening => exact ⟨_, [], rfl, rfl⟩
  | closing => exact ⟨_, [], rfl, rfl⟩

/-- No character of a word is foreign. -/
theorem isForeign_of_mem (h : IsWord tok) {c : Char} (hc : c ∈ tok.content) :
    isForeign c = false := by
  cases h with
  | number _ hall => exact isForeign_of_isNumeric (hall c hc)
  | operator o =>
      rw [List.mem_singleton.mp hc]
      cases o <;> rfl
  | opening => rw [List.mem_singleton.mp hc]; rfl
  | closing => rw [List.mem_singleton.mp hc]; rfl

/-- What is no number has no digit and no point. -/
theorem isNumeric_of_mem (h : IsWord tok) (hkind : tok.kind ≠ .number)
    {c : Char} (hc : c ∈ tok.content) : isNumeric c = false := by
  cases h with
  | number _ _ => exact absurd rfl hkind
  | operator o =>
      rw [List.mem_singleton.mp hc]
      cases o <;> rfl
  | opening => rw [List.mem_singleton.mp hc]; rfl
  | closing => rw [List.mem_singleton.mp hc]; rfl

/-- Only a number can grow into what follows. -/
theorem apart (h : IsWord tok) {v : Text}
    (hv : tok.kind = .number → ∀ c ∈ v.head?, isNumeric c = false) :
    Apart tok.content v := by
  intro a ha b hb hnumeric
  by_cases hkind : tok.kind = .number
  · exact hv hkind b hb
  · rw [h.isNumeric_of_mem hkind (List.mem_of_getLast? ha)] at hnumeric
    cases hnumeric

end IsWord

/-! ## Scanning spaced words -/

/-- Blanks in front of a text change nothing. -/
theorem scan_blanks {u : Text} (h : ∀ c ∈ u, Text.isBlank c = true)
    (t : Text) : scan (u ++ t) = scan t := by
  induction u with
  | nil => rfl
  | cons c u ih =>
      rw [List.cons_append, scan_blank _ (h c List.mem_cons_self)]
      exact ih fun d hd => h d (List.mem_cons_of_mem c hd)

/-- What follows a number and the blanks behind it does not go on with it. -/
theorem isNumeric_head_text {p : Token × Text} {words : List (Token × Text)}
    (hblank : ∀ c ∈ p.2, Text.isBlank c = true)
    (hword : ∀ q ∈ words, IsWord q.1)
    (hapart : (p :: words).IsChain Separated) (hkind : p.1.kind = .number) :
    ∀ c ∈ (Spaced.text content ⟨p.2, words⟩).head?, isNumeric c = false := by
  obtain ⟨tok, gap⟩ := p
  intro c hc
  cases gap with
  | cons d gap =>
      obtain rfl := Option.some.inj hc
      exact isNumeric_of_isBlank (hblank _ List.mem_cons_self)
  | nil =>
      cases words with
      | nil => cases hc
      | cons q words =>
          have hq : IsWord q.1 := hword q List.mem_cons_self
          have hkind' : q.1.kind ≠ .number := fun hnumber =>
            (List.isChain_cons_cons.mp hapart).1 hkind hnumber rfl
          obtain ⟨d, u, hcontent, -⟩ := hq.content_cons
          rw [Spaced.text_cons, hcontent] at hc
          obtain rfl := Option.some.inj hc
          refine hq.isNumeric_of_mem hkind' ?_
          rw [hcontent]
          exact List.mem_cons_self

/-- **WORD BY WORD**: words with blanks around them, no two numbers touching,
    are scanned as these words. -/
theorem scan_spaced {s : Spaced Token} (hblank : s.Blank)
    (hword : ∀ tok ∈ s.list, IsWord tok)
    (hapart : s.words.IsChain Separated) :
    scan (s.text content) = ⟨s.list, none⟩ := by
  obtain ⟨front, words⟩ := s
  induction words generalizing front with
  | nil =>
      rw [Spaced.text_nil, ← List.append_nil front, scan_blanks hblank.front]
      rfl
  | cons p words ih =>
      have hp : IsWord p.1 := hword p.1 List.mem_cons_self
      have hwords : ∀ q ∈ words, IsWord q.1 := fun q hq =>
        hword q.1 (List.mem_cons_of_mem _ (List.mem_map_of_mem hq))
      have hgap : ∀ c ∈ p.2, Text.isBlank c = true :=
        hblank.behind p List.mem_cons_self
      have hp' : Apart p.1.content (Spaced.text content ⟨p.2, words⟩) :=
        hp.apart (isNumeric_head_text hgap hwords hapart)
      have hrest : scan (Spaced.text content ⟨p.2, words⟩)
          = ⟨words.map Prod.fst, none⟩ :=
        ih p.2 hblank.of_cons
          (fun tok htok => hword tok (List.mem_cons_of_mem _ htok))
          hapart.tail
      have hscan := hp.scan_content
      rw [Spaced.text_cons, scan_blanks hblank.front,
        scan_append (by rw [hscan]) hp', hscan, hrest]
      rfl

/-- Words joined by single spaces are scanned as these words. -/
theorem scan_intercalate {words : List Token}
    (hword : ∀ tok ∈ words, IsWord tok) :
    scan ([' '].intercalate (words.map content)) = ⟨words, none⟩ := by
  induction words with
  | nil => rfl
  | cons tok words ih =>
      have hscan := (hword tok List.mem_cons_self).scan_content
      have hrest := ih fun tok htok => hword tok (List.mem_cons_of_mem _ htok)
      cases words with
      | nil =>
          rw [List.map_singleton, List.intercalate_singleton]
          exact hscan
      | cons tok' words =>
          rw [List.map_cons] at hrest ⊢
          rw [List.map_cons, List.intercalate_cons_cons, List.append_assoc,
            List.singleton_append, scan_append (by rw [hscan])
              (apart_cons _ _ rfl), hscan, scan_blank _ rfl, hrest]
          rfl

end Token

/-! ## Factorizations -/

/-- A text taken apart: words with what stands around them, and a rest. -/
structure Factorization where
  body : Spaced Token
  rest : Text

namespace Factorization

/-- The factorization is one of the text: the parts make up the text, blanks
    alone stand around the words, two numbers do not touch, and the rest, if
    there is one, begins with a character that no word has. -/
structure Of (f : Factorization) (t : Text) : Prop where
  text_eq : f.body.text Token.content ++ f.rest = t
  blank : f.body.Blank
  word : ∀ tok ∈ f.body.list, tok.IsWord
  separated : f.body.words.IsChain Token.Separated
  foreign : ∀ c ∈ f.rest.head?, Token.isForeign c = true

variable {f : Factorization} {t : Text} {c : Char}

/-! ## One more character -/

/-- A blank goes in front of what stands there. -/
theorem Of.blank_cons (h : f.Of t) (hc : Text.isBlank c = true) :
    Of ⟨⟨c :: f.body.front, f.body.words⟩, f.rest⟩ (c :: t) where
  text_eq := congrArg (c :: ·) h.text_eq
  blank := by
    refine ⟨?_, h.blank.behind⟩
    intro d hd
    rcases List.mem_cons.mp hd with rfl | hd
    · exact hc
    · exact h.blank.front d hd
  word := h.word
  separated := h.separated
  foreign := h.foreign

/-- A word goes in front, and what stood there stands behind it. -/
theorem Of.word_append {tok : Token} (h : f.Of t) (htok : tok.IsWord)
    (hseparated : ∀ q ∈ f.body.words.head?,
      Token.Separated (tok, f.body.front) q) :
    Of ⟨⟨[], (tok, f.body.front) :: f.body.words⟩, f.rest⟩
      (tok.content ++ t) where
  text_eq := by
    rw [Spaced.text_cons, List.nil_append, List.append_assoc]
    exact congrArg (tok.content ++ ·) h.text_eq
  blank := by
    refine ⟨nofun, ?_⟩
    intro p hp
    rcases List.mem_cons.mp hp with rfl | hp
    · exact h.blank.front
    · exact h.blank.behind p hp
  word := by
    intro tok' htok'
    rcases List.mem_cons.mp htok' with rfl | htok'
    · exact htok
    · exact h.word tok' htok'
  separated := List.isChain_cons.mpr ⟨hseparated, h.separated⟩
  foreign := h.foreign

/-- A digit or point in front of a number makes that number longer. -/
theorem Of.number_cons {u gap rest : Text} {words : List (Token × Text)}
    (h : Of ⟨⟨[], (⟨.number, u⟩, gap) :: words⟩, rest⟩ t)
    (hc : Token.isNumeric c = true) :
    Of ⟨⟨[], (⟨.number, c :: u⟩, gap) :: words⟩, rest⟩ (c :: t) where
  text_eq := congrArg (c :: ·) h.text_eq
  blank := by
    refine ⟨nofun, ?_⟩
    intro p hp
    rcases List.mem_cons.mp hp with rfl | hp
    · exact h.blank.behind (⟨.number, u⟩, gap) List.mem_cons_self
    · exact h.blank.behind p (List.mem_cons_of_mem _ hp)
  word := by
    intro tok htok
    rcases List.mem_cons.mp htok with rfl | htok
    · refine .number (List.cons_ne_nil c u) ?_
      intro d hd
      rcases List.mem_cons.mp hd with rfl | hd
      · exact hc
      · cases h.word _ List.mem_cons_self with
        | number _ hall => exact hall d hd
    · exact h.word tok (List.mem_cons_of_mem _ htok)
  separated := by
    obtain ⟨hfirst, hothers⟩ := List.isChain_cons.mp h.separated
    exact List.isChain_cons.mpr ⟨hfirst, hothers⟩
  foreign := h.foreign

/-- A digit or point goes into the number that it touches, or is a number of
    its own. -/
theorem exists_of_numeric (h : f.Of t) (hc : Token.isNumeric c = true) :
    ∃ g : Factorization, g.Of (c :: t) := by
  have hword : Token.IsWord ⟨.number, [c]⟩ := by
    refine .number (List.cons_ne_nil c []) ?_
    intro d hd
    rw [List.mem_singleton.mp hd]
    exact hc
  obtain ⟨⟨front, words⟩, rest⟩ := f
  by_cases hseparated : ∀ q ∈ words.head?,
      Token.Separated (⟨.number, [c]⟩, front) q
  · exact ⟨_, h.word_append hword hseparated⟩
  · -- what it touches is a number, with nothing between them
    push Not at hseparated
    obtain ⟨⟨⟨kind, u⟩, gap⟩, hq, htouches⟩ := hseparated
    obtain ⟨words, rfl⟩ := List.head?_eq_some_iff.mp hq
    rw [Token.Separated] at htouches
    push Not at htouches
    obtain ⟨-, rfl, rfl⟩ := htouches
    exact ⟨_, h.number_cons hc⟩

/-- **EXISTENCE**: every text has a factorization. -/
theorem exists_of (t : Text) : ∃ f : Factorization, f.Of t := by
  induction t with
  | nil =>
      exact ⟨⟨⟨[], []⟩, []⟩,
        ⟨rfl, ⟨nofun, nofun⟩, nofun, .nil, nofun⟩⟩
  | cons c t ih =>
      obtain ⟨f, h⟩ := ih
      cases hblank : Text.isBlank c with
      | true => exact ⟨_, h.blank_cons hblank⟩
      | false =>
        cases hnumeric : Token.isNumeric c with
        | true => exact exists_of_numeric h hnumeric
        | false =>
          cases hsingle : Token.single? c with
          | some tok =>
              obtain ⟨hword, hcontent, hkind⟩ :=
                Token.isWord_of_single? hsingle
              have hseparated : ∀ q ∈ f.body.words.head?,
                  Token.Separated (tok, f.body.front) q :=
                fun _ _ hnumber => absurd hnumber hkind
              have hof := h.word_append hword hseparated
              rw [hcontent] at hof
              exact ⟨_, hof⟩
          | none =>
              -- everything from here on is rest
              have hforeign : Token.isForeign c = true :=
                Token.isForeign_iff.mpr ⟨hblank, hnumeric, hsingle⟩
              refine ⟨⟨⟨[], []⟩, c :: t⟩,
                ⟨rfl, ⟨nofun, nofun⟩, nofun, .nil, ?_⟩⟩
              intro d hd
              obtain rfl := Option.some.inj hd
              exact hforeign

/-! ## What the text says -/

/-- In front of the rest nothing is foreign. -/
theorem Of.isForeign_of_mem (h : f.Of t)
    (hc : c ∈ f.body.text Token.content) : Token.isForeign c = false := by
  rcases List.mem_append.mp hc with hfront | hwords
  · exact Token.isForeign_of_isBlank (h.blank.front c hfront)
  · obtain ⟨p, hp, hc⟩ := List.mem_flatMap.mp hwords
    rcases List.mem_append.mp hc with hword | hgap
    · exact (h.word p.1 (List.mem_map_of_mem hp)).isForeign_of_mem hword
    · exact Token.isForeign_of_isBlank (h.blank.behind p hp c hgap)

/-- The rest is what comes from the first foreign character on. -/
theorem Of.rest_eq (h : f.Of t) :
    f.rest = t.dropWhile fun c => !Token.isForeign c := by
  have hbody : ∀ c ∈ f.body.text Token.content,
      (!Token.isForeign c) = true := by
    intro c hc
    rw [h.isForeign_of_mem hc]
    rfl
  rw [← h.text_eq, List.dropWhile_append_of_pos hbody]
  cases hrest : f.rest with
  | nil => rfl
  | cons c u =>
      have hc : Token.isForeign c = true := h.foreign c (by rw [hrest]; rfl)
      rw [List.dropWhile_cons_of_neg (by rw [hc]; decide)]

/-- The rest begins with the first foreign character of the text. -/
theorem Of.head?_rest (h : f.Of t) :
    f.rest.head? = t.find? Token.isForeign := by
  rw [h.rest_eq, List.find?_eq_head?_dropWhile_not]

/-- **SCANNING FINDS THE FACTORIZATION**: its words, and a fault where there is
    a rest. -/
theorem Of.scan_eq (h : f.Of t) :
    Token.scan t
      = ⟨f.body.list, f.rest.head?.map fun c => .unknown [c]⟩ := by
  have hbody := Token.scan_spaced h.blank h.word h.separated
  have hapart : Token.Apart (f.body.text Token.content) f.rest :=
    fun _ _ c hc _ => (Token.isForeign_iff.mp (h.foreign c hc)).2.1
  have hrest : Token.scan f.rest
      = ⟨[], f.rest.head?.map fun c => .unknown [c]⟩ := by
    cases hrest : f.rest with
    | nil => rfl
    | cons c u =>
        obtain ⟨hblank, hnumeric, hsingle⟩ :=
          Token.isForeign_iff.mp (h.foreign c (by rw [hrest]; rfl))
        exact Token.scan_unknown u hblank hnumeric hsingle
  rw [← h.text_eq, Token.scan_append (by rw [hbody]) hapart, hbody, hrest,
    List.append_nil]

/-- **UNIQUENESS**: a text has one factorization. -/
theorem Of.unique {g : Factorization} (hf : f.Of t) (hg : g.Of t) : g = f := by
  have hrest : g.rest = f.rest := hg.rest_eq.trans hf.rest_eq.symm
  have hlist : g.body.list = f.body.list :=
    congrArg Scan.tokens (hg.scan_eq.symm.trans hf.scan_eq)
  have htext : g.body.text Token.content = f.body.text Token.content := by
    have hwhole := hg.text_eq.trans hf.text_eq.symm
    rw [hrest] at hwhole
    exact List.append_cancel_right hwhole
  obtain ⟨body, rest⟩ := f
  obtain ⟨body', rest'⟩ := g
  obtain rfl : rest' = rest := hrest
  obtain rfl : body' = body :=
    Spaced.eq_of_text_eq hg.blank hf.blank hlist
      (fun tok htok => (hg.word tok htok).content_cons) htext
  rfl

end Factorization

namespace Token

/-- **LOSSLESS, BY LONGEST WORDS.**  Every text has one factorization.  Its
    words are the tokens of the text; there is a fault just where there is a
    rest, and the fault names the first foreign character, with which the rest
    begins; and the tokens, joined by single spaces, are scanned again as they
    are. -/
theorem scan_factorization (t : Text) :
    ∃ f : Factorization, (∀ g : Factorization, g.Of t ↔ g = f)
      ∧ (scan t).tokens = f.body.list
      ∧ ((scan t).fault = none ↔ f.rest = [])
      ∧ f.rest.head? = t.find? isForeign
      ∧ (scan t).fault = (t.find? isForeign).map (fun c => .unknown [c])
      ∧ scan ([' '].intercalate ((scan t).tokens.map content))
          = ⟨(scan t).tokens, none⟩ := by
  obtain ⟨f, hf⟩ := Factorization.exists_of t
  have hscan := hf.scan_eq
  have hfault : (scan t).fault = f.rest.head?.map fun c => .unknown [c] :=
    congrArg Scan.fault hscan
  have htokens : (scan t).tokens = f.body.list := congrArg Scan.tokens hscan
  refine ⟨f, ?_, htokens, ?_, hf.head?_rest, ?_, ?_⟩
  · intro g
    constructor
    · exact hf.unique
    · rintro rfl
      exact hf
  · rw [hfault, Option.map_eq_none_iff, List.head?_eq_none_iff]
  · rw [hfault, hf.head?_rest]
  · rw [htokens]
    exact scan_intercalate hf.word

end Token

end Keypad
