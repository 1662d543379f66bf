import Keypad.Proofs.Numerals
import Keypad.Proofs.Precedence

/-! # Scanning — texts in a row

    A text is scanned from its end, so nothing that stands in front of a
    text changes its tokens, and two texts in a row have the tokens of the
    one and then those of the other.  There is one exception: digits and
    points grow together across the seam.  `scan_append` is that law, and
    `Text.Reads` says with its help which lexemes a text stands for, so that
    a phrase can be read part by part. -/

namespace Keypad

namespace Scan

/-- A digit or point in front changes no fault. -/
@[simp] theorem fault_pushNumeric (c : Char) (touches : Bool) (s : Scan) :
    (s.pushNumeric c touches).fault = s.fault := by
  unfold pushNumeric
  split <;> rfl

/-- A digit or point in front changes the first token alone, so more tokens
    may follow, unless it is to touch a token that is not there. -/
theorem pushNumeric_append {c : Char} {touches : Bool} {s s' : Scan}
    (h : touches = true → s.tokens ≠ []) :
    pushNumeric c touches ⟨s.tokens ++ s'.tokens, s'.fault⟩
      = ⟨(s.pushNumeric c touches).tokens ++ s'.tokens, s'.fault⟩ := by
  cases touches with
  | false => rfl
  | true =>
      obtain ⟨first, rest, hfirst⟩ := List.exists_cons_of_ne_nil (h rfl)
      simp only [pushNumeric, hfirst]
      rfl

end Scan

namespace Token

theorem scan_blank {c : Char} (t : Text) (h : Text.isBlank c = true) :
    scan (c :: t) = scan t := by
  rw [scan, if_pos h]

theorem scan_numeric_cons {c : Char} (t : Text) (h : isNumeric c = true) :
    scan (c :: t) = (scan t).pushNumeric c (t.head?.any isNumeric) := by
  rw [scan, if_neg (Bool.eq_false_iff.mp (isBlank_of_isNumeric h)),
    if_pos h]

/-- The token of a character that stands for itself. -/
def single? (c : Char) : Option Token :=
  if (Operator.ofSymbol? c).isSome then some ⟨.operator, [c]⟩
  else if c = '(' ∨ c = ')' then some ⟨.parenthesis, [c]⟩
  else none

/-- The characters that are tokens by themselves. -/
theorem single?_cases {c : Char} {tok : Token}
    (h : single? c = some tok) :
    (∃ o : Operator, c = o.symbol ∧ tok = ⟨.operator, [o.symbol]⟩)
      ∨ c = '(' ∧ tok = ⟨.parenthesis, ['(']⟩
      ∨ c = ')' ∧ tok = ⟨.parenthesis, [')']⟩ := by
  rw [single?] at h
  split at h
  · rename_i hsymbol
    obtain ⟨o, ho⟩ := Option.isSome_iff_exists.mp hsymbol
    obtain rfl := Operator.ofSymbol?_eq_some.mp ho
    exact Or.inl ⟨o, rfl, (Option.some.inj h).symm⟩
  · split at h
    · rename_i hparenthesis
      right
      rcases hparenthesis with rfl | rfl
      · exact Or.inl ⟨rfl, (Option.some.inj h).symm⟩
      · exact Or.inr ⟨rfl, (Option.some.inj h).symm⟩
    · cases h

theorem scan_single {c : Char} {tok : Token} (t : Text)
    (hblank : Text.isBlank c = false) (hnumeric : isNumeric c = false)
    (h : single? c = some tok) : scan (c :: t) = (scan t).push tok := by
  rw [scan, if_neg (Bool.eq_false_iff.mp hblank),
    if_neg (Bool.eq_false_iff.mp hnumeric)]
  simp only [single?] at h
  split at h
  · rename_i ho
    rw [if_pos ho, Option.some.inj h]
  · rename_i ho
    rw [if_neg ho]
    split at h
    · rename_i hp
      rw [if_pos hp, Option.some.inj h]
    · cases h

theorem scan_unknown {c : Char} (t : Text) (hblank : Text.isBlank c = false)
    (hnumeric : isNumeric c = false) (h : single? c = none) :
    scan (c :: t) = ⟨[], some (.unknown [c])⟩ := by
  rw [scan, if_neg (Bool.eq_false_iff.mp hblank),
    if_neg (Bool.eq_false_iff.mp hnumeric)]
  simp only [single?] at h
  split at h
  · cases h
  · rename_i ho
    rw [if_neg ho]
    split at h
    · cases h
    · rename_i hp
      rw [if_neg hp]

/-- Reading digits and points: they are the first token, as far as they
    go. -/
theorem tokens_ne_nil_of_numeric {c : Char} (t : Text)
    (h : isNumeric c = true) : (scan (c :: t)).tokens ≠ [] := by
  rw [scan_numeric_cons t h]
  cases ht : (t.head?.any isNumeric) with
  | false => exact List.cons_ne_nil _ _
  | true =>
      simp only [Scan.pushNumeric]
      split <;> exact List.cons_ne_nil _ _

/-- No number crosses the seam between two texts. -/
def Apart (u v : Text) : Prop :=
  ∀ a ∈ u.getLast?, ∀ b ∈ v.head?, isNumeric a = true → isNumeric b = false

theorem apart_cons {c : Char} (u t : Text) (h : isNumeric c = false) :
    Apart u (c :: t) := by
  intro a _ b hb _
  obtain rfl := Option.some.inj hb
  exact h

theorem apart_singleton {c : Char} (v : Text) (h : isNumeric c = false) :
    Apart [c] v := by
  intro a ha b _ hnumeric
  have hac : c = a := Option.some.inj ha
  rw [← hac, h] at hnumeric
  cases hnumeric

/-- **TEXTS IN A ROW**: where no number crosses the seam, the tokens of two
    texts follow each other. -/
theorem scan_append {u v : Text} (hfault : (scan u).fault = none)
    (hapart : Apart u v) :
    scan (u ++ v) = ⟨(scan u).tokens ++ (scan v).tokens, (scan v).fault⟩ := by
  induction u with
  | nil => rfl
  | cons c t ih =>
      have hapart' : Apart t v := by
        intro a ha b hb
        cases t with
        | nil => cases ha
        | cons d t => exact hapart a (by rwa [List.getLast?_cons_cons]) b hb
      cases hblank : Text.isBlank c with
      | true =>
          rw [scan_blank t hblank] at hfault ⊢
          rw [List.cons_append, scan_blank _ hblank]
          exact ih hfault hapart'
      | false =>
        cases hnumeric : isNumeric c with
        | true =>
            rw [scan_numeric_cons t hnumeric] at hfault ⊢
            rw [List.cons_append, scan_numeric_cons _ hnumeric]
            cases t with
            | nil =>
                -- the number ends at the seam
                have hhead : v.head?.any isNumeric = false := by
                  cases hv : v.head? with
                  | none => rfl
                  | some b => exact hapart c rfl b hv hnumeric
                rw [List.nil_append, hhead]
                rfl
            | cons d t =>
                -- the number may go on, into a token in front of the seam
                rw [Scan.fault_pushNumeric] at hfault
                rw [ih hfault hapart', List.cons_append]
                exact Scan.pushNumeric_append (tokens_ne_nil_of_numeric t)
        | false =>
            cases hsingle : single? c with
            | some tok =>
                rw [scan_single t hblank hnumeric hsingle] at hfault ⊢
                rw [List.cons_append, scan_single _ hblank hnumeric hsingle,
                  ih hfault hapart']
                rfl
            | none =>
                rw [scan_unknown t hblank hnumeric hsingle] at hfault
                cases hfault

/-- A run of digits and points is one number. -/
theorem scan_of_numeric {u : Text} (hne : u ≠ [])
    (hall : ∀ c ∈ u, isNumeric c = true) :
    scan u = ⟨[⟨.number, u⟩], none⟩ := by
  induction u with
  | nil => exact absurd rfl hne
  | cons c t ih =>
      rw [scan_numeric_cons t (hall c (List.mem_cons_self ..))]
      cases t with
      | nil => rfl
      | cons d t =>
          rw [ih (List.cons_ne_nil d t)
            (fun a ha => hall a (List.mem_cons_of_mem c ha))]
          show Scan.pushNumeric c (isNumeric d) _ = _
          rw [hall d (List.mem_cons_of_mem c (List.mem_cons_self ..))]
          rfl

end Token

/-! ## The lexemes of a text -/

/-- The text scans without a fault into tokens that spell the lexemes. -/
def Text.Reads (u : Text) (w : List Lexeme) : Prop :=
  (Token.scan u).fault = none ∧ Spelling (Token.scan u).tokens w

namespace Text.Reads

theorem append {u u' : Text} {w w' : List Lexeme} (h : u.Reads w)
    (h' : u'.Reads w') (hapart : Token.Apart u u') :
    Text.Reads (u ++ u') (w ++ w') := by
  rw [Text.Reads, Token.scan_append h.1 hapart]
  exact ⟨h'.1, h.2.append h'.2⟩

theorem number {u : Text} {n : Numeral} (hne : u ≠ [])
    (hall : ∀ c ∈ u, Token.isNumeric c = true)
    (hn : Numeral.ofText? u = some n) : Text.Reads u [.number n.toFloat] := by
  rw [Text.Reads, Token.scan_of_numeric hne hall]
  exact ⟨rfl, .cons (.number hn) .nil⟩

theorem operator (o : Operator) : Text.Reads [o.symbol] [.operator o] := by
  have hscan : Token.scan [o.symbol] = ⟨[⟨.operator, [o.symbol]⟩], none⟩ := by
    cases o <;> rfl
  rw [Text.Reads, hscan]
  exact ⟨rfl, .cons (.operator o) .nil⟩

theorem opening : Text.Reads ['('] [.opening] := by
  have hscan : Token.scan ['('] = ⟨[⟨.parenthesis, ['(']⟩], none⟩ := rfl
  rw [Text.Reads, hscan]
  exact ⟨rfl, .cons .opening .nil⟩

theorem closing : Text.Reads [')'] [.closing] := by
  have hscan : Token.scan [')'] = ⟨[⟨.parenthesis, [')']⟩], none⟩ := rfl
  rw [Text.Reads, hscan]
  exact ⟨rfl, .cons .closing .nil⟩

theorem nil : Text.Reads [] [] := ⟨rfl, .nil⟩

/-- Two texts with an operator between them. -/
theorem between {u u' : Text} {w w' : List Lexeme} (o : Operator)
    (h : u.Reads w) (h' : u'.Reads w') :
    Text.Reads (u ++ ([o.symbol] ++ u')) (w ++ Lexeme.operator o :: w') := by
  have hnumeric : Token.isNumeric o.symbol = false := by cases o <;> rfl
  exact h.append ((operator o).append h' (Token.apart_singleton u' hnumeric))
    (Token.apart_cons u u' hnumeric)

/-- A text in parentheses. -/
theorem group {u : Text} {w : List Lexeme} (h : u.Reads w) :
    Text.Reads (['('] ++ (u ++ [')']))
      (Lexeme.opening :: w ++ [Lexeme.closing]) :=
  opening.append (h.append closing (Token.apart_cons u [] rfl))
    (Token.apart_singleton _ rfl)

/-- **A SENTENCE HAS THE VALUE OF ITS TREE**, unless that is not finite. -/
theorem evaluatePlain {u : Text} {w : List Lexeme} {t : Tree}
    (h : u.Reads w) (hs : Sentence .sum w t) :
    Keypad.evaluatePlain u
      = if t.value.isFinite then .ok t.value else .error .notFinite :=
  evaluatePlain_of_sentence h.1 h.2 hs

end Text.Reads

end Keypad
