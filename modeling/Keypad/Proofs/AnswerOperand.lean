import Keypad.Proofs.Acceptance
import Keypad.Proofs.PhraseValue
import Keypad.Proofs.ReadBack
import Keypad.Proofs.SessionInvariant
import Keypad.Reading
import Mathlib.Data.List.SplitBy

/-! # The answer as an operand — whole, as long as it stands apart

    Toward: the value of a commit is that of the keys read word by word, with
    the answer as one operand, exactly if no digit, no point and no other
    answer stands next to an answer key.

    The answer goes into the plain text by its digits.  Where it stands apart,
    the tokens of that text are those of the words, one word after the other
    (`exists_lexemes`); a negative answer is four tokens instead of one, which
    moves neither the walk of a sentence nor its value
    (`Lexeme.WrittenOut`).  Where it does not stand apart, two words in a row
    are operands, and nobody implies a product there. -/

namespace Keypad

open Plain (ofKeys)
open Phrase (answerFloat)

/-! ## Words -/

namespace Reading

/-- A run of digits and points, or another key alone. -/
def IsWord (w : List Key) : Prop :=
  (w ≠ [] ∧ ∀ k ∈ w, k.isNumeric = true)
    ∨ ∃ k : Key, w = [k] ∧ k.isNumeric = false

theorem IsWord.ne_nil {w : List Key} (h : IsWord w) : w ≠ [] := by
  rcases h with ⟨hne, -⟩ | ⟨k, rfl, -⟩
  · exact hne
  · exact List.cons_ne_nil k []

/-- Neighbours in a run are digits and points. -/
theorem isNumeric_of_isChain {a b : Key} {w : List Key}
    (h : (a :: b :: w).IsChain fun a b => (a.isNumeric && b.isNumeric) = true) :
    ∀ k ∈ a :: b :: w, k.isNumeric = true := by
  induction w generalizing a b with
  | nil =>
      intro k hk
      have hboth := (List.isChain_cons_cons.mp h).1
      rw [Bool.and_eq_true] at hboth
      rcases List.mem_cons.mp hk with rfl | hk
      · exact hboth.1
      · rw [List.mem_singleton.mp hk]
        exact hboth.2
  | cons c w ih =>
      intro k hk
      obtain ⟨hboth, hrest⟩ := List.isChain_cons_cons.mp h
      rw [Bool.and_eq_true] at hboth
      rcases List.mem_cons.mp hk with rfl | hk
      · exact hboth.1
      · exact ih hrest k hk

@[simp] theorem flatten_words (keys : List Key) : (words keys).flatten = keys :=
  List.flatten_splitBy _ keys

theorem nil_notMem_words (keys : List Key) : [] ∉ words keys :=
  List.nil_notMem_splitBy _ keys

/-- No run of digits and points goes on in the next word. -/
theorem isChain_words (keys : List Key) :
    (words keys).IsChain fun v w => ∀ a ∈ v.getLast?, ∀ b ∈ w.head?,
      (a.isNumeric && b.isNumeric) = false := by
  refine (List.isChain_getLast_head_splitBy _ keys).imp ?_
  rintro v w ⟨hv, hw, hnumeric⟩ a ha b hb
  rw [List.getLast_of_mem_getLast? ha, List.head_of_mem_head? hb] at hnumeric
  exact hnumeric

theorem isWord_of_mem_words {keys w : List Key} (h : w ∈ words keys) :
    IsWord w := by
  have hchain := List.isChain_of_mem_splitBy h
  obtain ⟨a, rest, rfl⟩ :=
    List.exists_cons_of_ne_nil (List.ne_nil_of_mem_splitBy h)
  cases rest with
  | cons b rest =>
      exact Or.inl ⟨List.cons_ne_nil _ _, isNumeric_of_isChain hchain⟩
  | nil =>
      cases ha : a.isNumeric with
      | true =>
          refine Or.inl ⟨List.cons_ne_nil _ _, ?_⟩
          intro k hk
          rw [List.mem_singleton.mp hk]
          exact ha
      | false => exact Or.inr ⟨a, rfl, ha⟩

/-- Of the two keys at the seam of two words one is no operand. -/
def Seamed (v w : List Key) : Prop :=
  ∀ a ∈ v.getLast?, ∀ b ∈ w.head?,
    a.isOperand = false ∨ b.isOperand = false

/-- Where one of two keys is no operand the answer stands apart. -/
theorem apart_of_isOperand {a b : Key}
    (h : a.isOperand = false ∨ b.isOperand = false) : a.Apart b := by
  rcases h with ha | hb
  · exact Key.apart_of_left b ha
  · exact Key.apart_of_right a hb

/-- Two operands that are apart are digits and points. -/
theorem isOperand_of_apart {a b : Key} (h : a.Apart b)
    (hnumeric : (a.isNumeric && b.isNumeric) = false) :
    a.isOperand = false ∨ b.isOperand = false := by
  cases a with
  | operator _ | opening | closing => exact Or.inl rfl
  | answer => exact Or.inr (h.1 rfl)
  | digit _ | point =>
      cases b with
      | operator _ | opening | closing => exact Or.inr rfl
      | answer => exact Or.inl (h.2 rfl)
      | digit _ | point => cases hnumeric

/-- Inside a word every key stands apart from the next. -/
theorem IsWord.isChain_apart {w : List Key} (h : IsWord w) :
    w.IsChain Key.Apart := by
  rcases h with ⟨-, hnumeric⟩ | ⟨k, rfl, -⟩
  · refine (List.pairwise_of_forall_mem_list ?_).isChain
    intro a ha b hb
    constructor
    · rintro rfl
      cases hnumeric _ ha
    · rintro rfl
      cases hnumeric _ hb
  · exact List.isChain_singleton k

/-- The answer stands apart exactly if at every seam one key is no operand. -/
theorem isChain_apart_iff {keys : List Key} :
    keys.IsChain Key.Apart ↔ (words keys).IsChain Seamed := by
  have hflatten := List.isChain_flatten (R := Key.Apart) (nil_notMem_words keys)
  rw [flatten_words] at hflatten
  rw [hflatten]
  constructor
  · rintro ⟨-, hapart⟩
    have hmaximal := isChain_words keys
    rw [List.isChain_iff_getElem] at hapart hmaximal ⊢
    intro i hi a ha b hb
    exact isOperand_of_apart (hapart i hi a ha b hb) (hmaximal i hi a ha b hb)
  · intro hseams
    constructor
    · intro w hw
      exact (isWord_of_mem_words hw).isChain_apart
    · refine hseams.imp ?_
      intro v w hseam a ha b hb
      exact apart_of_isOperand (hseam a ha b hb)

end Reading

/-! ## The lexeme of a word -/

namespace Reading

/-- An operand is part of a word that stands for a number. -/
theorem Denotes.number_of_mem {x : Float} {w : List Key} {l : Lexeme} {k : Key}
    (h : Denotes x w l) (hk : k ∈ w) (hoperand : k.isOperand = true) :
    ∃ y, l = .number y := by
  cases h with
  | number | answer => exact ⟨_, rfl⟩
  | operator o | opening | closing =>
      rw [List.mem_singleton.mp hk] at hoperand
      cases hoperand

/-- Keys that imply a product are parts of words that imply it. -/
theorem Denotes.implies {x : Float} {v w : List Key} {l l' : Lexeme} {a b : Key}
    (h : Denotes x v l) (h' : Denotes x w l') (ha : a ∈ v) (hb : b ∈ w)
    (himplies : a.implies b = true) : implies l l' = true := by
  have hopening : ∀ {w : List Key} {l : Lexeme}, Denotes x w l →
      Key.opening ∈ w → l = .opening := by
    intro w l h hmem
    cases h with
    | number hnumeric => cases hnumeric _ hmem
    | opening => rfl
    | answer | operator o | closing => cases List.mem_singleton.mp hmem
  have hclosing : ∀ {w : List Key} {l : Lexeme}, Denotes x w l →
      Key.closing ∈ w → l = .closing := by
    intro w l h hmem
    cases h with
    | number hnumeric => cases hnumeric _ hmem
    | closing => rfl
    | answer | operator o | opening => cases List.mem_singleton.mp hmem
  cases a with
  | digit _ | answer =>
      obtain ⟨y, rfl⟩ := h.number_of_mem ha rfl
      cases b with
      | opening =>
          rw [hopening h' hb]
          rfl
      | _ => cases himplies
  | closing =>
      rw [hclosing h ha]
      cases b with
      | opening =>
          rw [hopening h' hb]
          rfl
      | digit _ | answer =>
          obtain ⟨y, rfl⟩ := h'.number_of_mem hb rfl
          rfl
      | _ => cases himplies
  | point | operator _ | opening => cases himplies

/-- The text of digits and points. -/
theorem ofKeys_of_isNumeric (answer : Float) {w : List Key}
    (h : ∀ k ∈ w, k.isNumeric = true) :
    ofKeys answer w = keysText w
      ∧ ∀ c ∈ keysText w, Token.isNumeric c = true := by
  have hnumeric : ∀ c ∈ keysText w, Token.isNumeric c = true := by
    intro c hc
    obtain ⟨k, hk, hck⟩ := List.mem_flatMap.mp hc
    have hkey := h k hk
    cases k with
    | digit d =>
        rw [List.mem_singleton.mp hck]
        exact Token.isNumeric_of_isDigit (Key.isDigit_digitChar d)
    | point =>
        rw [List.mem_singleton.mp hck]
        rfl
    | operator _ | opening | closing | answer => cases hkey
  have hplain : w.flatMap (Key.plain answer) = keysText w := by
    refine List.flatMap_congr ?_
    intro k hk
    have hkey := h k hk
    cases k with
    | digit _ | point => rfl
    | operator _ | opening | closing | answer => cases hkey
  refine ⟨?_, hnumeric⟩
  rw [ofKeys, hplain, Plain.insertTimes_of_isNumeric hnumeric]

/-- A key that is no digit and no point is written out as its lexeme. -/
theorem reads_key {answer : Float} (hfinite : answer.isFinite = true) {k : Key}
    (hk : k.isNumeric = false) :
    ∃ l w, Denotes (answerFloat answer) [k] l ∧ l.WrittenOut w
      ∧ (ofKeys answer [k]).Reads w := by
  cases k with
  | answer =>
      obtain ⟨w, hreads, hwritten⟩ := Phrase.reads_writtenOut_answer hfinite
      exact ⟨_, w, .answer, hwritten, hreads⟩
  | operator o => exact ⟨_, _, .operator o, .self _, Text.Reads.operator o⟩
  | opening => exact ⟨_, _, .opening, .self _, Text.Reads.opening⟩
  | closing => exact ⟨_, _, .closing, .self _, Text.Reads.closing⟩
  | digit _ | point => cases hk

/-- **ONE WORD**: the text of a word scans, and what its tokens spell is a
    lexeme of the word written out. -/
theorem IsWord.exists_lexeme {answer : Float} (hfinite : answer.isFinite = true)
    {w : List Key} (h : IsWord w) :
    (Token.scan (ofKeys answer w)).fault = none
      ∧ ∀ ls, Spelling (Token.scan (ofKeys answer w)).tokens ls →
        ∃ l, Denotes (answerFloat answer) w l ∧ l.WrittenOut ls := by
  rcases h with ⟨hne, hkeys⟩ | ⟨k, rfl, hk⟩
  · obtain ⟨htext, hnumeric⟩ := ofKeys_of_isNumeric answer hkeys
    rw [htext, Token.scan_of_numeric (mt keysText_eq_nil.mp hne) hnumeric]
    refine ⟨rfl, ?_⟩
    intro ls hspell
    obtain ⟨l, rest, hl, hrest, rfl⟩ := List.forall₂_cons_left_iff.mp hspell
    obtain rfl := List.forall₂_nil_left_iff.mp hrest
    refine ⟨l, ?_, .self l⟩
    cases hl with
    | number hn =>
        exact .number hkeys
          ((Numeral.written_iff hnumeric).mpr ⟨_, hn, rfl⟩)
  · obtain ⟨l, w, hdenotes, hwritten, hreads⟩ := reads_key hfinite hk
    refine ⟨hreads.1, ?_⟩
    intro ls hspell
    rw [hspell.unique hreads.2]
    exact ⟨l, hdenotes, hwritten⟩

/-! ## The lexemes of words in a row -/

/-- No number goes across a seam. -/
theorem Seamed.apart {answer : Float} (hfinite : answer.isFinite = true)
    {v w : List Key} (h : Seamed v w) :
    Token.Apart (ofKeys answer v) (ofKeys answer w) := by
  intro c hc d hd hnumeric
  rcases List.eq_nil_or_concat v with rfl | ⟨front, a, rfl⟩
  · cases hc
  cases w with
  | nil => cases hd
  | cons b rest =>
      rw [List.concat_eq_append, Plain.getLast?_ofKeys hfinite] at hc
      rw [Plain.head?_ofKeys hfinite] at hd
      rcases h a (by rw [List.concat_eq_append]; exact List.getLast?_concat) b
        rfl with ha | hb
      · obtain ⟨c', tok, hplain, -, hc', -⟩ :=
          Key.single?_of_plain answer ha
        rw [hplain] at hc
        obtain rfl : c' = c := Option.some.inj hc
        rw [hnumeric] at hc'
        cases hc'
      · obtain ⟨d', tok, hplain, -, hd', -⟩ :=
          Key.single?_of_plain answer hb
        rw [hplain] at hd
        obtain rfl : d' = d := Option.some.inj hd
        exact hd'

/-- What is spelled across a seam: what is spelled on either side, with a sign
    between them if the keys there imply a product. -/
theorem Seamed.spelling {answer : Float} (hfinite : answer.isFinite = true)
    {v w : List Key} {ls : List Lexeme} (h : Seamed v w)
    (hfault : (Token.scan (ofKeys answer v)).fault = none)
    (hspell : Spelling (Token.scan (ofKeys answer (v ++ w))).tokens ls) :
    ∃ first sign last, ls = first ++ (sign ++ last)
      ∧ Spelling (Token.scan (ofKeys answer v)).tokens first
      ∧ Spelling (Token.scan (ofKeys answer w)).tokens last
      ∧ (sign = [] ∨ sign = [.operator .multiply]
        ∧ ∃ a ∈ v, ∃ b ∈ w.head?, a.implies b = true) := by
  have hkeys : ∀ a ∈ v.getLast?, ∀ b ∈ w.head?, a.Apart b := fun a ha b hb =>
    apart_of_isOperand (h a ha b hb)
  rw [Plain.ofKeys_append hfinite hkeys, List.append_assoc] at hspell
  by_cases himplies : ∃ a ∈ v.getLast?, ∃ b ∈ w.head?, a.implies b = true
  · obtain ⟨a, ha, b, hb, himplies⟩ := himplies
    have hseam : Key.seam v w = [Operator.multiply.symbol] := by
      rw [Key.seam, show v.getLast? = some a from ha,
        show w.head? = some b from hb]
      exact if_pos himplies
    have hsign := Text.Reads.operator .multiply
    have hbefore : Token.Apart (ofKeys answer v)
        ([Operator.multiply.symbol] ++ ofKeys answer w) :=
      Token.apart_cons _ _ rfl
    have hafter : Token.Apart [Operator.multiply.symbol] (ofKeys answer w) :=
      Token.apart_singleton _ rfl
    rw [hseam, Token.scan_append hfault hbefore,
      Token.scan_append hsign.1 hafter] at hspell
    obtain ⟨first, rest, rfl, hfirst, hrest⟩ := forall₂_append hspell
    obtain ⟨sign, last, rfl, hsign', hlast⟩ := forall₂_append hrest
    refine ⟨first, sign, last, rfl, hfirst, hlast,
      Or.inr ⟨Spelling.unique hsign' hsign.2, a, List.mem_of_getLast? ha, b, hb,
        himplies⟩⟩
  · have hseam : Key.seam v w = [] := by
      refine Key.seam_eq_nil ?_
      intro a ha b hb
      rw [Bool.eq_false_iff]
      exact fun himp => himplies ⟨a, ha, b, hb, himp⟩
    rw [hseam, List.nil_append,
      Token.scan_append hfault (h.apart hfinite)] at hspell
    obtain ⟨first, last, rfl, hfirst, hlast⟩ := forall₂_append hspell
    exact ⟨first, [], last, rfl, hfirst, hlast, Or.inl rfl⟩

/-- Where a product is implied the two lexemes cannot stand in a row. -/
theorem walk_of_implies {l l' : Lexeme} (h : implies l l' = true)
    (p : Position) (w : List Lexeme) : p.walk (l :: l' :: w) = none := by
  obtain ⟨slot, n⟩ := p
  cases l with
  | number x =>
      cases l' with
      | opening => cases slot <;> rfl
      | number _ | operator _ | closing => cases h
  | closing =>
      cases l' with
      | opening | number _ =>
          cases slot with
          | operand => rfl
          | operator => cases n <;> rfl
      | operator _ | closing => cases h
  | operator _ | opening => cases h

/-- Two numbers cannot stand in a row. -/
theorem walk_numbers (x y : Float) (p : Position) (w : List Lexeme) :
    p.walk (.number x :: .number y :: w) = none := by
  obtain ⟨slot, n⟩ := p
  cases slot <;> rfl

/-- **ONE MORE WORD** in front: what is written out of its lexeme, with a sign
    only where a product is implied, goes together with what is written out of
    the others, if a sentence can be walked so. -/
theorem writtenOut_cons {l l' : Lexeme} {rest first sign : List Lexeme}
    {parts : List (List Lexeme)} {p : Position} (hfirst : l.WrittenOut first)
    (hparts : List.Forall₂ Lexeme.WrittenOut (withProducts (l' :: rest)) parts)
    (hsign : sign = [] ∨ sign = [.operator .multiply] ∧ implies l l' = true)
    (hwalk : (p.walk (first ++ (sign ++ parts.flatten))).isSome = true) :
    ∃ parts', List.Forall₂ Lexeme.WrittenOut (withProducts (l :: l' :: rest))
        parts'
      ∧ first ++ (sign ++ parts.flatten) = parts'.flatten := by
  rw [withProducts_cons_cons]
  rcases hsign with rfl | ⟨rfl, himplies⟩
  · -- a sign that is implied cannot be missing
    have hnone : implies l l' = false := by
      cases himplies : implies l l' with
      | false => rfl
      | true =>
          obtain ⟨r, hr⟩ := withProducts_cons l' rest
          rw [hr] at hparts
          have hwalk' := walk_writtenOut (.cons hfirst hparts) p
          rw [walk_of_implies himplies] at hwalk'
          rw [show first ++ ([] ++ parts.flatten) = (first :: parts).flatten
            from rfl, hwalk'] at hwalk
          cases hwalk
    rw [hnone]
    exact ⟨first :: parts, .cons hfirst hparts, rfl⟩
  · rw [himplies]
    exact ⟨first :: [.operator .multiply] :: parts,
      .cons hfirst (.cons (.self _) hparts), rfl⟩

/-- **THE LEXEMES OF WORDS**: where the answer stands apart, what the tokens
    of the text spell is what the words stand for, written out. -/
theorem exists_lexemes {answer : Float} (hfinite : answer.isFinite = true)
    {ws : List (List Key)} :
    ∀ {ls : List Lexeme} {p : Position}, (∀ w ∈ ws, IsWord w) →
      ws.IsChain Seamed →
      Spelling (Token.scan (ofKeys answer ws.flatten)).tokens ls →
      (p.walk ls).isSome = true →
      ∃ u parts, List.Forall₂ (Denotes (answerFloat answer)) ws u
        ∧ List.Forall₂ Lexeme.WrittenOut (withProducts u) parts
        ∧ ls = parts.flatten := by
  induction ws with
  | nil =>
      intro ls p _ _ hspell _
      exact ⟨[], [], .nil, .nil, List.forall₂_nil_left_iff.mp hspell⟩
  | cons w ws ih =>
      intro ls p hwords hseams hspell hwalk
      obtain ⟨hfault, hword⟩ :=
        (hwords w (List.mem_cons_self ..)).exists_lexeme hfinite
      cases ws with
      | nil =>
          rw [List.flatten_singleton] at hspell
          obtain ⟨l, hl, hwritten⟩ := hword ls hspell
          exact ⟨[l], [ls], .cons hl .nil, .cons hwritten .nil,
            (List.append_nil ls).symm⟩
      | cons v ws =>
          obtain ⟨hseam, hseams'⟩ := List.isChain_cons_cons.mp hseams
          have hwords' : ∀ w ∈ v :: ws, IsWord w := fun w' hw' =>
            hwords w' (List.mem_cons_of_mem w hw')
          obtain ⟨b, v', rfl⟩ := List.exists_cons_of_ne_nil
            (hwords' v (List.mem_cons_self ..)).ne_nil
          -- the seam shows the first key of the next word
          have hseam' : Seamed w ((b :: v') :: ws).flatten := hseam
          obtain ⟨first, sign, last, rfl, hfirst, hlast, hsign⟩ :=
            hseam'.spelling hfinite hfault hspell
          obtain ⟨l, hl, hwritten⟩ := hword first hfirst
          rw [← List.append_assoc] at hwalk
          obtain ⟨p', hp'⟩ := Position.exists_walk_of_append hwalk
          rw [List.append_assoc] at hwalk
          obtain ⟨u, parts, hu, hparts, rfl⟩ := ih hwords' hseams' hlast hp'
          obtain ⟨l', rest, hl', hrest, rfl⟩ :=
            List.forall₂_cons_left_iff.mp hu
          have hsign' : sign = []
              ∨ sign = [.operator .multiply] ∧ implies l l' = true := by
            refine hsign.imp_right ?_
            rintro ⟨rfl, a, ha, b', hb', himplies⟩
            obtain rfl : b = b' := Option.some.inj hb'
            exact ⟨rfl, hl.implies hl' ha (List.mem_cons_self ..) himplies⟩
          obtain ⟨parts', hparts', hflatten⟩ :=
            writtenOut_cons hwritten hparts hsign' hwalk
          exact ⟨_, parts', .cons hl hu, hparts', hflatten⟩

/-- **WHAT IS A SENTENCE STANDS APART**: of two words in a row that are both
    operands no sentence is made. -/
theorem seamed_of_walk {x : Float} {ws : List (List Key)} {u : List Lexeme}
    (h : List.Forall₂ (Denotes x) ws u) :
    ∀ {p : Position}, (p.walk (withProducts u)).isSome = true →
      ws.IsChain Seamed := by
  induction h with
  | nil =>
      intro p _
      exact List.isChain_nil
  | @cons w l ws u hl hu ih =>
      intro p hwalk
      cases hu with
      | nil => exact List.isChain_singleton w
      | @cons v l' ws u hl' hu =>
          rw [withProducts_cons_cons] at hwalk
          refine List.isChain_cons_cons.mpr ⟨?_, ?_⟩
          · intro a ha b hb
            by_contra hboth
            rw [not_or, Bool.not_eq_false, Bool.not_eq_false] at hboth
            obtain ⟨x, rfl⟩ :=
              hl.number_of_mem (List.mem_of_getLast? ha) hboth.1
            obtain ⟨y, rfl⟩ :=
              hl'.number_of_mem (List.mem_of_head? hb) hboth.2
            obtain ⟨r, hr⟩ := withProducts_cons (.number y) u
            rw [hr] at hwalk
            have hnone := walk_numbers x y p r
            rw [show (if implies (.number x) (.number y) = true then _
              else .number x :: .number y :: r) = .number x :: .number y :: r
              from rfl, hnone] at hwalk
            cases hwalk
          · -- the walk goes on after the word and the sign behind it
            split at hwalk
            · obtain ⟨p', hp'⟩ := Position.exists_walk_of_append
                (v := [l, .operator .multiply]) hwalk
              exact ih hp'
            · obtain ⟨p', hp'⟩ := Position.exists_walk_of_append (v := [l]) hwalk
              exact ih hp'

end Reading

/-! ## The value of a commit -/

/-- Where the answer stands apart a value is that of the keys read word by
    word. -/
theorem exists_reading {answer v : Float} (hfinite : answer.isFinite = true)
    {keys : List Key} (hapart : keys.IsChain Key.Apart)
    (hv : evaluatePlain (ofKeys answer keys) = .ok v) :
    ∃ w t, Reading (answerFloat answer) keys w ∧ Sentence .sum w t
      ∧ t.value = v := by
  obtain ⟨p, hp⟩ : ∃ p, Program.ofText (ofKeys answer keys) = .ok p := by
    rw [evaluatePlain] at hv
    split at hv
    · exact ⟨_, by assumption⟩
    · cases hv
  obtain ⟨hfault, ls, tree, hspell, htree, -⟩ := Program.exists_sentence hp
  -- what the tokens spell is a walk, and so are the lexemes of the words
  have hwalk := grammatical_iff_walk.mp (grammatical_iff.mpr ⟨tree, htree⟩)
  have hspell' : Spelling (Token.scan (ofKeys answer
      (Reading.words keys).flatten)).tokens ls := by
    rw [Reading.flatten_words]
    exact hspell
  obtain ⟨u, parts, hu, hparts, rfl⟩ :=
    Reading.exists_lexemes hfinite (fun w => Reading.isWord_of_mem_words)
      (Reading.isChain_apart_iff.mp hapart) hspell'
      (p := Position.start) (by rw [hwalk]; rfl)
  rw [walk_writtenOut hparts] at hwalk
  obtain ⟨t, ht⟩ := grammatical_iff.mp (grammatical_iff_walk.mpr hwalk)
  obtain ⟨t', ht', hvalue⟩ := ht.writtenOut hparts
  refine ⟨_, t, ⟨u, hu, rfl⟩, ht, ?_⟩
  rw [evaluatePlain_of_sentence hfault hspell ht'] at hv
  split at hv
  · rw [← hvalue]
    exact Except.ok.inj hv
  · cases hv

/-- Keys that are a sentence word by word keep the answer apart. -/
theorem apart_of_reading {x : Float} {keys : List Key} {w : List Lexeme}
    {t : Tree} (h : Reading x keys w) (ht : Sentence .sum w t) :
    keys.IsChain Key.Apart := by
  obtain ⟨u, hu, rfl⟩ := h
  have hwalk := grammatical_iff_walk.mp (grammatical_iff.mpr ⟨t, ht⟩)
  refine Reading.isChain_apart_iff.mpr
    (Reading.seamed_of_walk hu (p := Position.start) ?_)
  rw [hwalk]
  rfl

namespace Session

/-- The value of a commit is that of the plain text. -/
theorem evaluatePlain_of_committed? {s : Session} {v : Float}
    (hfinite : s.answer.isFinite = true) (h : s.committed? = some v) :
    evaluatePlain (ofKeys s.answer s.expression.keys) = .ok v := by
  rcases s.commit_cases with ⟨-, hnone⟩ | ⟨x, hx, hsome, -⟩ | ⟨f, -, hnone, -⟩
  · rw [h] at hnone
    cases hnone
  · rw [h] at hsome
    obtain rfl := Option.some.inj hsome
    rw [evaluateComplete] at hx
    split at hx
    · cases hx
    · rw [← Plain.ofKeypad_keysText hfinite]
      exact hx
  · rw [h] at hnone
    cases hnone

/-- **THE ANSWER IS WHOLE WHERE IT STANDS APART**: the value of a commit is
    that of the keys read word by word, with the answer as one operand, exactly
    if no answer key has a digit, a point or another answer next to it.  The
    operand is the answer itself, except that a negative zero is read without
    its sign. -/
theorem committed_reading_iff {s : Session} {last : Option Float} {v : Float}
    (h : s.Reached last) (hv : s.committed? = some v) :
    ((∃ w t, Reading (answerFloat s.answer) s.expression.keys w
        ∧ Sentence .sum w t ∧ t.value = v)
      ↔ s.expression.keys.IsChain Key.Apart)
    ∧ (answerFloat s.answer = s.answer
      ∨ s.answer = -0.0 ∧ answerFloat s.answer = 0.0) := by
  have hcoherent := coherent_of_reached h
  have hplain := evaluatePlain_of_committed? hcoherent.finite hv
  constructor
  · constructor
    · rintro ⟨w, t, hreading, ht, -⟩
      exact apart_of_reading hreading ht
    · intro hapart
      exact exists_reading hcoherent.finite hapart hplain
  · have hread := answerFloat_eq hcoherent.finite
    rw [hcoherent.rounded] at hread
    exact hread

/-- Five and the answer, a zero, with the plus between them deleted: what is
    committed is fifty. -/
theorem committed_five_answer :
    ∃ s : Session, s.Reached none ∧ s.display = "5ANS".toList
      ∧ s.committed? = some 50.0
      ∧ ¬ ∃ w t, Reading (answerFloat s.answer) s.expression.keys w
        ∧ Sentence .sum w t ∧ t.value = 50.0 := by
  have hreached : (((((Session.new.insert ['5']).insert ['+']).insert
      ['A', 'N', 'S']).obey .left).obey .delete).Reached none :=
    .obey .delete nofun (.obey .left nofun (.insert _ (.insert _ (.insert _
      .new))))
  have hv : (((((Session.new.insert ['5']).insert ['+']).insert
      ['A', 'N', 'S']).obey .left).obey .delete).committed? = some 50.0 := by
    rfl
  refine ⟨_, hreached, by rfl, hv, ?_⟩
  intro hreading
  have hapart := (committed_reading_iff hreached hv).1.mp hreading
  have hapart' : [Key.digit 5, .answer].IsChain Key.Apart := hapart
  cases (List.isChain_cons_cons.mp hapart').1.2 rfl

end Session

end Keypad
