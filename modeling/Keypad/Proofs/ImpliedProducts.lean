import Keypad.Proofs.Numerals

/-! # Implied products — the plain text of keys, part by part

    Plain text is made in three passes, each of which puts `*` at junctures
    of its own.  No juncture has a `*` in it, so the passes do not see each
    other's work, and in any order they are one pass over the union of the
    junctures (`foldl_insertTimes`, `ofKeypad_eq`).  One pass works part by
    part: the plain text of two lists of keys in a row is the plain text of
    the one and of the other, with a `*` at the seam where the two keys there
    imply a product
    (`ofKeys_append`). -/

namespace Keypad

namespace Plain

/-! ## Putting signs at junctures -/

/-- The sign at the seam between two texts. -/
def seam (juncture : Char → Char → Bool) (u v : Text) : Text :=
  if u.getLast?.any fun a => v.head?.any (juncture a) then ['*'] else []

/-- No sign stands at a seam that is no juncture. -/
theorem seam_eq_nil {j : Char → Char → Bool} {u v : Text}
    (h : ∀ a ∈ u.getLast?, ∀ b ∈ v.head?, j a b = false) : seam j u v = [] := by
  rw [seam]
  cases hu : u.getLast? with
  | none => rfl
  | some a =>
      cases hv : v.head? with
      | none => rfl
      | some b =>
          show (if j a b then _ else _) = _
          rw [h a hu b hv]
          rfl

/-- The first character stays the first. -/
theorem insertTimes_cons (juncture : Char → Char → Bool) (a : Char)
    (t : Text) : ∃ r, insertTimes juncture (a :: t) = a :: r := by
  cases t with
  | nil => exact ⟨[], rfl⟩
  | cons b t =>
      rw [insertTimes_cons_cons]
      split
      · exact ⟨_, rfl⟩
      · exact ⟨_, rfl⟩

/-- Where no juncture has a `*` in it, a second pass sees nothing of the
    first. -/
theorem insertTimes_insertTimes {j j' : Char → Char → Bool}
    (hleft : ∀ c, j' '*' c = false) (hright : ∀ c, j' c '*' = false)
    (t : Text) :
    insertTimes j' (insertTimes j t)
      = insertTimes (fun a b => j a b || j' a b) t := by
  induction t with
  | nil => rfl
  | cons a t ih =>
      cases t with
      | nil => rfl
      | cons b t =>
          obtain ⟨r, hr⟩ := insertTimes_cons j b t
          rw [hr] at ih
          rw [insertTimes_cons_cons, insertTimes_cons_cons, hr, ← ih]
          cases hj : j a b with
          | true =>
              -- the second pass sees `*` on the right of `a` and left of `b`
              rw [if_pos rfl, if_pos (by rw [Bool.true_or]),
                insertTimes_cons_cons, if_neg (Bool.eq_false_iff.mp (hright a)),
                insertTimes_cons_cons, if_neg (Bool.eq_false_iff.mp (hleft b))]
          | false =>
              rw [if_neg (by decide), insertTimes_cons_cons, Bool.false_or]

/-- A text without junctures stays as it is. -/
theorem insertTimes_of_isChain {j : Char → Char → Bool} {t : Text}
    (h : t.IsChain fun a b => j a b = false) : insertTimes j t = t := by
  induction t with
  | nil => rfl
  | cons a t ih =>
      cases t with
      | nil => rfl
      | cons b t =>
          obtain ⟨hj, hrest⟩ := List.isChain_cons_cons.mp h
          rw [insertTimes_cons_cons, if_neg (Bool.eq_false_iff.mp hj), ih hrest]

theorem insertTimes_append (j : Char → Char → Bool) (u v : Text) :
    insertTimes j (u ++ v)
      = insertTimes j u ++ seam j u v ++ insertTimes j v := by
  induction u with
  | nil => rfl
  | cons a u ih =>
      cases u with
      | nil =>
          cases v with
          | nil => rfl
          | cons b v =>
              show (if j a b then _ else _)
                = [a] ++ (if j a b then _ else _) ++ _
              split
              · rfl
              · rfl
      | cons b u =>
          have hseam : seam j (a :: b :: u) v = seam j (b :: u) v := by
            rw [seam, List.getLast?_cons_cons]
            rfl
          rw [List.cons_append, List.cons_append, insertTimes_cons_cons,
            ← List.cons_append, ih, insertTimes_cons_cons, hseam]
          split
          · rfl
          · rfl

theorem getLast?_insertTimes (j : Char → Char → Bool) (t : Text) :
    (insertTimes j t).getLast? = t.getLast? := by
  rcases List.eq_nil_or_concat t with rfl | ⟨u, c, rfl⟩
  · rfl
  · rw [List.concat_eq_append, insertTimes_append, insertTimes_singleton,
      List.getLast?_concat, List.getLast?_concat]

/-- The three junctures of implied products. -/
def implied (a b : Char) : Bool :=
  numberThenGroup a b || groupThenNumber a b || groupThenGroup a b

theorem implied_eq_false_of_left {a : Char} (ha : a.isDigit = false)
    (ha' : (a == ')') = false) (b : Char) : implied a b = false := by
  rw [implied, numberThenGroup, groupThenNumber, groupThenGroup, ha, ha']
  rfl

theorem implied_eq_false_of_right {b : Char} (hb : b.isDigit = false)
    (hb' : (b == '(') = false) (a : Char) : implied a b = false := by
  rw [implied, numberThenGroup, groupThenNumber, groupThenGroup, hb, hb',
    Bool.and_false, Bool.and_false]
  rfl

/-! ## Passes one after the other -/

/-- **PASSES ARE ONE PASS**: where no juncture has a sign in it, passes one
    after the other are one pass over all of their junctures. -/
theorem foldl_insertTimes {passes : List (Char → Char → Bool)}
    (h : ∀ j ∈ passes, ∀ c, j '*' c = false ∧ j c '*' = false) (t : Text) :
    passes.foldl (fun u j => insertTimes j u) t
      = insertTimes (fun a b => passes.any fun j => j a b) t := by
  induction passes generalizing t with
  | nil =>
      refine (insertTimes_of_isChain ?_).symm
      exact List.isChain_iff_forall_rel_of_append_cons_cons.mpr
        fun _ _ _ _ _ => rfl
  | cons j passes ih =>
      obtain ⟨-, hpasses⟩ := List.forall_mem_cons.mp h
      -- the passes that follow are one pass, which sees nothing of the first
      rw [List.foldl_cons, ih hpasses, insertTimes_insertTimes]
      · rfl
      · exact fun c => List.any_eq_false.mpr fun j hj =>
          Bool.eq_false_iff.mp (hpasses j hj c).1
      · exact fun c => List.any_eq_false.mpr fun j hj =>
          Bool.eq_false_iff.mp (hpasses j hj c).2

/-- The junctures of implied products, as the passes come. -/
def junctures : List (Char → Char → Bool) :=
  [numberThenGroup, groupThenNumber, groupThenGroup]

theorem any_junctures (a b : Char) :
    (junctures.any fun j => j a b) = implied a b := by
  rw [junctures, implied, List.any_cons, List.any_cons, List.any_cons,
    List.any_nil, Bool.or_false, Bool.or_assoc]

/-- No juncture of an implied product has a sign in it. -/
theorem juncture_sign {j : Char → Char → Bool} (h : j ∈ junctures) (c : Char) :
    j '*' c = false ∧ j c '*' = false := by
  simp only [junctures, List.mem_cons, List.not_mem_nil, or_false] at h
  rcases h with rfl | rfl | rfl
  · exact ⟨rfl, Bool.and_false _⟩
  · exact ⟨rfl, Bool.and_false _⟩
  · exact ⟨rfl, Bool.and_false _⟩

/-- The three passes are one, whichever comes first. -/
theorem foldl_insertTimes_of_perm {passes : List (Char → Char → Bool)}
    (h : passes.Perm junctures) (t : Text) :
    passes.foldl (fun u j => insertTimes j u) t = insertTimes implied t := by
  have hall : (fun a b => passes.any fun j => j a b) = implied := by
    funext a b
    rw [h.any_eq, any_junctures]
  rw [foldl_insertTimes fun j hj => juncture_sign (h.mem_iff.mp hj), hall]

/-- Plain text is made in one pass over the resolved text. -/
theorem ofKeypad_eq (answer : Float) (t : Text) :
    ofKeypad answer t = insertTimes implied (resolve answer t) :=
  foldl_insertTimes_of_perm (List.Perm.refl junctures) (resolve answer t)

/-! ## Keys one by one -/

theorem replaceAnswer_cons_of_ne (operand : Text) {c : Char} (t : Text)
    (h : c ≠ 'A') :
    replaceAnswer operand (c :: t) = c :: replaceAnswer operand t := by
  rw [replaceAnswer]
  intro r hc _
  exact absurd hc h

theorem plainChar_of_isNumeric {c : Char} (h : Token.isNumeric c = true) :
    plainChar c = c := by
  have hle : c.toNat ≤ 57 := (Token.toNat_bounds_of_isNumeric h).2
  simp only [plainChar]
  split
  · exact absurd hle (by decide)
  · exact absurd hle (by decide)
  · rfl

/-- Glyphs are no part of an answer. -/
theorem map_plainChar_answerOperand {answer : Float}
    (h : answer.isFinite = true) :
    (answerOperand answer).map plainChar = answerOperand answer := by
  obtain ⟨m, n, hm, -, hcase⟩ := answer_cases h
  have hmap : m.map plainChar = m := by
    have hsame : ∀ c ∈ m, plainChar c = c := fun c hc =>
      plainChar_of_isNumeric (hm.numeric c hc)
    rw [List.map_congr_left hsame]
    exact List.map_id' m
  rcases hcase with ⟨hpos, -⟩ | ⟨hminus, -⟩
  · rw [hpos]
    exact hmap
  · rw [hminus, List.map_append, List.map_cons, List.map_cons, hmap]
    rfl

end Plain

namespace Key

/-- What a key is in plain text. -/
def plain (answer : Float) : Key → Text
  | .operator o => [o.symbol]
  | .answer => Plain.answerOperand answer
  | k => k.text

/-- Two keys with an implied product between them. -/
def implies : Key → Key → Bool
  | .digit _, .opening | .answer, .opening => true
  | .closing, .digit _ | .closing, .answer | .closing, .opening => true
  | _, _ => false

/-- Two keys that may stand side by side as far as the answer is concerned:
    it touches no other operand. -/
def Apart (a b : Key) : Prop :=
  (a = .answer → b.isOperand = false) ∧ (b = .answer → a.isOperand = false)

/-- A key that is no operand may stand on the left of any other. -/
theorem apart_of_left {a : Key} (b : Key) (h : a.isOperand = false) :
    a.Apart b := by
  refine ⟨?_, fun _ => h⟩
  rintro rfl
  cases h

/-- A key that is no operand may stand on the right of any other. -/
theorem apart_of_right (a : Key) {b : Key} (h : b.isOperand = false) :
    a.Apart b := by
  refine ⟨fun _ => h, ?_⟩
  rintro rfl
  cases h

end Key

namespace Plain

/-- Keys are resolved one by one. -/
theorem resolve_keysText {answer : Float} (h : answer.isFinite = true)
    (keys : List Key) :
    resolve answer (keysText keys) = keys.flatMap (Key.plain answer) := by
  induction keys with
  | nil => rfl
  | cons k keys ih =>
      rw [List.flatMap_cons, ← ih, keysText_cons, resolve, resolve]
      cases k with
      | digit d =>
          have hdigit := Key.isDigit_digitChar d
          show (replaceAnswer _ (Nat.digitChar d :: _)).map plainChar = _
          rw [replaceAnswer_cons_of_ne _ _ (Token.ne_of_isDigit hdigit rfl),
            List.map_cons,
            plainChar_of_isNumeric (Token.isNumeric_of_isDigit hdigit)]
          rfl
      | operator o =>
          have hA : o.glyph ≠ 'A' := by cases o <;> decide
          have hplain : plainChar o.glyph = o.symbol := by cases o <;> rfl
          show (replaceAnswer _ (o.glyph :: _)).map plainChar = _
          rw [replaceAnswer_cons_of_ne _ _ hA, List.map_cons, hplain]
          rfl
      | answer =>
          show (answerOperand answer ++ replaceAnswer _ _).map plainChar = _
          rw [List.map_append, map_plainChar_answerOperand h]
          rfl
      | point => rfl
      | opening => rfl
      | closing => rfl

/-- The plain text of keys. -/
def ofKeys (answer : Float) (keys : List Key) : Text :=
  insertTimes implied (keys.flatMap (Key.plain answer))

theorem ofKeypad_keysText {answer : Float} (h : answer.isFinite = true)
    (keys : List Key) :
    ofKeypad answer (keysText keys) = ofKeys answer keys := by
  rw [ofKeypad_eq, resolve_keysText h]
  rfl

end Plain

/-! ## The ends of a key -/

namespace Key

/-- How a key starts: as what it is, or, for the answer, with a digit or an
    opening parenthesis. -/
theorem head_plain {answer : Float} (h : answer.isFinite = true) (k : Key) :
    ∃ c t, k.plain answer = c :: t
      ∧ (k ≠ .answer ∧ c.isDigit = k.isDigit ∧ (c == '(') = (k == .opening)
        ∨ k = .answer ∧ c.isDigit = !(c == '(')) := by
  cases k with
  | digit d =>
      have hdigit := isDigit_digitChar d
      have hopening :=
        beq_false_of_ne (Token.ne_of_isDigit (d := '(') hdigit rfl)
      exact ⟨_, _, rfl, Or.inl ⟨nofun, hdigit, hopening⟩⟩
  | operator o =>
      refine ⟨_, _, rfl, Or.inl ⟨nofun, ?_⟩⟩
      cases o <;> decide
  | answer =>
      obtain ⟨m, n, hm, -, hcase⟩ := answer_cases h
      rcases hcase with ⟨hpos, -⟩ | ⟨hminus, -⟩
      · obtain ⟨c, t, hc, hdigit⟩ := hm.head
        refine ⟨c, t, hpos.trans hc, Or.inr ⟨rfl, ?_⟩⟩
        rw [hdigit, beq_false_of_ne (Token.ne_of_isDigit hdigit rfl)]
        rfl
      · exact ⟨'(', _, hminus, Or.inr ⟨rfl, rfl⟩⟩
  | point => exact ⟨_, _, rfl, Or.inl ⟨nofun, rfl, rfl⟩⟩
  | opening => exact ⟨_, _, rfl, Or.inl ⟨nofun, rfl, rfl⟩⟩
  | closing => exact ⟨_, _, rfl, Or.inl ⟨nofun, rfl, rfl⟩⟩

/-- How a key ends: as what it is, or, for the answer, with a digit or a
    closing parenthesis. -/
theorem last_plain {answer : Float} (h : answer.isFinite = true) (k : Key) :
    ∃ c, (k.plain answer).getLast? = some c
      ∧ (k ≠ .answer ∧ c.isDigit = k.isDigit ∧ (c == ')') = (k == .closing)
        ∨ k = .answer ∧ c.isDigit = !(c == ')')) := by
  cases k with
  | digit d =>
      have hdigit := isDigit_digitChar d
      have hclosing :=
        beq_false_of_ne (Token.ne_of_isDigit (d := ')') hdigit rfl)
      exact ⟨_, rfl, Or.inl ⟨nofun, hdigit, hclosing⟩⟩
  | operator o =>
      refine ⟨_, rfl, Or.inl ⟨nofun, ?_⟩⟩
      cases o <;> decide
  | answer =>
      obtain ⟨m, n, hm, -, hcase⟩ := answer_cases h
      rcases hcase with ⟨hpos, -⟩ | ⟨hminus, -⟩
      · obtain ⟨c, hc, hdigit⟩ := hm.last
        refine ⟨c, (congrArg List.getLast? hpos).trans hc, Or.inr ⟨rfl, ?_⟩⟩
        rw [hdigit, beq_false_of_ne (Token.ne_of_isDigit hdigit rfl)]
        rfl
      · refine ⟨')', (congrArg List.getLast? hminus).trans ?_,
          Or.inr ⟨rfl, rfl⟩⟩
        exact List.getLast?_concat
  | point => exact ⟨_, rfl, Or.inl ⟨nofun, rfl, rfl⟩⟩
  | opening => exact ⟨_, rfl, Or.inl ⟨nofun, rfl, rfl⟩⟩
  | closing => exact ⟨_, rfl, Or.inl ⟨nofun, rfl, rfl⟩⟩

/-- Keys imply a product where their plain texts do. -/
theorem implied_plain {answer : Float} (h : answer.isFinite = true) {a b : Key}
    (hapart : a.Apart b) {c d : Char} (hc : c ∈ (a.plain answer).getLast?)
    (hd : d ∈ (b.plain answer).head?) :
    Plain.implied c d = a.implies b := by
  obtain ⟨c', hlast, hends⟩ := last_plain h a
  obtain ⟨d', t, hhead, hstarts⟩ := head_plain h b
  rw [hlast] at hc
  rw [hhead] at hd
  obtain rfl := Option.some.inj hc
  obtain rfl := Option.some.inj hd
  show (c'.isDigit && d' == '(' || c' == ')' && d'.isDigit
    || c' == ')' && d' == '(') = _
  rcases hends with ⟨ha, hdigit, hclosing⟩ | ⟨rfl, hdigit⟩
  · rcases hstarts with ⟨hb, hdigit', hopening⟩ | ⟨rfl, hdigit'⟩
    · rw [hdigit, hclosing, hdigit', hopening]
      cases a with
      | answer => exact absurd rfl ha
      | closing =>
          cases b with
          | answer => exact absurd rfl hb
          | _ => rfl
      | _ => cases b <;> rfl
    · have hoperand := hapart.2 rfl
      rw [hdigit, hclosing, hdigit']
      cases a with
      | digit _ => cases hoperand
      | point => cases hoperand
      | answer => cases hoperand
      | operator _ => rfl
      | opening => rfl
      | closing => cases d' == '(' <;> rfl
  · have hoperand := hapart.1 rfl
    rcases hstarts with ⟨-, hdigit', hopening⟩ | ⟨rfl, hdigit'⟩
    · rw [hdigit, hdigit', hopening]
      cases b with
      | digit _ => cases hoperand
      | point => cases hoperand
      | answer => cases hoperand
      | operator _ => cases c' == ')' <;> rfl
      | opening => cases c' == ')' <;> rfl
      | closing => cases c' == ')' <;> rfl
    · cases hoperand

/-- The sign of the product that two lists of keys in a row imply. -/
def seam (v w : List Key) : Text :=
  if v.getLast?.any fun a => w.head?.any a.implies then ['*'] else []

/-- No sign stands at a seam where no product is implied. -/
theorem seam_eq_nil {v w : List Key}
    (h : ∀ a ∈ v.getLast?, ∀ b ∈ w.head?, a.implies b = false) :
    seam v w = [] := by
  rw [seam]
  cases hv : v.getLast? with
  | none => rfl
  | some a =>
      cases hw : w.head? with
      | none => rfl
      | some b =>
          show (if a.implies b then _ else _) = _
          rw [h a hv b hw]
          rfl

theorem seam_singleton_eq_nil {v : List Key} {k : Key}
    (h : ∀ a ∈ v.getLast?, a.implies k = false) : seam v [k] = [] := by
  refine seam_eq_nil ?_
  intro a ha b hb
  obtain rfl := Option.some.inj hb
  exact h a ha

theorem seam_of_implies {front rest : List Key} {a b : Key}
    (h : a.implies b = true) : seam (front ++ [a]) (b :: rest) = ['*'] := by
  rw [seam, List.getLast?_concat, List.head?_cons, Option.any_some,
    Option.any_some, h]
  rfl

end Key

namespace Plain

theorem getLast?_ofKeys {answer : Float} (h : answer.isFinite = true)
    (keys : List Key) (k : Key) :
    (ofKeys answer (keys ++ [k])).getLast? = (k.plain answer).getLast? := by
  obtain ⟨c, hc, -⟩ := Key.last_plain h k
  rw [ofKeys, getLast?_insertTimes, List.flatMap_append, List.flatMap_singleton,
    List.getLast?_append, hc]
  rfl

theorem head?_ofKeys {answer : Float} (h : answer.isFinite = true) (k : Key)
    (keys : List Key) :
    (ofKeys answer (k :: keys)).head? = (k.plain answer).head? := by
  obtain ⟨c, t, hc, -⟩ := Key.head_plain h k
  rw [ofKeys, List.flatMap_cons, hc, List.cons_append]
  obtain ⟨r, hr⟩ :=
    insertTimes_cons implied c (t ++ keys.flatMap (Key.plain answer))
  rw [hr]
  rfl

/-- **KEYS IN A ROW**: where the answer touches no other operand, the plain
    texts of two lists of keys follow each other, with a `*` at the seam if
    a product is implied there. -/
theorem ofKeys_append {answer : Float} (h : answer.isFinite = true)
    {v w : List Key}
    (hapart : ∀ a ∈ v.getLast?, ∀ b ∈ w.head?, a.Apart b) :
    ofKeys answer (v ++ w)
      = ofKeys answer v ++ Key.seam v w ++ ofKeys answer w := by
  -- the characters at the seam imply what the keys there imply
  have hseam : seam implied (v.flatMap (Key.plain answer))
      (w.flatMap (Key.plain answer)) = Key.seam v w := by
    rcases List.eq_nil_or_concat v with rfl | ⟨v, a, rfl⟩
    · rfl
    · cases w with
      | nil =>
          have hempty : Key.seam (v.concat a) [] = [] := by
            refine Key.seam_eq_nil ?_
            rintro _ _ _ ⟨⟩
          rw [hempty]
          refine seam_eq_nil ?_
          rintro _ _ _ ⟨⟩
      | cons b w =>
          rw [List.concat_eq_append] at hapart ⊢
          obtain ⟨c, hc, -⟩ := Key.last_plain h a
          obtain ⟨d, t, hd, -⟩ := Key.head_plain h b
          have himplied : implied c d = a.implies b :=
            Key.implied_plain h (hapart a List.getLast?_concat b rfl) hc
              (by rw [hd]; rfl)
          rw [seam, Key.seam, List.flatMap_append, List.flatMap_singleton,
            List.getLast?_append, hc, List.flatMap_cons, hd,
            List.getLast?_concat]
          show (if implied c d then _ else _) = if a.implies b then _ else _
          rw [himplied]
  rw [ofKeys, List.flatMap_append, insertTimes_append, hseam]
  rfl

end Plain

end Keypad
