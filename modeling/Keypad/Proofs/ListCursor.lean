import Keypad.Expression
import Mathlib.Data.List.Basic
import Mathlib.Data.List.InsertIdx

/-! # A list with a cursor — what an expression amounts to

    Toward: an expression, its keys parted by the caret, behaves as one list
    of keys with an index into it.

    `Editor` is what the two have in common, and `Editor.Refines` what has to
    be shown of each operation by itself so that every run agrees, in what it
    reports and in every state on its way (`Editor.Refines.trace`).  The keys
    on the left of the caret are those in front of the index
    (`Expression.cursor`), so each operation at the end of the left side is
    one at the index of the list. -/

namespace Keypad

/-! ## Editors -/

/-- What can be done to keys with a caret. -/
inductive Edit where
  | insert (k : Key)
  /-- Takes out the key before the caret. -/
  | remove
  | left
  | right
  /-- Takes out all keys. -/
  | clear
  /-- Starts anew. -/
  | new
deriving DecidableEq, Repr

/-- What an edit reports. -/
inductive Report where
  | nothing
  | removed (k : Option Key)
  /-- Whether the caret has moved. -/
  | moved (done : Bool)
deriving DecidableEq, Repr

/-- Keys with a caret, as far as they can be edited. -/
structure Editor (σ : Type) where
  insert : Key → σ → σ
  remove : σ → Option Key × σ
  left : σ → Bool × σ
  right : σ → Bool × σ
  empty : σ

namespace Editor

variable {σ τ : Type}

/-- Carries out an edit. -/
def perform (ed : Editor σ) (s : σ) : Edit → Report × σ
  | .insert k => (.nothing, ed.insert k s)
  | .remove => (ed.remove s).map .removed id
  | .left => (ed.left s).map .moved id
  | .right => (ed.right s).map .moved id
  | .clear | .new => (.nothing, ed.empty)

/-- Carries out edits one after the other: the report of each, and the state
    after it. -/
def trace (ed : Editor σ) (s : σ) : List Edit → List (Report × σ)
  | [] => []
  | edit :: edits =>
      ed.perform s edit :: ed.trace (ed.perform s edit).2 edits

/-- Seen through `view`, the operations of one editor are those of another. -/
structure Refines (ed : Editor σ) (ed' : Editor τ) (view : σ → τ) : Prop where
  insert : ∀ k s, view (ed.insert k s) = ed'.insert k (view s)
  remove : ∀ s, (ed.remove s).map id view = ed'.remove (view s)
  left : ∀ s, (ed.left s).map id view = ed'.left (view s)
  right : ∀ s, (ed.right s).map id view = ed'.right (view s)
  empty : view ed.empty = ed'.empty

namespace Refines

variable {ed : Editor σ} {ed' : Editor τ} {view : σ → τ}

theorem perform (h : ed.Refines ed' view) (s : σ) (edit : Edit) :
    (ed.perform s edit).map id view = ed'.perform (view s) edit := by
  cases edit with
  | insert k => exact congrArg (Prod.mk _) (h.insert k s)
  | remove => exact congrArg (Prod.map Report.removed id) (h.remove s)
  | left => exact congrArg (Prod.map Report.moved id) (h.left s)
  | right => exact congrArg (Prod.map Report.moved id) (h.right s)
  | clear | new => exact congrArg (Prod.mk _) h.empty

/-- One edit after the other, the two editors stay together. -/
theorem trace (h : ed.Refines ed' view) (edits : List Edit) :
    ∀ s, (ed.trace s edits).map (Prod.map id view)
      = ed'.trace (view s) edits := by
  induction edits with
  | nil =>
      intro s
      rfl
  | cons edit edits ih =>
      intro s
      have hstep := h.perform s edit
      have hnext : view (ed.perform s edit).2
          = (ed'.perform (view s) edit).2 := congrArg Prod.snd hstep
      rw [Editor.trace, Editor.trace, List.map_cons, hstep, ih, hnext]

end Refines

end Editor

/-! ## The list with an index -/

/-- A list of keys and a place in it, by the number of keys in front. -/
@[ext] structure Cursor where
  keys : List Key
  index : Nat
  index_le : index ≤ keys.length

namespace Cursor

/-- No keys. -/
def empty : Cursor := ⟨[], 0, Nat.le_refl 0⟩

/-- Puts a key at the index and goes behind it. -/
def insert (k : Key) (c : Cursor) : Cursor where
  keys := c.keys.insertIdx c.index k
  index := c.index + 1
  index_le := by
    rw [List.length_insertIdx_of_le_length c.index_le]
    exact Nat.succ_le_succ c.index_le

/-- Takes out the key just before the index; nothing at index 0. -/
def remove : Cursor → Option Key × Cursor
  | ⟨keys, 0, h⟩ => (none, ⟨keys, 0, h⟩)
  | ⟨keys, i + 1, h⟩ =>
      (some keys[i], ⟨keys.eraseIdx i, i, by
        rw [List.length_eraseIdx_of_lt h]
        exact Nat.le_sub_one_of_lt h⟩)

/-- Goes back by one key; nowhere from index 0. -/
def moveLeft : Cursor → Bool × Cursor
  | ⟨keys, 0, h⟩ => (false, ⟨keys, 0, h⟩)
  | ⟨keys, i + 1, h⟩ => (true, ⟨keys, i, Nat.le_of_succ_le h⟩)

/-- Goes on by one key; nowhere from the end. -/
def moveRight (c : Cursor) : Bool × Cursor :=
  if h : c.index < c.keys.length then (true, ⟨c.keys, c.index + 1, h⟩)
  else (false, c)

/-- The number of characters that the keys in front of the index show. -/
def caret (c : Cursor) : Nat := (keysText (c.keys.take c.index)).length

/-- The plain list with an index, edited. -/
def editor : Editor Cursor := ⟨insert, remove, moveLeft, moveRight, empty⟩

end Cursor

/-! ## Expressions -/

namespace Expression

/-- An expression, edited; a caret that cannot move stays. -/
def editor : Editor Expression where
  insert := insert
  remove := remove
  left e := (e.moveLeft?.isSome, e.moveLeft?.getD e)
  right e := (e.moveRight?.isSome, e.moveRight?.getD e)
  empty := empty

/-- The keys of an expression in one list, and the number of those before the
    caret. -/
def cursor (e : Expression) : Cursor where
  keys := e.left ++ e.right
  index := e.left.length
  index_le := by
    rw [List.length_append]
    exact Nat.le_add_right _ _

/-- A key that goes in between two lists. -/
theorem insertIdx_length_append (k : Key) (left right : List Key) :
    (left ++ right).insertIdx left.length k = left ++ k :: right := by
  induction left with
  | nil => rfl
  | cons a left ih =>
      rw [List.cons_append, List.length_cons, List.insertIdx_succ_cons, ih]
      rfl

theorem cursor_insert (k : Key) (e : Expression) :
    (e.insert k).cursor = e.cursor.insert k := by
  ext1
  · show (e.left ++ [k]) ++ e.right
      = (e.left ++ e.right).insertIdx e.left.length k
    rw [insertIdx_length_append]
    exact (List.append_cons e.left k e.right).symm
  · exact List.length_append

theorem index_lt_concat (front : List Key) (k : Key) (right : List Key) :
    front.length < (front ++ k :: right).length := by
  rw [List.length_append, List.length_cons]
  exact Nat.lt_add_of_pos_right (Nat.succ_pos _)

/-- With a key before the caret the index is behind that key. -/
theorem cursor_concat (front : List Key) (k : Key) (right : List Key) :
    cursor ⟨front ++ [k], right⟩
      = ⟨front ++ k :: right, front.length + 1,
        index_lt_concat front k right⟩ := by
  ext1
  · exact (List.append_cons front k right).symm
  · exact List.length_append

theorem cursor_remove (e : Expression) :
    e.remove.map id cursor = e.cursor.remove := by
  obtain ⟨left, right⟩ := e
  rcases List.eq_nil_or_concat' left with rfl | ⟨front, k, rfl⟩
  · rfl
  · rw [remove_concat, cursor_concat, Cursor.remove]
    refine Prod.ext ?_ (Cursor.ext ?_ rfl)
    · show some k = some (front ++ k :: right)[front.length]
      rw [List.getElem_append_right (Nat.le_refl _)]
      simp
    · show front ++ right = (front ++ k :: right).eraseIdx front.length
      rw [List.eraseIdx_append_of_length_le (Nat.le_refl _), Nat.sub_self]
      rfl

theorem cursor_moveLeft (e : Expression) :
    (editor.left e).map id cursor = e.cursor.moveLeft := by
  obtain ⟨left, right⟩ := e
  rcases List.eq_nil_or_concat' left with rfl | ⟨front, k, rfl⟩
  · rfl
  · have hleft : editor.left ⟨front ++ [k], right⟩
        = (true, ⟨front, k :: right⟩) := by
      simp only [editor, moveLeft?_concat]
      rfl
    rw [hleft, cursor_concat]
    rfl

theorem cursor_moveRight (e : Expression) :
    (editor.right e).map id cursor = e.cursor.moveRight := by
  obtain ⟨left, right⟩ := e
  cases right with
  | nil =>
      have hend : ¬ (cursor ⟨left, []⟩).index
          < (cursor ⟨left, []⟩).keys.length := by
        show ¬ left.length < (left ++ []).length
        rw [List.append_nil]
        exact Nat.lt_irrefl _
      rw [Cursor.moveRight, dif_neg hend]
      rfl
  | cons k right =>
      have hinside : (cursor ⟨left, k :: right⟩).index
          < (cursor ⟨left, k :: right⟩).keys.length :=
        index_lt_concat left k right
      rw [Cursor.moveRight, dif_pos hinside]
      exact congrArg (Prod.mk true) (cursor_concat left k right)

/-- An expression refines the plain list. -/
theorem editor_refines : editor.Refines Cursor.editor cursor where
  insert := cursor_insert
  remove := cursor_remove
  left := cursor_moveLeft
  right := cursor_moveRight
  empty := rfl

theorem caret_cursor (e : Expression) : e.caret = e.cursor.caret := by
  rw [caret, Cursor.caret]
  show _ = (keysText ((e.left ++ e.right).take e.left.length)).length
  rw [List.take_left]

/-- The caret is in front of a key or behind it. -/
theorem caret_beside {e : Expression} {a b : List Key} {k : Key}
    (h : e.keys = a ++ k :: b) :
    e.caret ≤ (keysText a).length
      ∨ (keysText (a ++ [k])).length ≤ e.caret := by
  have hle : ∀ u v : List Key,
      (keysText u).length ≤ (keysText (u ++ v)).length := by
    intro u v
    rw [keysText_append, List.length_append]
    exact Nat.le_add_right _ _
  rw [caret]
  rcases List.append_eq_append_iff.mp h with ⟨c, rfl, -⟩ | ⟨c, hleft, hc⟩
  · exact Or.inl (hle e.left c)
  · cases c with
    | nil =>
        rw [hleft, List.append_nil]
        exact Or.inl (Nat.le_refl _)
    | cons k' c =>
        obtain ⟨rfl, -⟩ := List.cons.inj hc
        rw [hleft, List.append_cons]
        exact Or.inr (hle (a ++ [k]) c)

/-- **AN EXPRESSION IS A LIST WITH AN INDEX**: from any keys on the two sides
    of the caret and by any edits, an expression reports what the plain list
    reports, and after each edit its two sides in a row are the list and the
    length of the left side is the index.  The caret is the number of
    characters that the keys in front of the index show, and inside no key. -/
theorem trace_cursor (e : Expression) (edits : List Edit) :
    (editor.trace e edits).map (Prod.map id cursor)
      = Cursor.editor.trace e.cursor edits
    ∧ (∀ e' : Expression, e'.caret = e'.cursor.caret)
    ∧ ∀ (e' : Expression) (a b : List Key) (k : Key),
      e'.keys = a ++ k :: b →
        e'.caret ≤ (keysText a).length
          ∨ (keysText (a ++ [k])).length ≤ e'.caret :=
  ⟨editor_refines.trace edits e, caret_cursor, fun _ _ _ _ => caret_beside⟩

-- The caret steps over the answer as over any key.
example : (editor.trace ⟨[.digit 1, .answer], []⟩ [.left, .right, .right]).map
    (Prod.map id caret)
      = [(.moved true, 1), (.moved true, 4), (.moved false, 4)] := by decide

end Expression

end Keypad
