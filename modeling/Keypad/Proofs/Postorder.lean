import Keypad.Tree

/-! # Postorder — the programs that have a value

    Toward: a program comes to nothing exactly if it is the postorder of no
    tree, and the postorder of a tree has the value of that tree.

    A stack of values does not tell how it came about.  On a stack of trees
    (`Tree.build`) a program puts together what it would otherwise compute.
    Two things stay true from step to step: the values of these trees are the
    stack of values (`Tree.step_map_value`), and their postorders in a row are
    the program so far (`Tree.spelled_attach`).  So nothing of a program is
    lost, and one that ends with a single tree is the postorder of it
    (`Tree.build_eq_singleton`). -/

namespace Keypad

namespace Tree

/-! ## A stack of trees -/

/-- One step on a stack of trees, topmost first; nothing when an operand is
    missing. -/
def attach : List Tree → Node → Option (List Tree)
  | stack, .number x => some (.number x :: stack)
  | t :: stack, .sign s => some (.sign s t :: stack)
  | r :: l :: stack, .operator o => some (.operator o l r :: stack)
  | _, _ => none

/-- The stack of trees that a program leaves behind, starting from `stack`. -/
def build (stack : List Tree) (p : Program) : Option (List Tree) :=
  p.foldlM attach stack

/-- The postorders of a stack of trees in a row, that of the topmost last. -/
def spelled (stack : List Tree) : Program := stack.reverse.flatMap postorder

theorem build_cons (stack : List Tree) (n : Node) (p : Program) :
    build stack (n :: p) = (attach stack n).bind fun s => build s p := rfl

theorem build_append (stack : List Tree) (p q : Program) :
    build stack (p ++ q) = (build stack p).bind fun s => build s q := by
  show List.foldlM attach stack (p ++ q) = _
  rw [List.foldlM_append]
  rfl

@[simp] theorem spelled_cons (t : Tree) (stack : List Tree) :
    spelled (t :: stack) = spelled stack ++ t.postorder := by
  simp [spelled]

/-- The postorder of a tree puts the tree together on top of the stack. -/
theorem build_postorder (t : Tree) (stack : List Tree) :
    build stack t.postorder = some (t :: stack) := by
  induction t generalizing stack with
  | number x => rfl
  | sign s t ih =>
      rw [postorder, build_append, ih]
      rfl
  | operator o l r ihl ihr =>
      rw [postorder, build_append, build_append, ihl, Option.bind_some, ihr]
      rfl

/-! ## What a step keeps true -/

/-- A step on the values of trees is a step on the trees. -/
theorem step_map_value (stack : List Tree) (n : Node) :
    Program.step (stack.map value) n
      = (attach stack n).map (List.map value) := by
  cases n with
  | number x => rfl
  | sign s =>
      cases stack with
      | nil => rfl
      | cons t stack =>
          show _ = some ((sign s t).value :: stack.map value)
          rw [value_sign]
          rfl
  | operator o =>
      cases stack with
      | nil => rfl
      | cons r stack =>
          cases stack with
          | nil => rfl
          | cons l stack =>
              show _ = some ((operator o l r).value :: stack.map value)
              rw [value_operator]
              rfl

/-- The trees spell out one step more. -/
theorem spelled_attach {stack stack' : List Tree} {n : Node}
    (h : attach stack n = some stack') :
    spelled stack' = spelled stack ++ [n] := by
  cases n with
  | number x =>
      obtain rfl := Option.some.inj h
      rw [spelled_cons, postorder]
  | sign s =>
      cases stack with
      | nil => cases h
      | cons t stack =>
          obtain rfl := Option.some.inj h
          rw [spelled_cons, spelled_cons, postorder, List.append_assoc]
  | operator o =>
      cases stack with
      | nil => cases h
      | cons r stack =>
          cases stack with
          | nil => cases h
          | cons l stack =>
              obtain rfl := Option.some.inj h
              rw [spelled_cons, spelled_cons, spelled_cons, postorder,
                List.append_assoc, List.append_assoc, List.append_assoc]

/-! ## What a run leaves behind -/

/-- A run on the values of trees is a run on the trees. -/
theorem run_map_value {p : Program} :
    ∀ stack : List Tree, Program.run (stack.map value) p
      = (build stack p).map (List.map value) := by
  induction p with
  | nil =>
      intro stack
      rfl
  | cons n p ih =>
      intro stack
      rw [Program.run_cons, build_cons, step_map_value]
      cases attach stack n with
      | none => rfl
      | some stack' => exact ih stack'

/-- The trees spell out all of the program. -/
theorem spelled_build {p : Program} :
    ∀ {stack stack' : List Tree}, build stack p = some stack' →
      spelled stack' = spelled stack ++ p := by
  induction p with
  | nil =>
      intro stack stack' h
      rw [← Option.some.inj h, List.append_nil]
  | cons n p ih =>
      intro stack stack' h
      rw [build_cons] at h
      obtain ⟨middle, hstep, hrest⟩ := Option.bind_eq_some_iff.mp h
      rw [ih hrest, spelled_attach hstep, List.append_assoc]
      rfl

/-- A program that leaves one tree is the postorder of that tree. -/
theorem build_eq_singleton {p : Program} {t : Tree} :
    build [] p = some [t] ↔ p = t.postorder := by
  constructor
  · intro h
    have hspelled := spelled_build h
    rw [spelled_cons] at hspelled
    exact hspelled.symm
  · rintro rfl
    exact build_postorder t []

theorem postorder_injective : Function.Injective postorder := by
  intro t t' h
  have hbuild := build_eq_singleton.mpr h
  rw [build_postorder] at hbuild
  exact List.singleton_inj.mp (Option.some.inj hbuild)

end Tree

/-! ## The value of a program -/

namespace Program

/-- A program that is no postorder leaves no single value. -/
theorem evaluate_of_forall_ne {p : Program}
    (h : ∀ t : Tree, p ≠ t.postorder) : p.evaluate = .error .unfinished := by
  have hrun : run [] p = (Tree.build [] p).map (List.map Tree.value) :=
    Tree.run_map_value []
  rw [evaluate, hrun]
  cases hbuild : Tree.build [] p with
  | none => rfl
  | some stack =>
      cases stack with
      | nil => rfl
      | cons t rest =>
          cases rest with
          | nil => exact absurd (Tree.build_eq_singleton.mp hbuild) (h t)
          | cons t' rest => rfl

/-- **A PROGRAM IS A TREE OR IT IS UNFINISHED**: a program comes to nothing
    exactly if it is the postorder of no tree.  The postorder of a tree, and of
    no other, has the value of that tree, whatever the values in between, or
    the fault of a value that is not finite. -/
theorem evaluate_trees :
    (∀ p : Program,
      p.evaluate = .error .unfinished ↔ ¬ ∃ t : Tree, p = t.postorder)
    ∧ (∀ t : Tree, t.postorder.evaluate
        = if t.value.isFinite then .ok t.value else .error .notFinite)
    ∧ Function.Injective Tree.postorder := by
  refine ⟨?_, evaluate_postorder, Tree.postorder_injective⟩
  intro p
  constructor
  · rintro h ⟨t, rfl⟩
    rw [evaluate_postorder] at h
    split at h <;> cases h
  · intro h
    exact evaluate_of_forall_ne fun t ht => h ⟨t, ht⟩

/-- The difference of seven and two over the remainder of ten by four,
    negated. -/
theorem evaluate_difference_over_remainder :
    evaluate [.number 7.0, .number 2.0, .operator .subtract, .number 10.0,
        .number 4.0, .operator .remainder, .operator .divide, .sign .negative]
      = .ok (-2.5) := by
  have hvalue : Tree.value (.sign .negative (.operator .divide
      (.operator .subtract (.number 7.0) (.number 2.0))
      (.operator .remainder (.number 10.0) (.number 4.0)))) = -2.5 := by
    decide +kernel
  have hfinite : (-2.5 : Float).isFinite = true := by decide +kernel
  have hevaluate := evaluate_trees.2.1 (.sign .negative (.operator .divide
    (.operator .subtract (.number 7.0) (.number 2.0))
    (.operator .remainder (.number 10.0) (.number 4.0))))
  rw [hvalue, if_pos hfinite] at hevaluate
  exact hevaluate

-- The operand that is missing in the middle does not come later.
example : evaluate [.number 1.0, .operator .add, .number 2.0, .number 3.0]
    = .error .unfinished := by rfl

end Program

end Keypad
