import Mathlib.Algebra.GroupWithZero.Nat
import ShiftReduce.Tree.Search

/-!
Contract: the places of nodes in a tree.

Owns: the children of a node with their numbers; the reading of a path step by step; `Precedes`, the
order of paths in which a node comes before those under it and those to its right; and the fact that
numbers go along with this order, so that a number tells a node from all others.
-/

namespace ShiftReduce

namespace Tree

variable {T N : Type}

theorem forestSize_eq_sum (trees : List (Tree T N)) : forestSize trees = (trees.map size).sum := by
  induction trees with
  | nil => rfl
  | cons head tail inductionHypothesis =>
      rw [forestSize, inductionHypothesis, List.map_cons, List.sum_cons]

/-- The trees under a node have fewer nodes than the node and they together. -/
theorem sum_size_children_lt (tree : Tree T N) : (tree.children.map size).sum < tree.size := by
  rw [← forestSize_eq_sum, tree.size_eq_forestSize_children]
  exact Nat.lt_succ_self _

theorem size_pos (tree : Tree T N) : 0 < tree.size := by
  rw [size_eq_forestSize_children]
  exact Nat.succ_pos _

/-- Fewer trees from the front have no more nodes. -/
theorem forestSize_take_le (trees : List (Tree T N)) {few many : Nat} (atMost : few ≤ many) :
    forestSize (trees.take few) ≤ forestSize (trees.take many) := by
  obtain ⟨rest, split⟩ : trees.take few <+: trees.take many := List.take_prefix_take_left atMost
  rw [← split, forestSize_append]
  exact Nat.le_add_right _ _

theorem forestSize_take_succ {trees : List (Tree T N)} {position : Nat} {tree : Tree T N}
    (found : trees[position]? = some tree) :
    forestSize (trees.take (position + 1)) = forestSize (trees.take position) + tree.size := by
  rw [List.take_add_one, found, forestSize_append]
  rfl

end Tree

namespace Occurrence

variable {T N : Type} {occurrence child node other : Occurrence T N}

/-- Trees side by side with the numbers of their roots, given that of the first one. -/
def numbered : Nat → List (Tree T N) → List (Occurrence T N)
  | _, [] => []
  | number, tree :: rest => { number, tree } :: numbered (number + tree.size) rest

/-- The children of a node from left to right. -/
def below (occurrence : Occurrence T N) : List (Occurrence T N) :=
  numbered (occurrence.number + 1) occurrence.tree.children

/-- Of two nodes, the one that is above the other, or else the one to the left, comes first. -/
def Precedes (first second : List Nat) : Prop := List.Lex (· < ·) first second

theorem Precedes.trans {first second third : List Nat} (before : Precedes first second)
    (behind : Precedes second third) : Precedes first third :=
  List.lex_trans Nat.lt_trans before behind

theorem Precedes.asymm {first second : List Nat} (precedes : Precedes first second) :
    ¬Precedes second first :=
  List.lex_asymm Nat.lt_asymm precedes

/-- What a path passes through comes before what is at its end. -/
theorem eq_or_precedes_of_prefix {above path : List Nat} (passed : above <+: path) :
    above = path ∨ Precedes above path := by
  obtain ⟨rest, rfl⟩ := passed
  induction above with
  | nil =>
      cases rest with
      | nil => exact .inl rfl
      | cons => exact .inr .nil
  | cons position above inductionHypothesis =>
      exact inductionHypothesis.imp (congrArg (position :: ·)) .cons

/-! ## Children -/

theorem drop_numbered (number : Nat) (trees : List (Tree T N)) (skipped : Nat) :
    (numbered number trees).drop skipped =
      numbered (number + Tree.forestSize (trees.take skipped)) (trees.drop skipped) := by
  induction trees generalizing number skipped with
  | nil => rw [List.drop_nil, numbered, numbered, List.drop_nil]
  | cons tree rest inductionHypothesis =>
      cases skipped with
      | zero => rfl
      | succ skipped =>
          rw [numbered, List.drop_succ_cons, inductionHypothesis, List.drop_succ_cons,
            List.take_succ_cons, Tree.forestSize, Nat.add_assoc]

theorem map_tree_numbered (number : Nat) (trees : List (Tree T N)) :
    (numbered number trees).map tree = trees := by
  induction trees generalizing number with
  | nil => rfl
  | cons tree rest inductionHypothesis =>
      rw [numbered, List.map_cons, inductionHypothesis]

theorem childNumber_eq (occurrence : Occurrence T N) (skipped : Nat) :
    occurrence.childNumber skipped =
      occurrence.number + 1 + Tree.forestSize (occurrence.tree.children.take skipped) := by
  rw [childNumber, Tree.countNodes_eq, Nat.zero_add]

theorem childNumber_succ {position : Nat} {tree : Tree T N}
    (found : occurrence.tree.children[position]? = some tree) :
    occurrence.childNumber (position + 1) = occurrence.childNumber position + tree.size := by
  rw [childNumber_eq, childNumber_eq, Tree.forestSize_take_succ found]
  exact (Nat.add_assoc _ _ _).symm

/-- The children that are left when some from the front are skipped. -/
theorem drop_below (occurrence : Occurrence T N) (skipped : Nat) :
    occurrence.below.drop skipped =
      numbered (occurrence.childNumber skipped) (occurrence.tree.children.drop skipped) := by
  rw [below, drop_numbered, childNumber_eq]

theorem child?_eq_some_iff {position : Nat} :
    occurrence.child? position = some child ↔
      occurrence.tree.children[position]? = some child.tree ∧
        child.number = occurrence.childNumber position := by
  rw [child?, Option.map_eq_some_iff]
  constructor
  · intro found
    rcases found with ⟨tree, found, rfl⟩
    exact ⟨found, rfl⟩
  · intro found
    rcases found with ⟨found, number⟩
    exact ⟨child.tree, found, by rw [← number]⟩

/-! ## Paths -/

theorem descend?_nil (occurrence : Occurrence T N) : occurrence.descend? [] = some occurrence := rfl

theorem descend?_cons (occurrence : Occurrence T N) (position : Nat) (path : List Nat) :
    occurrence.descend? (position :: path) =
      (occurrence.child? position).bind fun child => child.descend? path := by
  rw [descend?, List.foldlM_cons]
  rfl

theorem descend?_concat (occurrence : Occurrence T N) (path : List Nat) (position : Nat) :
    occurrence.descend? (path ++ [position]) =
      (occurrence.descend? path).bind fun node => node.child? position := by
  rw [descend?, List.foldlM_append]
  simp only [List.foldlM_cons, List.foldlM_nil, bind_pure]
  rfl

/-- The numbers of what is under a node are among those that the node and its subtree take up. -/
theorem number_le_of_descend? {path : List Nat} (found : occurrence.descend? path = some node) :
    occurrence.number ≤ node.number ∧
      node.number + node.tree.size ≤ occurrence.number + occurrence.tree.size := by
  induction path generalizing occurrence with
  | nil =>
      cases found
      exact ⟨Nat.le_refl _, Nat.le_refl _⟩
  | cons position path inductionHypothesis =>
      rw [descend?_cons, Option.bind_eq_some_iff] at found
      obtain ⟨child, isChild, found⟩ := found
      obtain ⟨isTree, number⟩ := child?_eq_some_iff.mp isChild
      obtain ⟨least, greatest⟩ := inductionHypothesis found
      have inside := Tree.forestSize_take_le occurrence.tree.children
        (List.getElem?_eq_some_iff.mp isTree).1
      rw [Nat.succ_eq_add_one, Tree.forestSize_take_succ isTree, List.take_length] at inside
      rw [childNumber_eq] at number
      rw [occurrence.tree.size_eq_forestSize_children]
      omega

theorem number_lt_of_precedes {first second : List Nat} (precedes : Precedes first second)
    (found : occurrence.descend? first = some node)
    (foundOther : occurrence.descend? second = some other) : node.number < other.number := by
  induction precedes generalizing occurrence with
  | @nil position path =>
      cases found
      rw [descend?_cons, Option.bind_eq_some_iff] at foundOther
      obtain ⟨child, isChild, foundOther⟩ := foundOther
      have number := (child?_eq_some_iff.mp isChild).2
      have least := (number_le_of_descend? foundOther).1
      rw [childNumber_eq] at number
      omega
  | @rel left _ right _ isLeft =>
      rw [descend?_cons, Option.bind_eq_some_iff] at found foundOther
      obtain ⟨child, isChild, found⟩ := found
      obtain ⟨otherChild, isOtherChild, foundOther⟩ := foundOther
      obtain ⟨isTree, number⟩ := child?_eq_some_iff.mp isChild
      have otherNumber := (child?_eq_some_iff.mp isOtherChild).2
      have greatest := (number_le_of_descend? found).2
      have least := (number_le_of_descend? foundOther).1
      have before := Tree.forestSize_take_le occurrence.tree.children (Nat.succ_le_of_lt isLeft)
      rw [Nat.succ_eq_add_one, Tree.forestSize_take_succ isTree] at before
      have positive := node.tree.size_pos
      rw [childNumber_eq] at number otherNumber
      omega
  | cons _ inductionHypothesis =>
      rw [descend?_cons, Option.bind_eq_some_iff] at found foundOther
      obtain ⟨child, isChild, found⟩ := found
      obtain ⟨otherChild, isOtherChild, foundOther⟩ := foundOther
      rw [isChild] at isOtherChild
      cases isOtherChild
      exact inductionHypothesis found foundOther

end Occurrence

namespace Tree

variable {T N : Type}

/-- The tree that a path leads to. -/
def subtree? (tree : Tree T N) (path : List Nat) : Option (Tree T N) :=
  ((Occurrence.ofRoot tree).descend? path).map Occurrence.tree

theorem subtree?_concat (tree : Tree T N) (path : List Nat) (position : Nat) :
    tree.subtree? (path ++ [position]) =
      (tree.subtree? path).bind fun subtree => subtree.children[position]? := by
  rw [subtree?, subtree?, Occurrence.descend?_concat]
  cases (Occurrence.ofRoot tree).descend? path with
  | none => rfl
  | some node =>
      rw [Option.bind_some, Option.map_some, Option.bind_some, Occurrence.child?, Option.map_map]
      exact Option.map_id_apply

end Tree

end ShiftReduce
