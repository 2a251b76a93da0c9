import ShiftReduce.Proofs.Traversal
import ShiftReduce.Proofs.Tree.Leaves
import ShiftReduce.Proofs.Tree.Places
import ShiftReduce.Tree.Text

/-!
Contract: the tokens of a tree and its printed form, by recursion.

Owns: `leaves`, the tokens of a tree by recursion over it; the traversal that hands out one token
after the other; the loop that writes tokens with blanks between them; and the theorem that all ways
to read a tree from left to right agree, where nodes without any token leave no trace.
-/

namespace ShiftReduce

namespace Tree

variable {T N : Type}

mutual

/-- The token of a leaf, or what is under a node from left to right. -/
def leaves : Tree T N → List (Token T)
  | .leaf token => [token]
  | .node _ children => forestLeaves children

/-- The tokens of some trees, side by side. -/
def forestLeaves : List (Tree T N) → List (Token T)
  | [] => []
  | tree :: trees => leaves tree ++ forestLeaves trees

end

/-- Hands out the token of a leaf, and goes on to the children of a node. -/
def flattening : Traversal (Tree T N) (Token T) where
  pick? := token?
  push tree := tree.children.reverse
  weight := size
  lighter tree _ := by
    rw [List.map_reverse, List.sum_reverse]
    exact tree.sum_size_children_lt

/-- Writes tokens behind a text, each but the one with number zero behind a blank. -/
def writeTokens (vocabulary : Vocabulary T N) : Nat → List (Token T) → String → String
  | _, [], text => text
  | number, token :: rest, text =>
      let separated := if 0 < number then text ++ " " else text
      writeTokens vocabulary (number + 1) rest (separated ++ token.text vocabulary)

/-! ## Tokens -/

theorem forestLeaves_eq_flatMap (trees : List (Tree T N)) :
    forestLeaves trees = trees.flatMap leaves := by
  induction trees with
  | nil => rfl
  | cons tree rest inductionHypothesis =>
      rw [forestLeaves, inductionHypothesis, List.flatMap_cons]

theorem leaves_node (lhs : N) (children : List (Tree T N)) :
    (node lhs children).leaves = children.flatMap leaves := by
  rw [leaves, forestLeaves_eq_flatMap]

mutual

theorem tokens_eq_leaves : ∀ tree : Tree T N, tree.tokens = tree.leaves
  | .leaf token => tokens_leaf token
  | .node lhs children => by rw [tokens_node, flatMap_tokens_eq children, leaves]

private theorem flatMap_tokens_eq :
    ∀ trees : List (Tree T N), trees.flatMap tokens = forestLeaves trees
  | [] => rfl
  | tree :: rest => by
      rw [List.flatMap_cons, tokens_eq_leaves tree, flatMap_tokens_eq rest, forestLeaves]

end

theorem flattening_drains_iff {trees : List (Tree T N)} {found : List (Token T)} :
    flattening.Drains trees found ↔ found = trees.flatMap leaves := by
  apply Traversal.drains_iff
  · intro tree token isToken
    cases tree with
    | leaf own =>
        cases isToken
        rfl
    | node => cases isToken
  · intro tree noToken
    cases tree with
    | leaf => cases noToken
    | node lhs children =>
        rw [leaves_node]
        exact congrArg (List.flatMap leaves) (List.reverse_reverse children).symm

/-! ## Printed form -/

private theorem writeTokens_of_pos {vocabulary : Vocabulary T N} {number : Nat}
    (positive : 0 < number) (tokens : List (Token T)) (text : String) :
    writeTokens vocabulary number tokens text =
      " ".intercalate (text :: tokens.map fun token => token.text vocabulary) := by
  induction tokens generalizing number text with
  | nil => exact String.intercalate_singleton.symm
  | cons token rest inductionHypothesis =>
      rw [writeTokens, if_pos positive, inductionHypothesis (Nat.succ_pos number),
        String.intercalate_cons_append, List.map_cons, String.intercalate_cons_cons]

/-- What is written is the texts with blanks between them. -/
theorem writeTokens_eq_intercalate (vocabulary : Vocabulary T N) (tokens : List (Token T)) :
    writeTokens vocabulary 0 tokens "" =
      " ".intercalate (tokens.map fun token => token.text vocabulary) := by
  cases tokens with
  | nil => exact String.intercalate_nil.symm
  | cons token rest =>
      rw [writeTokens, if_neg (Nat.lt_irrefl 0), writeTokens_of_pos (Nat.succ_pos 0),
        String.empty_append, List.map_cons]

/-- Empty parts leave no trace when texts are joined part by part. -/
private theorem intercalate_flatten (separator : String) (parts : List (List String)) :
    separator.intercalate parts.flatten =
      separator.intercalate
        ((parts.filter fun part => !part.isEmpty).map separator.intercalate) := by
  induction parts with
  | nil => rfl
  | cons part rest inductionHypothesis =>
      rw [List.flatten_cons]
      by_cases empty : part = []
      · subst empty
        rw [List.nil_append, inductionHypothesis]
        rfl
      · have kept : ((part :: rest).filter fun part => !part.isEmpty) =
            part :: rest.filter fun part => !part.isEmpty := by
          simp [empty]
        rw [kept, List.map_cons]
        by_cases last : rest.flatten = []
        · have noneKept : (rest.filter fun part => !part.isEmpty) = [] := by
            rw [List.filter_eq_nil_iff]
            intro other member
            simp [List.flatten_eq_nil_iff.mp last other member]
          rw [last, noneKept, List.append_nil, List.map_nil, String.intercalate_singleton]
        · have someKept : ((rest.filter fun part => !part.isEmpty).map
              separator.intercalate) ≠ [] := by
            intro noneKept
            apply last
            rw [List.flatten_eq_nil_iff]
            intro other member
            have dropped := List.filter_eq_nil_iff.mp (List.map_eq_nil_iff.mp noneKept)
            simpa using dropped other member
          rw [String.intercalate_append_of_ne_nil empty last,
            String.intercalate_cons_of_ne_nil someKept, inductionHypothesis]

theorem printed_eq_intercalate (tree : Tree T N) (vocabulary : Vocabulary T N) :
    tree.printed vocabulary =
      " ".intercalate (tree.leaves.map fun token => token.text vocabulary) := by
  rw [printed, tokens_eq_leaves]

/-- A node prints as its children print that have tokens. -/
theorem printed_node (lhs : N) (children : List (Tree T N)) (vocabulary : Vocabulary T N) :
    (node lhs children).printed vocabulary =
      " ".intercalate ((children.filter fun child => !child.leaves.isEmpty).map fun child =>
        child.printed vocabulary) := by
  have parts : (children.flatMap leaves).map (fun token => token.text vocabulary) =
      (children.map fun child => child.leaves.map fun token => token.text vocabulary).flatten := by
    rw [List.map_flatMap, List.flatMap_def]
  rw [printed_eq_intercalate, leaves_node, parts, intercalate_flatten, List.filter_map,
    List.map_map]
  simp only [Function.comp_def, List.isEmpty_map, printed_eq_intercalate]

/-! ## Reading -/

/-- However a tree is read from left to right, its leaves are read, each in its turn. -/
structure ReadsAlong (tree : Tree T N) : Prop where
  drains_iff : ∀ found, flattening.Drains [tree] found ↔ found = tree.leaves
  tokens_eq : tree.tokens = tree.leaves
  /-- One token after the other is written, and the texts have single blanks between them. -/
  writes : ∀ vocabulary : Vocabulary T N,
    tree.printed vocabulary = writeTokens vocabulary 0 tree.leaves "" ∧
      tree.printed vocabulary =
        " ".intercalate (tree.leaves.map fun token => token.text vocabulary)
  /-- No blank is written for a child that has no token. -/
  skips : ∀ (vocabulary : Vocabulary T N) (lhs : N) (children : List (Tree T N)),
    tree = .node lhs children → tree.printed vocabulary =
      " ".intercalate ((children.filter fun child => !child.leaves.isEmpty).map fun child =>
        child.printed vocabulary)

theorem readsAlong (tree : Tree T N) : tree.ReadsAlong where
  drains_iff found := by
    rw [flattening_drains_iff, List.flatMap_singleton]
  tokens_eq := tokens_eq_leaves tree
  writes vocabulary := by
    rw [printed_eq_intercalate, writeTokens_eq_intercalate]
    exact ⟨rfl, rfl⟩
  skips vocabulary lhs children isNode := by
    rw [isNode]
    exact printed_node lhs children vocabulary

end Tree

end ShiftReduce
