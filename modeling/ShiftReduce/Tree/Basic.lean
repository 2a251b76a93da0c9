import ShiftReduce.Token

/-!
Contract: syntax trees.

Owns: `Tree`, which has a token in each leaf and in each other node the left side of a reduced rule;
what can be read off a root; the leaf tokens, nodes and depths of a whole tree; and equality.

A tree can be as deep as the input is long, so what visits all nodes is a loop over the subtrees
that are still to be visited. `size` is the measure by which these loops end.
-/

namespace ShiftReduce

/-- A token, or a nonterminal above one tree for each symbol of the rule that was reduced. -/
inductive Tree (T N : Type) where
  | leaf (token : Token T)
  | node (lhs : N) (children : List (Tree T N))
deriving Repr

namespace Tree

variable {T N : Type}

def symbol : Tree T N → Symbol T N
  | .leaf token => .terminal token.terminal
  | .node lhs _ => .nonterminal lhs

/-- The token of a leaf. -/
def token? : Tree T N → Option (Token T)
  | .leaf token => some token
  | .node _ _ => none

/-- The trees right under the root, from left to right. -/
def children : Tree T N → List (Tree T N)
  | .leaf _ => []
  | .node _ children => children

/-- Whether nothing is under the root, be it a token or the left side of an empty rule. -/
def isLeaf (tree : Tree T N) : Bool := tree.children.isEmpty

/-! ## Number of nodes -/

mutual

/-- The number of nodes of a tree. -/
def size : Tree T N → Nat
  | .leaf _ => 1
  | .node _ children => forestSize children + 1

/-- The number of nodes of some trees. -/
def forestSize : List (Tree T N) → Nat
  | [] => 0
  | tree :: trees => size tree + forestSize trees

end

theorem forestSize_append (left right : List (Tree T N)) :
    forestSize (left ++ right) = forestSize left + forestSize right := by
  induction left with
  | nil => simp [forestSize]
  | cons head tail inductionHypothesis =>
      rw [List.cons_append, forestSize, inductionHypothesis, forestSize, Nat.add_assoc]

theorem size_eq_forestSize_children (tree : Tree T N) :
    tree.size = forestSize tree.children + 1 := by
  cases tree <;> simp [size, children, forestSize]

theorem forestSize_children_lt (tree : Tree T N) (rest : List (Tree T N)) :
    forestSize (tree.children ++ rest) < forestSize (tree :: rest) := by
  rw [forestSize_append, forestSize, size_eq_forestSize_children]
  omega

/-- Counts the nodes of the trees on top of a count. -/
def countNodes : List (Tree T N) → Nat → Nat
  | [], count => count
  | tree :: rest, count => countNodes (tree.children ++ rest) (count + 1)
termination_by forest => forestSize forest
decreasing_by exact forestSize_children_lt tree rest

theorem countNodes_eq (forest : List (Tree T N)) (count : Nat) :
    countNodes forest count = count + forestSize forest := by
  fun_induction countNodes forest count with
  | case1 count => simp [forestSize]
  | case2 tree rest count inductionHypothesis =>
      rw [inductionHypothesis, forestSize_append, forestSize, size_eq_forestSize_children]
      omega

/-! ## Leaf tokens -/

/-- Adds the leaf tokens of the trees to those gathered so far. -/
def gatherTokens : List (Tree T N) → Array (Token T) → Array (Token T)
  | [], tokens => tokens
  | .leaf token :: rest, tokens => gatherTokens rest (tokens.push token)
  | .node _ children :: rest, tokens => gatherTokens (children ++ rest) tokens
termination_by forest => forestSize forest
decreasing_by
  · simp [forestSize, size]
  · exact forestSize_children_lt (.node _ children) rest

/-- The leaf tokens from left to right. -/
def tokens (tree : Tree T N) : List (Token T) :=
  (gatherTokens [tree] #[]).toList

/-! ## Nodes with their depths -/

/-- Adds the nodes of the trees, each tree at a depth of its own, to those listed so far. -/
def gatherNodes : List (Nat × Tree T N) → Array (Nat × Tree T N) → Array (Nat × Tree T N)
  | [], nodes => nodes
  | (depth, tree) :: rest, nodes =>
      gatherNodes (tree.children.map (depth + 1, ·) ++ rest) (nodes.push (depth, tree))
termination_by forest => forestSize (forest.map Prod.snd)
decreasing_by
  have under : (tree.children.map (depth + 1, ·)).map Prod.snd = tree.children := by
    rw [List.map_map]
    exact List.map_id _
  rw [List.map_append, under]
  exact forestSize_children_lt tree _

/-- Every node with its depth, each before those under it and the root, at depth 0, first. -/
def outline (tree : Tree T N) : List (Nat × Tree T N) :=
  (gatherNodes [(0, tree)] #[]).toList

/-! ## Equality -/

/-- Whether the trees of each pair are equal. -/
def allEqual [DecidableEq T] [DecidableEq N] : List (Tree T N × Tree T N) → Bool
  | [] => true
  | (.leaf left, .leaf right) :: rest => if left = right then allEqual rest else false
  | (.node leftLhs leftChildren, .node rightLhs rightChildren) :: rest =>
      if _same : leftLhs = rightLhs ∧ leftChildren.length = rightChildren.length then
        allEqual (leftChildren.zip rightChildren ++ rest)
      else false
  | _ :: _ => false
termination_by pairs => forestSize (pairs.map Prod.fst)
decreasing_by
  · simp [forestSize, size]
  · rw [List.map_append, List.map_fst_zip (Nat.le_of_eq _same.2)]
    exact forestSize_children_lt (.node _ leftChildren) _

instance [DecidableEq T] [DecidableEq N] : BEq (Tree T N) where
  beq left right := allEqual [(left, right)]

end Tree

end ShiftReduce
