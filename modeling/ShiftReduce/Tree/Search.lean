import ShiftReduce.Tree.Basic

/-!
Contract: finding nodes by their symbols.

Owns: `Occurrence`, a subtree with its place in the whole tree, and the search for the outermost
nodes that carry one of some symbols.

Places are numbered in pre-order: the root is 0 and a node comes before what is under it. A search
does not look under a node that it has found. If the root is not itself found, a number of its
children can be left out.
-/

namespace ShiftReduce

/-- A subtree with the pre-order number of its root. -/
structure Occurrence (T N : Type) where
  number : Nat
  tree : Tree T N

namespace Occurrence

variable {T N : Type}

def ofRoot (tree : Tree T N) : Occurrence T N := { number := 0, tree }

/-- The number that the root of a child has, given how many children are before it. -/
def childNumber (occurrence : Occurrence T N) (skipped : Nat) : Nat :=
  occurrence.number + 1 + Tree.countNodes (occurrence.tree.children.take skipped) 0

/-- The child with a number, counted from zero. -/
def child? (occurrence : Occurrence T N) (position : Nat) : Option (Occurrence T N) :=
  (occurrence.tree.children[position]?).map fun tree =>
    { number := occurrence.childNumber position, tree }

/-- The node that a list of child numbers leads to. -/
def descend? (occurrence : Occurrence T N) (path : List Nat) : Option (Occurrence T N) :=
  path.foldlM child? occurrence

variable [DecidableEq T] [DecidableEq N]

/-- Adds the outermost matches in the trees to those found so far. The first tree's root has the
given number, and the others follow on. -/
def gatherMatches (symbols : List (Symbol T N)) :
    Nat → List (Tree T N) → Array (Occurrence T N) → Array (Occurrence T N)
  | _, [], found => found
  | number, tree :: rest, found =>
      if tree.symbol ∈ symbols then
        gatherMatches symbols (Tree.countNodes [tree] number) rest (found.push { number, tree })
      else
        gatherMatches symbols (number + 1) (tree.children ++ rest) found
termination_by _ forest => Tree.forestSize forest
decreasing_by
  · rw [Tree.forestSize, Tree.size_eq_forestSize_children]
    omega
  · exact Tree.forestSize_children_lt tree rest

/-- The outermost nodes that carry one of the symbols, in pre-order. Unless the root is one, the
first `start` children are left out. -/
def searchAll (occurrence : Occurrence T N) (symbols : List (Symbol T N)) (start : Nat) :
    List (Occurrence T N) :=
  if occurrence.tree.symbol ∈ symbols then [occurrence]
  else
    (gatherMatches symbols (occurrence.childNumber start) (occurrence.tree.children.drop start)
      #[]).toList

/-- The first of the nodes that `searchAll` finds. -/
def search? (occurrence : Occurrence T N) (symbols : List (Symbol T N)) (start : Nat) :
    Option (Occurrence T N) :=
  (occurrence.searchAll symbols start).head?

end Occurrence

end ShiftReduce
