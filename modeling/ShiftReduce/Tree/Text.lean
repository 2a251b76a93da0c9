import ShiftReduce.Tree.Basic

/-!
Contract: syntax trees as text.

Owns: the short form, which shows the root and the symbols right under it, and the printed form,
which shows the leaf tokens.
-/

namespace ShiftReduce

namespace Tree

variable {T N : Type}

/-- The root's symbol, and behind an arrow the symbols of its children if it has any. -/
def text (tree : Tree T N) (vocabulary : Vocabulary T N) : String :=
  let names := tree.children.map fun child => vocabulary.name child.symbol
  " ".intercalate (vocabulary.name tree.symbol :: if tree.isLeaf then [] else "=>" :: names)

/-- The texts of the leaf tokens with single blanks between them. -/
def printed (tree : Tree T N) (vocabulary : Vocabulary T N) : String :=
  " ".intercalate (tree.tokens.map fun token => token.text vocabulary)

end Tree

end ShiftReduce
