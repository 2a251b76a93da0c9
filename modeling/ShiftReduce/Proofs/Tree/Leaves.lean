import ShiftReduce.Proofs.Derivation
import ShiftReduce.Tree.Derivation

/-!
Contract: the leaf tokens and the interior nodes of a tree, node by node.

Owns: what the loop that gathers leaf tokens says of a leaf and of a node; `interior`, the number of
nodes that are no leaf tokens; the fact that a derivation tree shows what its leaves spell; and the
converse, by which tokens that spell something derived are the leaves of derivation trees.
-/

namespace ShiftReduce

namespace Tree

variable {T N : Type}

/-! ## Leaf tokens -/

private theorem gatherTokens_append (left right : List (Tree T N)) (tokens : Array (Token T)) :
    gatherTokens (left ++ right) tokens = gatherTokens right (gatherTokens left tokens) := by
  fun_induction gatherTokens left tokens with
  | case1 tokens => rfl
  | case2 tokens token rest inductionHypothesis =>
      rw [List.cons_append, gatherTokens, inductionHypothesis]
  | case3 tokens lhs children rest inductionHypothesis =>
      rw [List.cons_append, gatherTokens, ← List.append_assoc, inductionHypothesis]

private theorem gatherTokens_behind (before : Array (Token T)) (forest : List (Tree T N))
    (tokens : Array (Token T)) :
    gatherTokens forest (before ++ tokens) = before ++ gatherTokens forest tokens := by
  fun_induction gatherTokens forest tokens with
  | case1 tokens => rw [gatherTokens]
  | case2 tokens token rest inductionHypothesis =>
      rw [gatherTokens, ← Array.append_push, inductionHypothesis]
  | case3 tokens lhs children rest inductionHypothesis => rw [gatherTokens, inductionHypothesis]

theorem tokens_leaf (token : Token T) : (leaf token : Tree T N).tokens = [token] := by
  simp [tokens, gatherTokens]

private theorem toList_gatherTokens_nil (forest : List (Tree T N)) :
    (gatherTokens forest #[]).toList = forest.flatMap tokens := by
  induction forest with
  | nil => simp [gatherTokens]
  | cons tree rest inductionHypothesis =>
      have behind := gatherTokens_behind (gatherTokens [tree] #[]) rest #[]
      rw [Array.append_empty] at behind
      rw [← List.singleton_append, gatherTokens_append, behind, Array.toList_append,
        inductionHypothesis]
      rfl

theorem tokens_node (lhs : N) (children : List (Tree T N)) :
    (node lhs children).tokens = children.flatMap tokens := by
  rw [tokens, gatherTokens, List.append_nil, toList_gatherTokens_nil]

/-! ## Interior nodes -/

mutual

/-- The number of nodes of a tree that are no leaf tokens. -/
def interior : Tree T N → Nat
  | .leaf _ => 0
  | .node _ children => forestInterior children + 1

/-- The number of nodes of some trees that are no leaf tokens. -/
def forestInterior : List (Tree T N) → Nat
  | [] => 0
  | tree :: trees => interior tree + forestInterior trees

end

theorem forestInterior_append (left right : List (Tree T N)) :
    forestInterior (left ++ right) = forestInterior left + forestInterior right := by
  induction left with
  | nil => simp [forestInterior]
  | cons head tail inductionHypothesis =>
      rw [List.cons_append, forestInterior, inductionHypothesis, forestInterior, Nat.add_assoc]

end Tree

namespace Grammar

variable {T N : Type} {grammar : Grammar T N}

/-! ## What leaves spell -/

/-- The terminals of some tokens, as symbols. -/
def spelling (tokens : List (Token T)) : List (Symbol T N) :=
  tokens.map fun token => .terminal token.terminal

theorem spelling_append (left right : List (Token T)) :
    (spelling (left ++ right) : List (Symbol T N)) = spelling left ++ spelling right :=
  List.map_append

/-- What trees spell side by side, if each shows what its symbol derives. -/
theorem derives_spelling {trees : List (Tree T N)}
    (each : ∀ tree ∈ trees, grammar.Derives [tree.symbol] (spelling tree.tokens)) :
    grammar.Derives (trees.map Tree.symbol) (spelling (trees.flatMap Tree.tokens)) := by
  induction trees with
  | nil => exact .refl _
  | cons tree rest inductionHypothesis =>
      obtain ⟨treeDerives, restDerives⟩ := List.forall_mem_cons.mp each
      rw [List.map_cons, List.flatMap_cons, spelling_append]
      exact treeDerives.append (inductionHypothesis restDerives)

/-- The symbol of a derivation tree derives what the leaves spell. -/
theorem IsDerivation.derives {tree : Tree T N} (derivation : grammar.IsDerivation tree) :
    grammar.Derives [tree.symbol] (spelling tree.tokens) := by
  induction derivation with
  | leaf token =>
      rw [Tree.tokens_leaf]
      exact .refl _
  | node member spelled _ inductionHypothesis =>
      rw [Tree.tokens_node]
      apply (derives_rhs member).trans
      rw [← spelled]
      exact derives_spelling inductionHypothesis

/-- Trees for the form after an expansion become trees for the form before it, with a node above
those for the right side. -/
private theorem exists_trees_of_expands {first second : List (Symbol T N)}
    (expands : grammar.Expands first second) {trees : List (Tree T N)}
    (spelled : trees.map Tree.symbol = second)
    (derivations : ∀ tree ∈ trees, grammar.IsDerivation tree) :
    ∃ folded : List (Tree T N), folded.map Tree.symbol = first ∧
      (∀ tree ∈ folded, grammar.IsDerivation tree) ∧
      folded.flatMap Tree.tokens = trees.flatMap Tree.tokens := by
  cases expands with
  | @intro rule isRule before behind =>
      obtain ⟨front, right, rfl, frontSpelled, rightSpelled⟩ := List.map_eq_append_iff.mp spelled
      obtain ⟨left, children, rfl, leftSpelled, childrenSpelled⟩ :=
        List.map_eq_append_iff.mp frontSpelled
      simp only [List.forall_mem_append] at derivations
      obtain ⟨⟨leftDerivations, childDerivations⟩, rightDerivations⟩ := derivations
      refine ⟨left ++ .node rule.lhs children :: right, ?_, ?_, ?_⟩
      · rw [List.map_append, List.map_cons, leftSpelled, rightSpelled]
        rfl
      · have folded : grammar.IsDerivation (.node rule.lhs children) :=
          .node isRule childrenSpelled childDerivations
        rw [List.forall_mem_append, List.forall_mem_cons]
        exact ⟨leftDerivations, folded, rightDerivations⟩
      · rw [List.flatMap_append, List.flatMap_cons, Tree.tokens_node, List.flatMap_append,
          List.flatMap_append, List.append_assoc]

/-- Tokens that spell what symbols derive are the leaves of derivation trees for the symbols. The
induction is on the derivation, from its end. -/
theorem exists_trees_of_derives {symbols : List (Symbol T N)} {tokens : List (Token T)}
    (derives : grammar.Derives symbols (spelling tokens)) :
    ∃ trees : List (Tree T N), trees.map Tree.symbol = symbols ∧
      (∀ tree ∈ trees, grammar.IsDerivation tree) ∧ trees.flatMap Tree.tokens = tokens := by
  generalize whole : spelling tokens = form at derives
  induction derives with
  | refl =>
      refine ⟨tokens.map .leaf, ?_, ?_, ?_⟩
      · rw [← whole, spelling, List.map_map]
        rfl
      · intro tree member
        obtain ⟨token, _, rfl⟩ := List.mem_map.mp member
        exact .leaf token
      · rw [List.flatMap_map]
        simp only [Tree.tokens_leaf, List.flatMap_singleton']
  | head expands _ inductionHypothesis =>
      obtain ⟨trees, spelled, derivations, leaves⟩ := inductionHypothesis whole
      obtain ⟨folded, foldedSpelled, foldedDerivations, sameLeaves⟩ :=
        exists_trees_of_expands expands spelled derivations
      exact ⟨folded, foldedSpelled, foldedDerivations, sameLeaves.trans leaves⟩

end Grammar

end ShiftReduce
