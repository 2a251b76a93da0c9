import ShiftReduce.Grammar.Basic
import ShiftReduce.Tree.Basic

/-!
Contract: which trees show that a grammar derives something.

Owns: `IsDerivation`, by which every node applies a rule; `IsSentence`, by which moreover the root
applies the accepting rule; and `whole`, which puts the root back that a parser leaves out.
-/

namespace ShiftReduce

namespace Grammar

variable {T N : Type}

/-- Every node applies a rule: the symbols right under it spell the right side of a rule for it. -/
inductive IsDerivation (grammar : Grammar T N) : Tree T N → Prop where
  | leaf (token : Token T) : IsDerivation grammar (.leaf token)
  | node {rule : Rule T N} {children : List (Tree T N)} (member : rule ∈ grammar.rules)
      (spelled : children.map Tree.symbol = rule.rhs)
      (derivations : ∀ child ∈ children, IsDerivation grammar child) :
      IsDerivation grammar (.node rule.lhs children)

/-- A derivation whose root applies the accepting rule. -/
structure IsSentence (grammar : Grammar T N) (tree : Tree T N) : Prop where
  derivation : grammar.IsDerivation tree
  root : tree.symbol = .nonterminal grammar.start
  spelled : tree.children.map Tree.symbol = grammar.acceptingRule.rhs

/-- The tree under a root of the start symbol where the accepting rule has a single symbol, whose
node a parser hands out alone; the tree itself otherwise. -/
def whole (grammar : Grammar T N) (tree : Tree T N) : Tree T N :=
  if grammar.acceptingRule.rhs.length = 1 then .node grammar.start [tree] else tree

theorem isDerivation_child {grammar : Grammar T N} {tree child : Tree T N}
    (derivation : grammar.IsDerivation tree) (under : child ∈ tree.children) :
    grammar.IsDerivation child := by
  cases derivation with
  | leaf => cases under
  | node _ _ derivations => exact derivations child under

theorem isSentence_node {grammar : Grammar T N} {children : List (Tree T N)}
    (spelled : children.map Tree.symbol = grammar.acceptingRule.rhs)
    (derivations : ∀ child ∈ children, grammar.IsDerivation child) :
    grammar.IsSentence (.node grammar.start children) where
  derivation := by
    rw [← grammar.acceptingRule_lhs]
    exact .node (rule_mem grammar.accepting_lt) spelled derivations
  root := rfl
  spelled := spelled

end Grammar

end ShiftReduce
