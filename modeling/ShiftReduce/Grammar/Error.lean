import ShiftReduce.Grammar.Basic

/-!
Contract: why a draft is no grammar.

Owns: one constructor for each cause, with the names and numbers that its message mentions.
-/

namespace ShiftReduce

/-- A reason for which a draft cannot become a grammar. Symbols are given by name. -/
inductive GrammarError where
  /-- The cell of the symbol, in a list of `length` cells, does not lead back to it. -/
  | inconsistentIndex (symbol : String) (index length : Nat)
  /-- The start symbol has no rules. -/
  | missingStartRule (start : String)
  /-- The rule uses a nonterminal that was never declared. -/
  | undefinedNonterminal (rule : RuleId) (nonterminal : String)
  /-- The rule uses the end marker. -/
  | endInRule (rule : RuleId)
  /-- The rule uses the start symbol. -/
  | recursiveStart (rule : RuleId) (start : String)
  /-- The rule was declared accepting and is no rule of the start symbol. -/
  | acceptingOutsideStart (rule : RuleId) (start : String)
  /-- So many rules were declared accepting, and that does not single one out. -/
  | ambiguousStart (start : String) (found : Nat)
deriving DecidableEq, Repr

def GrammarError.message : GrammarError → String
  | .inconsistentIndex symbol index length =>
      s!"symbol {symbol} has index {index}, which does not map back to it in ALL (len {length})"
  | .missingStartRule start => s!"start symbol {start} has no rules"
  | .undefinedNonterminal rule nonterminal =>
      s!"rule {rule.text} refers to {nonterminal}, which has no production"
  | .endInRule rule => s!"rule {rule.text} contains the end-of-input terminal"
  | .recursiveStart rule start => s!"rule {rule.text} refers to the start symbol {start}"
  | .acceptingOutsideStart rule start =>
      s!"accepting rule {rule.text} does not belong to start symbol {start}"
  | .ambiguousStart start found =>
      s!"start symbol {start} needs exactly one accepting rule, found {found}"

end ShiftReduce
