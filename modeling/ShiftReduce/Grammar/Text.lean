import ShiftReduce.Grammar.Basic

/-!
Contract: the two ways in which a grammar is written out.

Owns: the list of its rules, one a line, and the nested record of its fields, which also shows the
kind of each symbol and which rule accepts.
-/

namespace ShiftReduce

namespace Grammar

variable {T N : Type}

/-- Each rule on a line of its own, after its number. -/
def text (grammar : Grammar T N) : String :=
  String.join (grammar.ruleIds.map fun id =>
    s!"{id.text}: {(grammar.rule id).text grammar.vocabulary}\n")

private def symbolRecord (vocabulary : Vocabulary T N) : Symbol T N → String
  | .terminal terminal => s!"Terminal({vocabulary.terminals.name terminal})"
  | .nonterminal nonterminal => s!"Nonterminal({vocabulary.nonterminals.name nonterminal})"

private def idRecord (id : RuleId) : String := s!"RuleID({id})"

private def ruleRecord (grammar : Grammar T N) (id : RuleId) : String :=
  let rule := grammar.rule id
  let rhs := ", ".intercalate (rule.rhs.map (symbolRecord grammar.vocabulary))
  "Rule \x7b id: " ++ idRecord id ++
    ", lhs: " ++ grammar.vocabulary.nonterminals.name rule.lhs ++
    ", rhs: [" ++ rhs ++
    "], accepting: " ++ toString (id == grammar.accepting) ++ " \x7d"

/-- The start symbol, the number of the accepting rule and all rules, as one nested record. -/
def record (grammar : Grammar T N) : String :=
  "Grammar \x7b start: " ++ grammar.vocabulary.nonterminals.name grammar.start ++
    ", accepting: " ++ idRecord grammar.accepting ++
    ", rules: [" ++ ", ".intercalate (grammar.ruleIds.map grammar.ruleRecord) ++ "], .. \x7d"

end Grammar

end ShiftReduce
