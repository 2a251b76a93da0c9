import ShiftReduce.Symbol

/-!
Contract: context-free grammars that tables can be built for.

Owns: rules and their numbers, and `Grammar`, whose fields carry the facts that every construction
relies on: symbols have cells of their own, the end marker and the start symbol stand on no right
side, and exactly one rule, a rule of the start symbol, is the accepting one.

Does not own: how a grammar comes about by declarations (`ShiftReduce.Grammar.Draft`), and the check
of one that is written down (`ShiftReduce.Grammar.Outline`).
-/

namespace ShiftReduce

/-- The number of a rule: its position in the order of declaration. -/
abbrev RuleId := Nat

def RuleId.text (id : RuleId) : String := s!"r{id}"

/-- One alternative of a nonterminal. -/
structure Rule (T N : Type) where
  lhs : N
  rhs : List (Symbol T N)
deriving DecidableEq, Repr

/-- The left side, an arrow, and the symbols of the right side; `ε` where there are none. -/
def Rule.text {T N : Type} (rule : Rule T N) (vocabulary : Vocabulary T N) : String :=
  let right := if rule.rhs.isEmpty then ["ε"] else rule.rhs.map vocabulary.name
  " ".intercalate (vocabulary.nonterminals.name rule.lhs :: "->" :: right)

/-- A context-free grammar over a vocabulary.

The accepting rule is the one whose completion at the end of the input accepts it. Nonterminals are
defined in the order in which they were first declared; one without rules derives nothing. -/
structure Grammar (T N : Type) where
  vocabulary : Vocabulary T N
  start : N
  rules : Array (Rule T N)
  accepting : RuleId
  defined : List N
  terminals_listed : ∀ terminal ∈ vocabulary.terminals.all, vocabulary.terminals.Lists terminal
  nonterminals_listed :
    ∀ nonterminal ∈ vocabulary.nonterminals.all, vocabulary.nonterminals.Lists nonterminal
  endMarker_listed : vocabulary.terminals.Lists vocabulary.endMarker
  start_listed : vocabulary.nonterminals.Lists start
  lhs_listed : ∀ rule ∈ rules, vocabulary.nonterminals.Lists rule.lhs
  rhs_listed : ∀ rule ∈ rules, ∀ symbol ∈ rule.rhs, vocabulary.Lists symbol
  accepting_start : (rules[accepting]?).map Rule.lhs = some start
  endMarker_unused : ∀ rule ∈ rules, .terminal vocabulary.endMarker ∉ rule.rhs
  start_unused : ∀ rule ∈ rules, .nonterminal start ∉ rule.rhs
  lhs_defined : ∀ rule ∈ rules, rule.lhs ∈ defined
  rhs_defined : ∀ rule ∈ rules, ∀ nonterminal, .nonterminal nonterminal ∈ rule.rhs →
    nonterminal ∈ defined
  defined_nodup : defined.Nodup

namespace Grammar

variable {T N : Type}

/-- The rule with a number, if the grammar has one. -/
def rule? (grammar : Grammar T N) (id : RuleId) : Option (Rule T N) := grammar.rules[id]?

/-- The rule with a number. A number that is no rule's stands for an empty rule of the start symbol;
no item of an automaton and no cell of a table holds one. -/
def rule (grammar : Grammar T N) (id : RuleId) : Rule T N :=
  (grammar.rule? id).getD ⟨grammar.start, []⟩

def acceptingRule (grammar : Grammar T N) : Rule T N := grammar.rule grammar.accepting

/-- The numbers of all rules, ascending. -/
def ruleIds (grammar : Grammar T N) : List RuleId := List.range grammar.rules.size

/-- The numbers of the rules for a nonterminal, ascending. -/
def rulesOf [DecidableEq N] (grammar : Grammar T N) (nonterminal : N) : List RuleId :=
  grammar.ruleIds.filter fun id => (grammar.rule id).lhs = nonterminal

/-- The rules of a nonterminal, if it is defined. -/
def production? [DecidableEq N] (grammar : Grammar T N) (nonterminal : N) :
    Option (List RuleId) :=
  if nonterminal ∈ grammar.defined then some (grammar.rulesOf nonterminal) else none

/-- Each defined nonterminal with its rules, in the order of definition. -/
def productions [DecidableEq N] (grammar : Grammar T N) : List (N × List RuleId) :=
  grammar.defined.map fun nonterminal => (nonterminal, grammar.rulesOf nonterminal)

/-! ## Rules by number -/

theorem rule?_eq_some_iff {grammar : Grammar T N} {id : RuleId} {rule : Rule T N} :
    grammar.rule? id = some rule ↔ id < grammar.rules.size ∧ grammar.rule id = rule := by
  unfold Grammar.rule Grammar.rule?
  by_cases bound : id < grammar.rules.size
  · simp [bound]
  · simp [bound]

theorem rule_mem {grammar : Grammar T N} {id : RuleId} (bound : id < grammar.rules.size) :
    grammar.rule id ∈ grammar.rules :=
  Array.mem_of_getElem? (rule?_eq_some_iff.mpr ⟨bound, rfl⟩)

theorem exists_id_of_mem {grammar : Grammar T N} {rule : Rule T N} (member : rule ∈ grammar.rules) :
    ∃ id, id < grammar.rules.size ∧ grammar.rule id = rule := by
  obtain ⟨id, found⟩ := Array.getElem?_of_mem member
  exact ⟨id, rule?_eq_some_iff.mp found⟩

theorem listed_of_rhs {grammar : Grammar T N} {rule : Rule T N} (member : rule ∈ grammar.rules)
    {before behind : List (Symbol T N)} {symbol : Symbol T N}
    (spelled : rule.rhs = before ++ symbol :: behind) :
    grammar.vocabulary.Lists symbol ∧ ∀ other ∈ behind, grammar.vocabulary.Lists other := by
  have listed := grammar.rhs_listed rule member
  rw [spelled] at listed
  exact ⟨listed symbol (by simp), fun other occurs => listed other (by simp [occurs])⟩

theorem mem_ruleIds {grammar : Grammar T N} {id : RuleId} :
    id ∈ grammar.ruleIds ↔ id < grammar.rules.size :=
  List.mem_range

theorem mem_rulesOf [DecidableEq N] {grammar : Grammar T N} {nonterminal : N} {id : RuleId} :
    id ∈ grammar.rulesOf nonterminal ↔
      id < grammar.rules.size ∧ (grammar.rule id).lhs = nonterminal := by
  simp [rulesOf, mem_ruleIds]

theorem accepting_lt (grammar : Grammar T N) : grammar.accepting < grammar.rules.size := by
  obtain ⟨rule, found, _⟩ := Option.map_eq_some_iff.mp grammar.accepting_start
  exact (Array.getElem?_eq_some_iff.mp found).1

theorem acceptingRule_lhs (grammar : Grammar T N) : grammar.acceptingRule.lhs = grammar.start := by
  obtain ⟨rule, found, lhs⟩ := Option.map_eq_some_iff.mp grammar.accepting_start
  rw [acceptingRule, (rule?_eq_some_iff.mp found).2, lhs]

end Grammar

end ShiftReduce
