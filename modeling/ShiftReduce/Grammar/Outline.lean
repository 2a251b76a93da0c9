import ShiftReduce.Grammar.Basic

/-!
Contract: grammars that are written down with all their data.

Owns: `Outline`, the data of a grammar; `Outline.IsGrammar`, the condition on them, which is decided
by looking at each letter and each rule once; and `Outline.grammar`, which has every fact that a
grammar carries from that condition.

Does not own: grammars that come about by declarations, and what is wrong with declarations that make
none (`ShiftReduce.Grammar.Draft`).
-/

namespace ShiftReduce

/-- The data of a grammar, without the facts about them. -/
structure Outline (T N : Type) where
  vocabulary : Vocabulary T N
  start : N
  rules : Array (Rule T N)
  accepting : RuleId
  defined : List N

namespace Outline

variable {T N : Type}

/-! ## The condition -/

/-- The symbol may stand on a right side. -/
def Allows (outline : Outline T N) : Symbol T N → Prop
  | .terminal terminal =>
      outline.vocabulary.terminals.Lists terminal ∧ terminal ≠ outline.vocabulary.endMarker
  | .nonterminal nonterminal =>
      outline.vocabulary.nonterminals.Lists nonterminal ∧ nonterminal ≠ outline.start ∧
        nonterminal ∈ outline.defined

/-- The rule is one of a defined nonterminal, and its right side holds what may stand there. -/
def Fits (outline : Outline T N) (rule : Rule T N) : Prop :=
  outline.vocabulary.nonterminals.Lists rule.lhs ∧ rule.lhs ∈ outline.defined ∧
    ∀ symbol ∈ rule.rhs, outline.Allows symbol

/-- Every letter that tables have a cell for is found by its cell, and so is the end marker. -/
def ListsLetters (outline : Outline T N) : Prop :=
  (∀ terminal ∈ outline.vocabulary.terminals.all, outline.vocabulary.terminals.Lists terminal) ∧
    (∀ nonterminal ∈ outline.vocabulary.nonterminals.all,
      outline.vocabulary.nonterminals.Lists nonterminal) ∧
    outline.vocabulary.terminals.Lists outline.vocabulary.endMarker

/-- The start symbol has a cell, and the accepting rule is one of its rules. -/
def AcceptsStart (outline : Outline T N) : Prop :=
  outline.vocabulary.nonterminals.Lists outline.start ∧
    (outline.rules[outline.accepting]?).map Rule.lhs = some outline.start

/-- The data are those of a grammar. -/
def IsGrammar (outline : Outline T N) : Prop :=
  outline.ListsLetters ∧ outline.AcceptsStart ∧ (∀ rule ∈ outline.rules, outline.Fits rule) ∧
    outline.defined.Nodup

section Deciding

variable [DecidableEq T] [DecidableEq N] (outline : Outline T N)

instance : DecidablePred outline.Allows
  | .terminal _ => inferInstanceAs (Decidable (_ ∧ _))
  | .nonterminal _ => inferInstanceAs (Decidable (_ ∧ _ ∧ _))

instance : DecidablePred outline.Fits :=
  fun _ => inferInstanceAs (Decidable (_ ∧ _ ∧ _))

instance : Decidable outline.ListsLetters :=
  inferInstanceAs (Decidable (_ ∧ _ ∧ _))

instance : Decidable outline.AcceptsStart :=
  inferInstanceAs (Decidable (_ ∧ _))

instance : Decidable outline.IsGrammar :=
  inferInstanceAs (Decidable (_ ∧ _ ∧ _ ∧ _))

end Deciding

/-! ## The grammar -/

theorem Allows.lists {outline : Outline T N} {symbol : Symbol T N}
    (allowed : outline.Allows symbol) : outline.vocabulary.Lists symbol := by
  cases symbol with
  | terminal _ => exact allowed.1
  | nonterminal _ => exact allowed.1

theorem IsGrammar.fits {outline : Outline T N} (isGrammar : outline.IsGrammar) {rule : Rule T N}
    (member : rule ∈ outline.rules) : outline.Fits rule :=
  isGrammar.2.2.1 rule member

theorem IsGrammar.allows {outline : Outline T N} (isGrammar : outline.IsGrammar)
    {rule : Rule T N} (member : rule ∈ outline.rules) {symbol : Symbol T N}
    (occurs : symbol ∈ rule.rhs) : outline.Allows symbol :=
  (isGrammar.fits member).2.2 symbol occurs

/-- The grammar with these data. Data that are written out are checked where they are written. -/
def grammar (outline : Outline T N) (isGrammar : outline.IsGrammar := by decide) :
    Grammar T N where
  vocabulary := outline.vocabulary
  start := outline.start
  rules := outline.rules
  accepting := outline.accepting
  defined := outline.defined
  terminals_listed := isGrammar.1.1
  nonterminals_listed := isGrammar.1.2.1
  endMarker_listed := isGrammar.1.2.2
  start_listed := isGrammar.2.1.1
  lhs_listed _ member := (isGrammar.fits member).1
  rhs_listed _ member _ occurs := (isGrammar.allows member occurs).lists
  accepting_start := isGrammar.2.1.2
  endMarker_unused _ member occurs := (isGrammar.allows member occurs).2 rfl
  start_unused _ member occurs := (isGrammar.allows member occurs).2.1 rfl
  lhs_defined _ member := (isGrammar.fits member).2.1
  rhs_defined _ member _ occurs := (isGrammar.allows member occurs).2.2
  defined_nodup := isGrammar.2.2.2

@[simp]
theorem rules_grammar {outline : Outline T N} (isGrammar : outline.IsGrammar) :
    (outline.grammar isGrammar).rules = outline.rules :=
  rfl

end Outline

end ShiftReduce
