import ShiftReduce.Ascending
import ShiftReduce.Exploration
import ShiftReduce.Item

/-!
Contract: the automaton whose states are sets of items.

Owns: the closure of a set of items and the set that a symbol leads to; `Automaton`, the states that
the start leads to with the transitions between them; and what can be read off a state.

States are numbered in the order in which a breadth-first search from the start finds them, each
state being expanded on its symbols in ascending order. State 0 is the start.
-/

namespace ShiftReduce

/-- A set of items, ascending. -/
abbrev ItemSet := List Item

namespace Grammar

variable {T N : Type} [DecidableEq N]

/-- The items of a nonterminal's rules of which nothing has been read. -/
def initialItems (grammar : Grammar T N) (nonterminal : N) : List Item :=
  (grammar.rulesOf nonterminal).map fun id => ⟨id, 0⟩

/-- The items that an item implies: the initial items of the nonterminal behind its marker. -/
def implied (grammar : Grammar T N) (item : Item) : List Item :=
  match item.next? grammar with
  | some (.nonterminal nonterminal) => grammar.initialItems nonterminal
  | _ => []

/-- The items together with everything that they imply. -/
def closure (grammar : Grammar T N) (items : List Item) : ItemSet :=
  Ascending.ofList Item.order
    (Exploration.explore grammar.implied (items.length + grammar.rules.size) items)

variable [DecidableEq T]

/-- The items that a symbol leads to: those that expect it, advanced, with what they imply. -/
def goto (grammar : Grammar T N) (items : ItemSet) (symbol : Symbol T N) : ItemSet :=
  grammar.closure
    ((items.filter fun item => item.next? grammar = some symbol).map Item.advance)

/-- The symbols that some item expects, ascending. -/
def expectedSymbols (grammar : Grammar T N) (items : ItemSet) : List (Symbol T N) :=
  Ascending.ofList grammar.vocabulary.order (items.filterMap fun item => item.next? grammar)

/-- Each expected symbol with the items it leads to. -/
def successors (grammar : Grammar T N) (items : ItemSet) : List (Symbol T N × ItemSet) :=
  (grammar.expectedSymbols items).map fun symbol => (symbol, grammar.goto items symbol)

def startItem (grammar : Grammar T N) : Item := ⟨grammar.accepting, 0⟩

def startItems (grammar : Grammar T N) : ItemSet := grammar.closure [grammar.startItem]

/-- The items of all rules. -/
def allItems (grammar : Grammar T N) : List Item :=
  grammar.ruleIds.flatMap fun id =>
    (List.range ((grammar.rule id).rhs.length + 1)).map fun marker => ⟨id, marker⟩

/-- The sets of items that the start leads to, in order of discovery. There are no more of them than
sets of items. -/
def itemSets (grammar : Grammar T N) : List ItemSet :=
  Exploration.explore (fun items => (grammar.successors items).map Prod.snd)
    (Nat.pow 2 grammar.allItems.length) [grammar.startItems]

end Grammar

/-- States and the transitions between them. -/
structure Automaton (T N : Type) where
  states : Array ItemSet
  /-- The transitions out of each state, in the order of symbols. -/
  edges : Array (List (Symbol T N × Nat))

/-- The automaton of the grammar's items. -/
def Grammar.automaton {T N : Type} [DecidableEq T] [DecidableEq N] (grammar : Grammar T N) :
    Automaton T N :=
  let sets := grammar.itemSets
  { states := sets.toArray
    edges := sets.toArray.map fun items =>
      (grammar.successors items).map fun (symbol, target) => (symbol, sets.idxOf target) }

namespace Automaton

variable {T N : Type}

def stateCount (automaton : Automaton T N) : Nat := automaton.states.size

/-- The items of a state, if there is one with that number. -/
def state? (automaton : Automaton T N) (state : Nat) : Option ItemSet := automaton.states[state]?

/-- The items of a state; none where there is no such state. -/
def items (automaton : Automaton T N) (state : Nat) : ItemSet := (automaton.state? state).getD []

/-- The transitions out of a state, in the order of symbols. -/
def transitions (automaton : Automaton T N) (state : Nat) : List (Symbol T N × Nat) :=
  automaton.edges.getD state []

def transitionCount (automaton : Automaton T N) : Nat :=
  automaton.edges.foldl (fun count transitions => count + transitions.length) 0

/-- The state that a symbol leads to from a state, if any. -/
def goto? [DecidableEq T] [DecidableEq N] (automaton : Automaton T N) (state : Nat)
    (symbol : Symbol T N) : Option Nat :=
  (automaton.transitions state).lookup symbol

/-- The items of a state that were carried in by a transition, or that belong to the accepting
rule. -/
def kernel (automaton : Automaton T N) (grammar : Grammar T N) (state : Nat) : List Item :=
  (automaton.items state).filter fun item => item.isKernel grammar

/-- The items of a state whose right sides have been read. -/
def completed (automaton : Automaton T N) (grammar : Grammar T N) (state : Nat) : List Item :=
  (automaton.items state).filter fun item => item.isComplete grammar

end Automaton

end ShiftReduce
