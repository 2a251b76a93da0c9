import ShiftReduce.Table.Method

/-!
Contract: action and goto tables.

Owns: `Action`; which action a state takes on a terminal; and `Table`, the actions and gotos of all
states in cells.

A cell for a terminal holds a shift if the automaton has a transition; otherwise acceptance, if the
accepting rule is completed and the terminal is the end marker; otherwise the reduction of the first
completed rule that has the terminal among its lookaheads. A cell with none of these is an error.
-/

namespace ShiftReduce

/-- What a parser does next. -/
inductive Action where
  /-- Push the lookahead and enter the state. -/
  | shift (target : Nat)
  /-- Replace the right side of the rule by its left side. -/
  | reduce (rule : RuleId)
  /-- The input is a sentence. -/
  | accept
deriving DecidableEq, Repr

def Action.text : Action → String
  | .shift target => s!"s{target}"
  | .reduce rule => rule.text
  | .accept => "acc"

/-- The actions and gotos of each state, in the cells of terminals and nonterminals. -/
structure Table (T N : Type) where
  vocabulary : Vocabulary T N
  method : Method
  actions : Array (Array (Option Action))
  gotos : Array (Array (Option Nat))

namespace Table

variable {T N : Type}

/-- The state in which parsing starts. -/
def startState (_table : Table T N) : Nat := 0

def stateCount (table : Table T N) : Nat := table.actions.size

/-- What to do in a state on a terminal; none is an error. -/
def action? (table : Table T N) (state : Nat) (terminal : T) : Option Action := do
  let row ← table.actions[state]?
  row.getD (table.vocabulary.terminals.index terminal) none

/-- The state to enter from a state once the nonterminal has been reduced. -/
def goto? (table : Table T N) (state : Nat) (nonterminal : N) : Option Nat := do
  let row ← table.gotos[state]?
  row.getD (table.vocabulary.nonterminals.index nonterminal) none

/-- The listed terminals on which something can be done in a state. -/
def expected (table : Table T N) (state : Nat) : List T :=
  table.vocabulary.terminals.all.filter fun terminal => (table.action? state terminal).isSome

end Table

namespace Grammar

variable {T N : Type} [DecidableEq T] [DecidableEq N]

/-- What to do on a terminal in a state without a transition on it, of which the completed items are
given. -/
def completion? (grammar : Grammar T N) (lookaheads : ReductionLookaheads T) (state : Nat)
    (completed : List Item) (terminal : T) : Option Action :=
  if terminal = grammar.vocabulary.endMarker ∧
      completed.any (fun item => item.isAccepting grammar) then
    some .accept
  else
    (completed.find? fun item =>
      !item.isAccepting grammar && terminal ∈ lookaheads state item).map fun item =>
        .reduce item.rule

/-- The cells of a state for terminals. -/
def actionRow (grammar : Grammar T N) (automaton : Automaton T N)
    (lookaheads : ReductionLookaheads T) (state : Nat) : List (Option Action) :=
  let completed := automaton.completed grammar state
  grammar.vocabulary.terminals.all.map fun terminal =>
    match automaton.goto? state (.terminal terminal) with
    | some target => some (.shift target)
    | none => grammar.completion? lookaheads state completed terminal

/-- The cells of a state for nonterminals. -/
def gotoRow (grammar : Grammar T N) (automaton : Automaton T N) (state : Nat) :
    List (Option Nat) :=
  grammar.vocabulary.nonterminals.all.map fun nonterminal =>
    automaton.goto? state (.nonterminal nonterminal)

/-- The table of an automaton under a method with its lookaheads. -/
def table (grammar : Grammar T N) (automaton : Automaton T N) (method : Method)
    (lookaheads : ReductionLookaheads T) : Table T N :=
  let states := List.range automaton.stateCount
  { vocabulary := grammar.vocabulary
    method := method
    actions := (states.map fun state =>
      (grammar.actionRow automaton lookaheads state).toArray).toArray
    gotos := (states.map fun state => (grammar.gotoRow automaton state).toArray).toArray }

end Grammar

end ShiftReduce
