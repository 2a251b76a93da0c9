import ShiftReduce.Parser.Error
import ShiftReduce.Table.Basic
import ShiftReduce.Tree.Basic

/-!
Contract: the parser that a table drives.

Owns: `Configuration`, the stack and the input still to be read; the step from one configuration to
the next; and `Outcome`, the tree or the errors with which a run ends.

A shift pushes the lookahead as a leaf and reads the next token; the end marker is never shifted, so
nothing behind it is read. A reduction replaces the frames of a right side by one node. The parser
stops at the first error, and what is on the stack then is handed out as fragments.

Does not own: how many steps a run takes. `run` takes a number of steps and says how far they lead.
-/

namespace ShiftReduce

/-- What happened during a run. -/
structure Stats where
  /-- The tokens read, not counting an end that was not in the input. -/
  tokens : Nat := 0
  shifts : Nat := 0
  /-- The reductions made; acceptance is none. -/
  reductions : Nat := 0
deriving DecidableEq, Repr

def Stats.record (stats : Stats) : String :=
  s!"ParserStats \x7b tokens: {stats.tokens}, shifts: {stats.shifts}, " ++
    s!"reductions: {stats.reductions} \x7d"

/-- How a run ends. -/
structure Outcome (T N : Type) where
  /-- The tree of an accepted input. -/
  tree : Option (Tree T N)
  /-- The trees that were on the stack when the parser gave up, from the bottom. -/
  fragments : List (Tree T N)
  errors : List (ParseError T N)
  stats : Stats

namespace Outcome

variable {T N : Type}

/-- The tree if there is one and there are no errors, and the errors otherwise. -/
def result (outcome : Outcome T N) : Except (List (ParseError T N)) (Tree T N) :=
  match outcome.tree, outcome.errors with
  | some tree, [] => .ok tree
  | _, errors => .error errors

def isOk (outcome : Outcome T N) : Bool := outcome.result.isOk

end Outcome

/-- A state on the stack with the tree that led to it. -/
structure Frame (T N : Type) where
  state : Nat
  tree : Tree T N

/-- The stack, the last frame first, above the start state; and the input. -/
structure Configuration (T N : Type) where
  frames : List (Frame T N)
  lookahead : Token T
  /-- What follows the lookahead. -/
  rest : List (Token T)
  stats : Stats

namespace Configuration

variable {T N : Type}

/-- The trees on the stack from the bottom. -/
def trees (configuration : Configuration T N) : List (Tree T N) :=
  (configuration.frames.map Frame.tree).reverse

/-- Makes the next token the lookahead; behind the last one stands the end. -/
def readToken (configuration : Configuration T N) (vocabulary : Vocabulary T N) :
    Configuration T N :=
  match configuration.rest with
  | [] => { configuration with lookahead := vocabulary.endToken }
  | token :: rest =>
      let stats := configuration.stats
      { configuration with
        lookahead := token
        rest := rest
        stats := { stats with tokens := stats.tokens + 1 } }

/-- The end of a run that has met an error. -/
def fail (configuration : Configuration T N) (error : ParseError T N) : Outcome T N where
  tree := none
  fragments := configuration.trees
  errors := [error]
  stats := configuration.stats

end Configuration

/-- Where a step, or some steps, lead. -/
inductive Progress (T N : Type) where
  | running (configuration : Configuration T N)
  | stopped (outcome : Outcome T N)

/-- A grammar with a table for it. -/
structure Parser (T N : Type) where
  grammar : Grammar T N
  table : Table T N

namespace Parser

variable {T N : Type}

/-- The configuration before the first step. -/
def start (parser : Parser T N) (tokens : List (Token T)) : Configuration T N :=
  Configuration.readToken
    { frames := [], lookahead := parser.grammar.vocabulary.endToken, rest := tokens, stats := {} }
    parser.grammar.vocabulary

/-- The state on top of a stack. -/
def topState (parser : Parser T N) : List (Frame T N) → Nat
  | [] => parser.table.startState
  | frame :: _ => frame.state

/-- What the table has the parser do. -/
def action? (parser : Parser T N) (configuration : Configuration T N) : Option Action :=
  parser.table.action? (parser.topState configuration.frames) configuration.lookahead.terminal

/-- Pushes the lookahead and reads the next token. -/
def shift (parser : Parser T N) (configuration : Configuration T N) (target : Nat) :
    Configuration T N :=
  let stats := configuration.stats
  let leaf := Tree.leaf configuration.lookahead
  Configuration.readToken
    { configuration with
      frames := ⟨target, leaf⟩ :: configuration.frames
      stats := { stats with shifts := stats.shifts + 1 } }
    parser.grammar.vocabulary

/-- Replaces the frames of the rule's right side by a node for its left side. -/
def reduce (parser : Parser T N) (configuration : Configuration T N) (id : RuleId) :
    Progress T N :=
  let rule := parser.grammar.rule id
  let popped := configuration.frames.take rule.rhs.length
  let frames := configuration.frames.drop rule.rhs.length
  if popped.length < rule.rhs.length then
    .stopped (configuration.fail (.stackUnderflow (parser.topState configuration.frames) id))
  else
    let node := Tree.node rule.lhs (popped.map Frame.tree).reverse
    let exposed := parser.topState frames
    let stats := configuration.stats
    match parser.table.goto? exposed rule.lhs with
    | some target =>
        .running
          { configuration with
            frames := ⟨target, node⟩ :: frames
            stats := { stats with reductions := stats.reductions + 1 } }
    | none =>
        .stopped (Configuration.fail { configuration with frames := ⟨exposed, node⟩ :: frames }
          (.missingGoto exposed rule.lhs))

/-- The tree of an accepted input: the one on the stack where the accepting rule has one symbol, and
otherwise a node of the start symbol above those on the stack. -/
def acceptedTree (parser : Parser T N) (configuration : Configuration T N) : Tree T N :=
  let rule := parser.grammar.acceptingRule
  match configuration.trees with
  | [tree] => if rule.rhs.length = 1 then tree else .node rule.lhs [tree]
  | trees => .node rule.lhs trees

def accept (parser : Parser T N) (configuration : Configuration T N) : Outcome T N where
  tree := some (parser.acceptedTree configuration)
  fragments := []
  errors := []
  stats := configuration.stats

/-- Gives up on a lookahead on which the state has no action. -/
def reject (parser : Parser T N) (configuration : Configuration T N) : Outcome T N :=
  let state := parser.topState configuration.frames
  configuration.fail
    (.unexpectedToken state configuration.lookahead (parser.table.expected state))

/-- Does what the table says. -/
def step (parser : Parser T N) (configuration : Configuration T N) : Progress T N :=
  match parser.action? configuration with
  | some (.shift target) => .running (parser.shift configuration target)
  | some (.reduce rule) => parser.reduce configuration rule
  | some .accept => .stopped (parser.accept configuration)
  | none => .stopped (parser.reject configuration)

/-- Takes as many steps as given, or fewer if the parser stops. -/
def run (parser : Parser T N) : Nat → Configuration T N → Progress T N
  | 0, configuration => .running configuration
  | steps + 1, configuration =>
      match parser.step configuration with
      | .running next => parser.run steps next
      | .stopped outcome => .stopped outcome

end Parser

end ShiftReduce
