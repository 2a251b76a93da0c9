import ShiftReduce.FirstFollow.Text
import ShiftReduce.Table.Method

/-!
Contract: what a table cannot hold.

Owns: reductions that lose a cell to a shift; states in which completed items clash; and
`Conflicts`, the two lists of these for a whole automaton.

A lost reduction does no harm to a parser, which shifts. A clash does: under SLR(1) two completed
items in one state are a clash whatever their lookaheads, under LALR(1) only if they share one.
A lost reduction is told by its item and terminal and a clash by its items; of several states with
the same one, the first is named.
-/

namespace ShiftReduce

/-- A reduction on a terminal that its state shifts. -/
structure LostReduction (T : Type) where
  state : Nat
  item : Item
  terminal : T
deriving DecidableEq, Repr

/-- Completed items of one state that compete. -/
structure Clash (T : Type) where
  state : Nat
  /-- The completed items of empty rules, by marker. -/
  nonkernel : List Item
  /-- The other completed items, by marker. -/
  kernel : List Item
  /-- The terminals on which at least two of the items are reduced, ascending. -/
  lookaheads : List T
deriving DecidableEq, Repr

/-- The conflicts of a table, each kind in the order of states. -/
structure Conflicts (T : Type) where
  lost : List (LostReduction T)
  clashes : List (Clash T)
deriving DecidableEq, Repr

namespace Conflicts

variable {T N : Type}

def isEmpty (conflicts : Conflicts T) : Bool :=
  conflicts.lost.isEmpty && conflicts.clashes.isEmpty

/-- Whether a parser cannot be driven by the table. -/
def isCritical (conflicts : Conflicts T) : Bool := !conflicts.clashes.isEmpty

end Conflicts

/-- The members with different keys; of those with equal keys, the first. -/
def distinctOn {α κ : Type} [DecidableEq κ] (key : α → κ) : List α → List α
  | [] => []
  | head :: tail => head :: (distinctOn key tail).filter fun later => key later ≠ key head

/-- The terminals that are in at least two of the sets, ascending. -/
def sharedTerminals {T : Type} [DecidableEq T] (order : T → T → Ordering) : List (List T) → List T
  | [] => []
  | set :: others => Ascending.union order (sharedTerminals order others)
      (set.filter fun terminal => others.any fun other => terminal ∈ other)

namespace Grammar

variable {T N : Type} [DecidableEq T]

/-- The reductions that a state loses to shifts. -/
def lostReductions [DecidableEq N] (grammar : Grammar T N) (automaton : Automaton T N)
    (lookaheads : ReductionLookaheads T) (state : Nat) : List (LostReduction T) :=
  (automaton.completed grammar state).flatMap fun item =>
    if item.isAccepting grammar then []
    else
      ((lookaheads state item).filter fun terminal =>
        (automaton.goto? state (.terminal terminal)).isSome).map fun terminal =>
          { state, item, terminal }

/-- The clash of a state's completed items, if they do. -/
def clash? (grammar : Grammar T N) (automaton : Automaton T N) (method : Method)
    (lookaheads : ReductionLookaheads T) (state : Nat) : Option (Clash T) :=
  let completed := automaton.completed grammar state
  let shared := sharedTerminals grammar.vocabulary.terminals.order
    (completed.map (grammar.reductionSet lookaheads state))
  let clashes : Bool := match method with
    | .slr => 1 < completed.length
    | .lalr => !shared.isEmpty
  let (kernel, nonkernel) := completed.partition fun item => item.isKernel grammar
  if clashes then
    some
      { state
        nonkernel := Ascending.ofList Item.markerOrder nonkernel
        kernel := Ascending.ofList Item.markerOrder kernel
        lookaheads := shared }
  else none

/-- All conflicts of an automaton under a method with its lookaheads. -/
def conflicts [DecidableEq N] (grammar : Grammar T N) (automaton : Automaton T N) (method : Method)
    (lookaheads : ReductionLookaheads T) : Conflicts T :=
  let states := List.range automaton.stateCount
  { lost := distinctOn (fun lost => (lost.item, lost.terminal))
      (states.flatMap (grammar.lostReductions automaton lookaheads))
    clashes := distinctOn (fun clash => (clash.nonkernel, clash.kernel))
      (states.filterMap (grammar.clash? automaton method lookaheads)) }

end Grammar

namespace Conflicts

variable {T N : Type}

private def lostText (grammar : Grammar T N) (lost : LostReduction T) : String :=
  let terminal := grammar.vocabulary.terminals.name lost.terminal
  s!"  [state {lost.state}] {lost.item.text grammar} on {terminal}\n"

private def clashText (grammar : Grammar T N) (number : Nat) (clash : Clash T) : String :=
  let items (members : List Item) : String :=
    String.join (members.map fun item => s!"    {item.text grammar}\n")
  let lookaheads := grammar.vocabulary.terminals.setText clash.lookaheads
  s!"=> {number} [state {clash.state}] on {lookaheads}\n" ++
    "  Nonkernel:\n" ++ items clash.nonkernel ++ "  Kernel:\n" ++ items clash.kernel

/-- The lost reductions, then the clashes under their numbers. -/
def text (conflicts : Conflicts T) (grammar : Grammar T N) : String :=
  let titled (title : String) (entries : List String) : String :=
    if entries.isEmpty then "" else title ++ ":\n" ++ String.join entries
  if conflicts.isEmpty then "no conflicts\n"
  else
    titled "Shift/Reduce conflicts (would favor shift)" (conflicts.lost.map (lostText grammar)) ++
      titled "Reduce/Reduce conflicts (critical)" (conflicts.clashes.mapIdx (clashText grammar))

end Conflicts

end ShiftReduce
