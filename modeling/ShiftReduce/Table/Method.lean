import ShiftReduce.Lookahead.Propagation

/-!
Contract: the two ways to find the terminals on which a completed item is reduced.

Owns: `Method`; the lookaheads of completed items under each method; and the reduction set of a
completed item, which is the end marker alone for the accepting rule, whatever the method.
-/

namespace ShiftReduce

/-- How a table finds the lookaheads of completed items. -/
inductive Method where
  /-- By FOLLOW of the rule's left side. -/
  | slr
  /-- By propagation through the automaton. -/
  | lalr
deriving DecidableEq, Repr

namespace Method

def text : Method → String
  | .slr => "SLR(1)"
  | .lalr => "LALR(1)"

/-- The weaker method comes first. -/
def order : Method → Method → Ordering
  | .slr, .lalr => .lt
  | .lalr, .slr => .gt
  | _, _ => .eq

end Method

/-- The lookaheads of each completed item in each state. -/
abbrev ReductionLookaheads (T : Type) := Nat → Item → List T

variable {T N : Type}

/-- The lookaheads are FOLLOW of the left side, in whatever state. -/
def FirstFollow.reductionLookaheads (sets : FirstFollow T N) (grammar : Grammar T N) :
    ReductionLookaheads T :=
  fun _ item => sets.follow (grammar.rule item.rule).lhs

/-- The lookaheads are those of the item in that very state. -/
def Propagation.reductionLookaheads (propagation : Propagation T) : ReductionLookaheads T :=
  fun state item => (propagation.lookaheads? state item).getD []

/-- The terminals on which a completed item is reduced in a state, or on which the input is accepted
if the item belongs to the accepting rule. -/
def Grammar.reductionSet (grammar : Grammar T N) (lookaheads : ReductionLookaheads T) (state : Nat)
    (item : Item) : List T :=
  if item.isAccepting grammar then [grammar.vocabulary.endMarker] else lookaheads state item

end ShiftReduce
