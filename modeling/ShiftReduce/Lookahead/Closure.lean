import ShiftReduce.Automaton.Basic
import ShiftReduce.FirstFollow.Basic

/-!
Contract: how lookaheads spread through a closure.

Owns: `Lookahead`, a terminal or a stand-in for whatever the seed is looked ahead with, and
`spread`, which closes seeds that carry lookaheads and says with which lookaheads each item of the
closure may be read.

An item with a nonterminal behind its marker offers that nonterminal what can begin the rest of the
item, and its own lookaheads too if the rest can vanish. What is offered to a nonterminal is passed
on to each heir, a nonterminal that can close one of its rules before any symbol has been read. So
the lookaheads of an initial item are the offers to nonterminals that its left side is an heir of.
-/

namespace ShiftReduce

/-- What may stand behind an item. -/
inductive Lookahead (T : Type) where
  /-- Whatever may stand behind the seed. -/
  | inherited
  | terminal (terminal : T)
deriving DecidableEq, Repr

/-- The terminal, unless the lookahead is a stand-in. -/
def Lookahead.terminal? {T : Type} : Lookahead T → Option T
  | .inherited => none
  | .terminal letter => some letter

/-- Items with their lookaheads. -/
abbrev LookaheadTable (T : Type) := List (Item × List (Lookahead T))

/-- All lookaheads that a table gives an item, in one entry or several. -/
def LookaheadTable.lookaheads {T : Type} (table : LookaheadTable T) (item : Item) :
    List (Lookahead T) :=
  table.flatMap fun (entry, lookaheads) => if entry = item then lookaheads else []

namespace Grammar

variable {T N : Type} [DecidableEq T] [DecidableEq N]

/-- The nonterminals that open a rule of the nonterminal of which the rest can vanish. -/
def heirs (grammar : Grammar T N) (sets : FirstFollow T N) (nonterminal : N) : List N :=
  (grammar.initialItems nonterminal).filterMap fun item =>
    match item.next? grammar with
    | some (.nonterminal opener) =>
        if (sets.firstOf (item.suffix grammar)).2 then some opener else none
    | _ => none

/-- The nonterminal itself, its heirs, the heirs of those, and so on. -/
def lineage (grammar : Grammar T N) (sets : FirstFollow T N) (nonterminal : N) : List N :=
  Exploration.explore (grammar.heirs sets) (grammar.occurrences.length + 1) [nonterminal]

/-- The nonterminal that an item offers lookaheads, if any, with the lookaheads offered. -/
def offer (grammar : Grammar T N) (sets : FirstFollow T N) (seeds : LookaheadTable T)
    (item : Item) : Option (N × List (Lookahead T)) :=
  match item.next? grammar with
  | some (.nonterminal expected) =>
      let (opening, vanishes) := sets.firstOf (item.suffix grammar)
      some (expected,
        opening.map .terminal ++ if vanishes then seeds.lookaheads item else [])
  | _ => none

/-- The seeds together with everything that they imply, each item with its lookaheads. -/
def spread (grammar : Grammar T N) (sets : FirstFollow T N) (seeds : LookaheadTable T) :
    LookaheadTable T :=
  let items := grammar.closure (seeds.map Prod.fst)
  let grants := (items.filterMap (grammar.offer sets seeds)).map fun (expected, lookaheads) =>
    (grammar.lineage sets expected, lookaheads)
  items.map fun item =>
    let granted := grants.flatMap fun (lineage, lookaheads) =>
      if item.marker = 0 ∧ (grammar.rule item.rule).lhs ∈ lineage then lookaheads else []
    (item, Exploration.addFresh [] (seeds.lookaheads item ++ granted))

end Grammar

end ShiftReduce
