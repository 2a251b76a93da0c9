import ShiftReduce.Lookahead.Closure

/-!
Contract: the lookaheads of every item of every state of an automaton.

Owns: `Link`, a pair of kernel items of which the second may be looked ahead with whatever the first
may; the passes along all links that settle the lookaheads of kernel items; and `Propagation`, the
lookaheads of all items that follow from those.

A kernel item first knows the terminals that some closure brings forth by itself, and the start item
knows the end marker. A pass goes along the links in ascending order and takes what the source knows
to the target, in place, so that a later link of the same pass sees it. Passes are repeated until
one changes nothing; that last one is counted.
-/

namespace ShiftReduce

/-- An item of a state. -/
structure Site where
  state : Nat
  item : Item
deriving DecidableEq, Repr

/-- Sites are compared by state, and by item within a state. -/
def Site.order : Site → Site → Ordering :=
  compareLex (compareOn Site.state) fun left right => Item.order left.item right.item

instance : Std.LawfulEqCmp Site.order where
  compare_self := by
    intro site
    simp [Site.order, compareLex, compareOn, Std.ReflCmp.compare_self]
  eq_of_compare := by
    intro left right same
    obtain ⟨sameState, sameItem⟩ := Ordering.then_eq_eq.mp same
    cases left
    cases right
    exact congr (congrArg Site.mk (Std.LawfulEqCmp.eq_of_compare sameState))
      (Std.LawfulEqCmp.eq_of_compare sameItem)

/-- What may stand behind the source may stand behind the target. -/
structure Link where
  source : Site
  target : Site
deriving DecidableEq, Repr

/-- Links are compared by source, and by target where the sources agree. -/
def Link.order : Link → Link → Ordering :=
  compareLex (fun left right => Site.order left.source right.source) fun left right =>
    Site.order left.target right.target

instance : Std.LawfulEqCmp Link.order where
  compare_self := by
    intro link
    simp [Link.order, compareLex, Std.ReflCmp.compare_self]
  eq_of_compare := by
    intro left right same
    obtain ⟨sameSource, sameTarget⟩ := Ordering.then_eq_eq.mp same
    cases left
    cases right
    exact congr (congrArg Link.mk (Std.LawfulEqCmp.eq_of_compare sameSource))
      (Std.LawfulEqCmp.eq_of_compare sameTarget)

/-- The terminals that may stand behind each of some sites, ascending. -/
abbrev Knowledge (T : Type) := List (Site × List T)

namespace Knowledge

variable {T : Type}

/-- What is known of a site. -/
def known (knowledge : Knowledge T) (site : Site) : List T :=
  (knowledge.lookup site).getD []

/-- The knowledge with more terminals behind a site; a site of which nothing is kept is ignored. -/
def raise (order : T → T → Ordering) (knowledge : Knowledge T) (site : Site) (terminals : List T) :
    Knowledge T :=
  knowledge.map fun (entry, known) =>
    (entry, if entry = site then Ascending.union order known terminals else known)

/-- One pass along the links. -/
def pass (order : T → T → Ordering) (links : List Link) (knowledge : Knowledge T) : Knowledge T :=
  links.foldl (fun knowledge link =>
    knowledge.raise order link.target (knowledge.known link.source)) knowledge

/-- Repeats passes until one changes nothing, with the number of passes made. -/
def settle [DecidableEq T] (order : T → T → Ordering) (links : List Link) :
    Nat → Knowledge T → Knowledge T × Nat
  | 0, knowledge => (knowledge, 0)
  | passes + 1, knowledge =>
      let after := knowledge.pass order links
      if after = knowledge then (knowledge, 1)
      else
        let (settled, count) := settle order links passes after
        (settled, count + 1)

end Knowledge

/-- The lookaheads of all items of an automaton, and how they were found. -/
structure Propagation (T : Type) where
  links : List Link
  /-- How many passes were made along the links. -/
  rounds : Nat
  /-- The items of each state with their lookaheads. -/
  cells : Array (List (Item × List T))

/-- The lookaheads of an item of a state, ascending; none where the state has no such item. -/
def Propagation.lookaheads? {T : Type} (propagation : Propagation T) (state : Nat) (item : Item) :
    Option (List T) :=
  (propagation.cells[state]?).bind (List.lookup item)

namespace Grammar

variable {T N : Type} [DecidableEq T] [DecidableEq N]

/-- The kernel items of all states. -/
def kernelSites (grammar : Grammar T N) (automaton : Automaton T N) : List Site :=
  (List.range automaton.stateCount).flatMap fun state =>
    (automaton.kernel grammar state).map (Site.mk state)

/-- Each kernel item that a kernel item leads to by way of its closure, with the lookaheads that it
thereby gets. -/
def flows (grammar : Grammar T N) (sets : FirstFollow T N) (automaton : Automaton T N)
    (source : Site) : List (Site × List (Lookahead T)) :=
  (grammar.spread sets [(source.item, [.inherited])]).filterMap fun (item, lookaheads) => do
    let symbol ← item.next? grammar
    let target ← automaton.goto? source.state symbol
    return (⟨target, item.advance⟩, lookaheads)

/-- A flow that hands on whatever follows its source is a link. -/
def linksOf (flows : List (Site × Site × List (Lookahead T))) : List Link :=
  Ascending.ofList Link.order
    ((flows.filter fun (_, _, lookaheads) => .inherited ∈ lookaheads).map
      fun (source, target, _) => ⟨source, target⟩)

/-- What is known before the first pass. -/
def initialKnowledge (grammar : Grammar T N) (sites : List Site)
    (flows : List (Site × Site × List (Lookahead T))) : Knowledge T :=
  let order := grammar.vocabulary.terminals.order
  let ignorant : Knowledge T := sites.map fun site => (site, [])
  flows.foldl
    (fun knowledge (_, target, lookaheads) =>
      knowledge.raise order target (lookaheads.filterMap Lookahead.terminal?))
    (ignorant.raise order ⟨0, grammar.startItem⟩ [grammar.vocabulary.endMarker])

/-- The lookaheads of all items of the automaton. There are no more passes that change something
than pairs of a kernel item and a terminal. -/
def propagation (grammar : Grammar T N) (sets : FirstFollow T N) (automaton : Automaton T N) :
    Propagation T :=
  let order := grammar.vocabulary.terminals.order
  let sites := grammar.kernelSites automaton
  let flows := sites.flatMap fun source =>
    (grammar.flows sets automaton source).map (source, ·)
  let links := linksOf flows
  let (settled, rounds) := (grammar.initialKnowledge sites flows).settle order links
    (sites.length * grammar.vocabulary.terminals.size + 1)
  let cells := (List.range automaton.stateCount).map fun state =>
    let seeds := (automaton.kernel grammar state).map fun item =>
      (item, (settled.known ⟨state, item⟩).map Lookahead.terminal)
    (grammar.spread sets seeds).map fun (item, lookaheads) =>
      (item, Ascending.ofList order (lookaheads.filterMap Lookahead.terminal?))
  { links, rounds, cells := cells.toArray }

end Grammar

end ShiftReduce
