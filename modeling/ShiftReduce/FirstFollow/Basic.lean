import ShiftReduce.Ascending
import ShiftReduce.Clause
import ShiftReduce.Grammar.Basic

/-!
Contract: what a nonterminal can begin with, what can stand behind it, and whether it can vanish.

Owns: the nullable nonterminals of a grammar; FIRST and FOLLOW of each nonterminal; `FirstFollow`,
which keeps all three in table cells; and FIRST of a string of symbols.

FIRST and FOLLOW are reachability questions. A terminal is in FIRST of a nonterminal if it is
reachable by going from a nonterminal to the symbols that can open one of its rules, and what stands
behind a nonterminal also stands behind those that can close one of its rules.
-/

namespace ShiftReduce

/-- Every way to see a list as a member with what stands before it and behind it. -/
def splits {α : Type} : List α → List (List α × α × List α)
  | [] => []
  | head :: tail =>
      ([], head, tail) :: (splits tail).map fun (before, member, behind) =>
        (head :: before, member, behind)

theorem mem_splits {α : Type} {before behind list : List α} {member : α} :
    (before, member, behind) ∈ splits list ↔ list = before ++ member :: behind := by
  induction list generalizing before with
  | nil => simp [splits]
  | cons head tail inductionHypothesis =>
      cases before with
      | nil => simp [splits, eq_comm]
      | cons first rest =>
          simp only [splits, List.mem_cons, List.mem_map, Prod.mk.injEq, Prod.exists,
            List.cons_append, List.cons.injEq, reduceCtorEq, false_and, false_or]
          constructor
          · intro entry
            rcases entry with ⟨_, _, _, split, ⟨rfl, rfl⟩, rfl, rfl⟩
            exact ⟨rfl, inductionHypothesis.mp split⟩
          · intro given
            rcases given with ⟨rfl, split⟩
            exact ⟨rest, member, behind, inductionHypothesis.mpr split, ⟨rfl, rfl⟩, rfl, rfl⟩

namespace Grammar

variable {T N : Type} [DecidableEq N]

/-! ## Nullable nonterminals -/

/-- A rule with nothing but nonterminals on its right side makes its left side nullable once they
all are. -/
def nullableClauses (grammar : Grammar T N) : List (Clause N) :=
  grammar.rules.toList.filterMap fun rule =>
    (rule.rhs.mapM Symbol.nonterminal?).map fun premises => ⟨rule.lhs, premises⟩

/-- The nonterminals that derive the empty string. -/
def nullables (grammar : Grammar T N) : List N :=
  Clause.consequences grammar.nullableClauses

/-- Whether every symbol is one of the given nonterminals. -/
def vanish (nullables : List N) (symbols : List (Symbol T N)) : Bool :=
  symbols.all fun symbol =>
    match symbol with
    | .terminal _ => false
    | .nonterminal nonterminal => nonterminal ∈ nullables

/-! ## FIRST -/

/-- The symbols of all right sides. -/
def occurrences (grammar : Grammar T N) : List (Symbol T N) :=
  grammar.rules.toList.flatMap Rule.rhs

/-- The symbols that stand in a rule of the symbol behind nullable symbols only. -/
def openers (grammar : Grammar T N) (nullables : List N) : Symbol T N → List (Symbol T N)
  | .terminal _ => []
  | .nonterminal nonterminal =>
      (grammar.rulesOf nonterminal).flatMap fun id =>
        (splits (grammar.rule id).rhs).filterMap fun (before, symbol, _) =>
          if vanish nullables before then some symbol else none

/-- The terminals that a string derived from the nonterminal can begin with. -/
def firstSet [DecidableEq T] (grammar : Grammar T N) (nullables : List N) (nonterminal : N) :
    List T :=
  let opening := Exploration.explore (grammar.openers nullables)
    (grammar.occurrences.length + 1) [.nonterminal nonterminal]
  Ascending.ofList grammar.vocabulary.terminals.order (opening.filterMap Symbol.terminal?)

end Grammar

/-- Nullability, FIRST and FOLLOW of every listed nonterminal, each in its cell. -/
structure FirstFollow (T N : Type) where
  vocabulary : Vocabulary T N
  nullableCells : Array Bool
  firstCells : Array (List T)
  followCells : Array (List T)

namespace FirstFollow

variable {T N : Type}

/-- The cell of a nonterminal. -/
def cell (sets : FirstFollow T N) (nonterminal : N) : Nat :=
  sets.vocabulary.nonterminals.index nonterminal

/-- Whether the cell of a nonterminal exists. -/
def hasCell (sets : FirstFollow T N) (nonterminal : N) : Bool :=
  sets.cell nonterminal < sets.nullableCells.size

/-- Whether the nonterminal derives the empty string. -/
def isNullable (sets : FirstFollow T N) (nonterminal : N) : Bool :=
  sets.nullableCells.getD (sets.cell nonterminal) false

/-- The terminals that a string derived from the nonterminal can begin with, ascending. -/
def first (sets : FirstFollow T N) (nonterminal : N) : List T :=
  sets.firstCells.getD (sets.cell nonterminal) []

/-- The terminals that can stand behind the nonterminal, ascending. -/
def follow (sets : FirstFollow T N) (nonterminal : N) : List T :=
  sets.followCells.getD (sets.cell nonterminal) []

/-- The terminals that a string derived from the symbols can begin with, ascending, and whether the
symbols derive the empty string. -/
def firstOf (sets : FirstFollow T N) : List (Symbol T N) → List T × Bool
  | [] => ([], true)
  | .terminal terminal :: _ => ([terminal], false)
  | .nonterminal nonterminal :: rest =>
      if sets.isNullable nonterminal then
        let (terminals, nullable) := sets.firstOf rest
        (Ascending.union sets.vocabulary.terminals.order (sets.first nonterminal) terminals,
          nullable)
      else (sets.first nonterminal, false)

/-- Whether each symbol that `firstOf` looks at has a cell. It looks no further than the first
symbol that does not vanish. -/
def covers (sets : FirstFollow T N) : List (Symbol T N) → Bool
  | [] => true
  | .terminal _ :: _ => true
  | .nonterminal nonterminal :: rest =>
      sets.hasCell nonterminal && (!sets.isNullable nonterminal || sets.covers rest)

/-! ## Looking up symbols from elsewhere -/

/-- Nullability of any nonterminal; none where it has no cell. -/
def isNullable? (sets : FirstFollow T N) (nonterminal : N) : Option Bool :=
  if sets.hasCell nonterminal then some (sets.isNullable nonterminal) else none

/-- FIRST of any nonterminal; none where it has no cell. -/
def first? (sets : FirstFollow T N) (nonterminal : N) : Option (List T) :=
  if sets.hasCell nonterminal then some (sets.first nonterminal) else none

/-- FOLLOW of any nonterminal; none where it has no cell. -/
def follow? (sets : FirstFollow T N) (nonterminal : N) : Option (List T) :=
  if sets.hasCell nonterminal then some (sets.follow nonterminal) else none

/-- `firstOf` for symbols that need not have cells. -/
def firstOf? (sets : FirstFollow T N) (symbols : List (Symbol T N)) : Option (List T × Bool) :=
  if sets.covers symbols then some (sets.firstOf symbols) else none

end FirstFollow

namespace Grammar

variable {T N : Type} [DecidableEq N]

/-! ## FOLLOW -/

/-- The left sides of the rules in which only nullable symbols stand behind the nonterminal: what
can stand behind them can also stand behind it. -/
def hosts [DecidableEq T] (grammar : Grammar T N) (nullables : List N) (nonterminal : N) : List N :=
  grammar.rules.toList.flatMap fun rule =>
    (splits rule.rhs).filterMap fun (_, symbol, behind) =>
      if symbol = .nonterminal nonterminal ∧ vanish nullables behind then some rule.lhs else none

/-- The terminals that stand behind the nonterminal within some rule. -/
def behind [DecidableEq T] (grammar : Grammar T N) (sets : FirstFollow T N) (nonterminal : N) :
    List T :=
  grammar.rules.toList.flatMap fun rule =>
    (splits rule.rhs).flatMap fun (_, symbol, behind) =>
      if symbol = .nonterminal nonterminal then (sets.firstOf behind).1 else []

/-- The terminals that can stand behind the nonterminal. The end marker stands behind the start
symbol. -/
def followSet [DecidableEq T] (grammar : Grammar T N) (nullables : List N)
    (sets : FirstFollow T N) (nonterminal : N) : List T :=
  let sources := Exploration.explore (grammar.hosts nullables) (grammar.rules.size + 1)
    [nonterminal]
  Ascending.ofList grammar.vocabulary.terminals.order (sources.flatMap fun source =>
    grammar.behind sets source ++
      if source = grammar.start then [grammar.vocabulary.endMarker] else [])

/-- Nullability and FIRST in their cells, and no FOLLOW yet. -/
def firstSets [DecidableEq T] (grammar : Grammar T N) (nullables : List N) : FirstFollow T N :=
  let cells := grammar.vocabulary.nonterminals.all.toArray
  { vocabulary := grammar.vocabulary
    nullableCells := cells.map fun nonterminal => decide (nonterminal ∈ nullables)
    firstCells := cells.map (grammar.firstSet nullables)
    followCells := #[] }

/-- Nullability, FIRST and FOLLOW of the grammar's nonterminals. -/
def firstFollow [DecidableEq T] (grammar : Grammar T N) : FirstFollow T N :=
  let nullables := grammar.nullables
  let sets := grammar.firstSets nullables
  { sets with
    followCells := grammar.vocabulary.nonterminals.all.toArray.map
      (grammar.followSet nullables sets) }

end Grammar

end ShiftReduce
