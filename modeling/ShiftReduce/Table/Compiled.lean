import ShiftReduce.Table.Basic
import ShiftReduce.Table.Conflict

/-!
Contract: tables that come with their conflicts.

Owns: `Compiled`, a table and the conflicts met in building it, and the rule that a table with
clashes drives no parser.
-/

namespace ShiftReduce

/-- Why there is no parser. -/
inductive GeneratorError where
  /-- The table has so many clashes. -/
  | conflicts (method : Method) (count : Nat)
deriving DecidableEq, Repr

def GeneratorError.message : GeneratorError → String
  | .conflicts method count => s!"{method.text} table has {count} reduce/reduce conflict(s)"

/-- A table and its conflicts. -/
structure Compiled (T N : Type) where
  table : Table T N
  conflicts : Conflicts T

variable {T N : Type}

/-- The table of an automaton under a method with its lookaheads, and the conflicts. -/
def Grammar.compiled [DecidableEq T] [DecidableEq N] (grammar : Grammar T N)
    (automaton : Automaton T N) (method : Method) (lookaheads : ReductionLookaheads T) :
    Compiled T N where
  table := grammar.table automaton method lookaheads
  conflicts := grammar.conflicts automaton method lookaheads

/-- The table, provided that no completed items clash. -/
def Compiled.usableTable (compiled : Compiled T N) : Except GeneratorError (Table T N) :=
  if compiled.conflicts.isCritical then
    .error (.conflicts compiled.table.method compiled.conflicts.clashes.length)
  else .ok compiled.table

end ShiftReduce
