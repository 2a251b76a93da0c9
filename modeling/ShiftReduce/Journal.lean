/-!
Contract: notes that are taken along the way.

Owns: the levels of importance and `Journal`, which takes those notes that are important enough. The
text of a note that is not taken is never made.
-/

namespace ShiftReduce

/-- How important a note is, the most important level first. -/
inductive Level where
  | error
  | warn
  | info
  | debug
  | trace
deriving DecidableEq, Repr

namespace Level

/-- How many levels are more important. -/
def rank : Level → Nat
  | .error => 0
  | .warn => 1
  | .info => 2
  | .debug => 3
  | .trace => 4

def text : Level → String
  | .error => "ERROR"
  | .warn => "WARN"
  | .info => "INFO"
  | .debug => "DEBUG"
  | .trace => "TRACE"

end Level

/-- The notes taken so far. -/
structure Journal where
  /-- The least important level that is taken; without one, no note is. -/
  limit : Option Level
  notes : Array String := #[]

namespace Journal

/-- The journal that takes no notes. -/
def off : Journal where
  limit := none

def admits (journal : Journal) (level : Level) : Bool :=
  match journal.limit with
  | none => false
  | some limit => level.rank ≤ limit.rank

/-- Takes a note, its level before it, if the level is admitted. -/
def note (journal : Journal) (level : Level) (message : Unit → String) : Journal :=
  if journal.admits level then
    { journal with notes := journal.notes.push s!"{level.text} {message ()}" }
  else journal

end Journal

end ShiftReduce
