/-!
Contract: places in a source text.

Owns: positions by line and column, the half-open spans between two positions, their order, their
union and their text.
-/

namespace ShiftReduce

/-- A line and a column, each counted from one. -/
structure Position where
  line : Nat
  column : Nat
deriving DecidableEq, Repr

namespace Position

/-- Positions are compared by line, and by column within a line. -/
def order (left right : Position) : Ordering :=
  (compare left.line right.line).then (compare left.column right.column)

/-- The earlier of two positions. -/
def earlier (left right : Position) : Position :=
  if left.order right = .gt then right else left

/-- The later of two positions. -/
def later (left right : Position) : Position :=
  if left.order right = .gt then left else right

def text (position : Position) : String :=
  s!"{position.line}:{position.column}"

end Position

/-- The text from `start` up to but not including `stop`. -/
structure Span where
  start : Position
  stop : Position
deriving DecidableEq, Repr

namespace Span

/-- The least span that covers both. -/
def merge (left right : Span) : Span where
  start := left.start.earlier right.start
  stop := left.stop.later right.stop

/-- Whether the span covers no text. -/
def isEmpty (span : Span) : Bool :=
  span.start == span.stop

def text (span : Span) : String :=
  s!"{span.start.text}-{span.stop.text}"

end Span

end ShiftReduce
