import ShiftReduce.Alphabet.Basic

/-!
Contract: alphabets whose letters are numbers.

Owns: `Numbering`, a table of names with the number of letters that are listed, and the alphabet it
stands for. A letter can be given a cell other than its number and a rank that decides its place in
the order before its number does.
-/

namespace ShiftReduce

/-- The description of an alphabet of the letters 0, 1, 2, ….

The first `listed` of them have a cell in tables. A letter without a name of its own is called by
its number. -/
structure Numbering where
  names : Array String
  listed : Nat
  cells : List (Nat × Nat) := []
  ranks : Array Int := #[]

namespace Numbering

/-- The cell of a letter: the first one given for it, or else its number. -/
def cell (numbering : Numbering) (letter : Nat) : Nat :=
  (numbering.cells.lookup letter).getD letter

/-- The rank of a letter: the one given for it, or else its number. -/
def rank (numbering : Numbering) (letter : Nat) : Int :=
  numbering.ranks.getD letter letter

/-- Letters are compared by rank, and by number where the ranks agree. -/
def order (numbering : Numbering) : Nat → Nat → Ordering :=
  compareLex (compareOn numbering.rank) compare

theorem order_lawful (numbering : Numbering) : Std.LawfulEqCmp numbering.order where
  compare_self := by
    intro letter
    simp [order, compareLex, compareOn, Std.ReflCmp.compare_self]
  eq_of_compare := by
    intro left right same
    exact Std.LawfulEqCmp.eq_of_compare (Ordering.then_eq_eq.mp same).2

/-- The alphabet that a numbering describes. -/
def alphabet (numbering : Numbering) : Alphabet Nat where
  all := List.range numbering.listed
  index := numbering.cell
  order := numbering.order
  name letter := numbering.names.getD letter (toString letter)
  order_trans := inferInstanceAs (Std.TransCmp (compareLex (compareOn numbering.rank) compare))
  order_lawful := numbering.order_lawful

end Numbering

end ShiftReduce
