import ShiftReduce.Table.Basic

/-!
Contract: a table as text.

Owns: the layout of one line for each state under a line of symbol names. The first column is six
characters wide and each other one eight, with its content at the right end; longer content takes
the room it needs.
-/

namespace ShiftReduce

namespace Table

/-- The content behind as many blanks as bring it to the width. -/
def alignRight (width : Nat) (content : String) : String :=
  String.ofList (List.replicate (width - content.length) ' ') ++ content

variable {T N : Type}

private def line (head : String) (cells : List String) : String :=
  alignRight 6 head ++ String.join (cells.map fun cell => "|" ++ alignRight 8 cell) ++ "\n"

private def headLine (table : Table T N) : String :=
  let vocabulary := table.vocabulary
  line "state" (vocabulary.terminals.all.map vocabulary.terminals.name ++
    vocabulary.nonterminals.all.map vocabulary.nonterminals.name)

private def stateLine (table : Table T N) (state : Nat) : String :=
  let actions := table.vocabulary.terminals.all.map fun terminal =>
    ((table.action? state terminal).map Action.text).getD ""
  let gotos := table.vocabulary.nonterminals.all.map fun nonterminal =>
    ((table.goto? state nonterminal).map toString).getD ""
  line (toString state) (actions ++ gotos)

def text (table : Table T N) : String :=
  String.join (table.headLine :: (List.range table.stateCount).map table.stateLine)

end Table

end ShiftReduce
