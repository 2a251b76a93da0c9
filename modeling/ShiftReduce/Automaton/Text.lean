import ShiftReduce.Automaton.Basic

/-!
Contract: an automaton as text.

Owns: the listing of each state with its items and the transitions out of it.
-/

namespace ShiftReduce

namespace Automaton

variable {T N : Type}

private def stateText (automaton : Automaton T N) (grammar : Grammar T N) (state : Nat) : String :=
  let items := (automaton.items state).map fun item => s!"  {item.text grammar}\n"
  let transitions := (automaton.transitions state).map fun (symbol, target) =>
    s!"  on {grammar.vocabulary.name symbol} goto {target}\n"
  s!"state {state}:\n" ++ String.join (items ++ transitions)

def text (automaton : Automaton T N) (grammar : Grammar T N) : String :=
  String.join ((List.range automaton.stateCount).map (automaton.stateText grammar))

end Automaton

end ShiftReduce
