import ShiftReduce.Automaton.Basic

/-!
Contract: walks through an automaton.

Owns: the state that a string of symbols leads to from a state, and how walks follow one another.
-/

namespace ShiftReduce

namespace Automaton

variable {T N : Type} [DecidableEq T] [DecidableEq N]

/-- The state that the symbols lead to one after the other, if each has a transition. -/
def walk (automaton : Automaton T N) : Nat → List (Symbol T N) → Option Nat
  | state, [] => some state
  | state, symbol :: rest =>
      (automaton.goto? state symbol).bind fun target => automaton.walk target rest

theorem walk_append (automaton : Automaton T N) (state : Nat) (left right : List (Symbol T N)) :
    automaton.walk state (left ++ right) =
      (automaton.walk state left).bind fun middle => automaton.walk middle right := by
  induction left generalizing state with
  | nil => rfl
  | cons symbol rest inductionHypothesis =>
      rw [List.cons_append, walk, walk]
      cases automaton.goto? state symbol with
      | none => rfl
      | some target => exact inductionHypothesis target

end Automaton

end ShiftReduce
