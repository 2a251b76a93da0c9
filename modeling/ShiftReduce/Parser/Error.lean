import ShiftReduce.FirstFollow.Text
import ShiftReduce.Grammar.Basic
import ShiftReduce.Token

/-!
Contract: why a parser stops without a tree.

Owns: one constructor for each cause, the state and the place in the source text that go with it,
and its message.
-/

namespace ShiftReduce

inductive ParseError (T N : Type) where
  /-- The state has no action on the token; it has one on each of the expected terminals. -/
  | unexpectedToken (state : Nat) (token : Token T) (expected : List T)
  /-- The state has no goto on the nonterminal. -/
  | missingGoto (state : Nat) (nonterminal : N)
  /-- The rule's right side is longer than the stack. -/
  | stackUnderflow (state : Nat) (rule : RuleId)
deriving DecidableEq, Repr

namespace ParseError

variable {T N : Type}

/-- The state in which the parser stopped. -/
def state : ParseError T N → Nat
  | .unexpectedToken state _ _ => state
  | .missingGoto state _ => state
  | .stackUnderflow state _ => state

/-- Where the offending token stands, if there is one and its place is known. -/
def span? : ParseError T N → Option Span
  | .unexpectedToken _ token _ => token.span
  | .missingGoto _ _ => none
  | .stackUnderflow _ _ => none

def message (vocabulary : Vocabulary T N) : ParseError T N → String
  | .unexpectedToken state token expected =>
      let expectation := vocabulary.terminals.listText expected
      s!"unexpected {token.describe vocabulary} in state {state}, expected one of {expectation}"
  | .missingGoto state nonterminal =>
      s!"no goto for {vocabulary.nonterminals.name nonterminal} in state {state}"
  | .stackUnderflow state rule => s!"stack underflow reducing rule {rule.text} in state {state}"

end ParseError

end ShiftReduce
