import ShiftReduce.Alphabet.Basic

/-!
Contract: the symbols of a grammar.

Owns: `Symbol`, a terminal or a nonterminal, and `Vocabulary`, the two alphabets of a grammar
together with the terminal that marks the end of every input. In the order of symbols each terminal
comes before each nonterminal.
-/

namespace ShiftReduce

/-- A grammar symbol: a kind of token, or a variable with rules. -/
inductive Symbol (T N : Type) where
  | terminal (terminal : T)
  | nonterminal (nonterminal : N)
deriving DecidableEq, Repr

namespace Symbol

variable {T N : Type}

/-- The terminal, if the symbol is one. -/
def terminal? : Symbol T N → Option T
  | .terminal letter => some letter
  | .nonterminal _ => none

/-- The nonterminal, if the symbol is one. -/
def nonterminal? : Symbol T N → Option N
  | .terminal _ => none
  | .nonterminal letter => some letter

def isTerminal (symbol : Symbol T N) : Bool := symbol.terminal?.isSome

def isNonterminal (symbol : Symbol T N) : Bool := symbol.nonterminal?.isSome

end Symbol

/-- The terminals and nonterminals that grammars and tables are written in. -/
structure Vocabulary (T N : Type) where
  terminals : Alphabet T
  nonterminals : Alphabet N
  /-- Stands behind the last token of every input. -/
  endMarker : T

namespace Vocabulary

variable {T N : Type}

def name (vocabulary : Vocabulary T N) : Symbol T N → String
  | .terminal terminal => vocabulary.terminals.name terminal
  | .nonterminal nonterminal => vocabulary.nonterminals.name nonterminal

/-- The cell of a symbol in the part of a table that is for its kind. -/
def index (vocabulary : Vocabulary T N) : Symbol T N → Nat
  | .terminal terminal => vocabulary.terminals.index terminal
  | .nonterminal nonterminal => vocabulary.nonterminals.index nonterminal

/-- How many cells a table has for symbols of this kind. -/
def cells (vocabulary : Vocabulary T N) : Symbol T N → Nat
  | .terminal _ => vocabulary.terminals.size
  | .nonterminal _ => vocabulary.nonterminals.size

/-- The cell of the symbol leads back to it. -/
def Lists (vocabulary : Vocabulary T N) : Symbol T N → Prop
  | .terminal terminal => vocabulary.terminals.Lists terminal
  | .nonterminal nonterminal => vocabulary.nonterminals.Lists nonterminal

instance [DecidableEq T] [DecidableEq N] (vocabulary : Vocabulary T N) :
    DecidablePred vocabulary.Lists
  | .terminal terminal => inferInstanceAs (Decidable (vocabulary.terminals.Lists terminal))
  | .nonterminal nonterminal =>
      inferInstanceAs (Decidable (vocabulary.nonterminals.Lists nonterminal))

/-! ## The order of symbols -/

/-- Terminals come before nonterminals; within a kind the alphabet's order decides. -/
def order (vocabulary : Vocabulary T N) : Symbol T N → Symbol T N → Ordering
  | .terminal left, .terminal right => vocabulary.terminals.order left right
  | .terminal _, .nonterminal _ => .lt
  | .nonterminal _, .terminal _ => .gt
  | .nonterminal left, .nonterminal right => vocabulary.nonterminals.order left right

instance (vocabulary : Vocabulary T N) : Std.TransCmp vocabulary.order where
  eq_swap := by
    intro left right
    cases left <;> cases right
    · exact vocabulary.terminals.order_trans.eq_swap
    · rfl
    · rfl
    · exact vocabulary.nonterminals.order_trans.eq_swap
  isLE_trans := by
    intro first second third firstSecond secondThird
    cases first <;> cases second <;> cases third
    · exact vocabulary.terminals.order_trans.isLE_trans firstSecond secondThird
    · rfl
    · cases secondThird
    · rfl
    · cases firstSecond
    · cases firstSecond
    · cases secondThird
    · exact vocabulary.nonterminals.order_trans.isLE_trans firstSecond secondThird

instance (vocabulary : Vocabulary T N) : Std.LawfulEqCmp vocabulary.order where
  compare_self := by
    intro symbol
    cases symbol
    · exact vocabulary.terminals.order_lawful.compare_self
    · exact vocabulary.nonterminals.order_lawful.compare_self
  eq_of_compare := by
    intro left right same
    cases left <;> cases right
    · exact congrArg _ (vocabulary.terminals.order_lawful.eq_of_compare same)
    · cases same
    · cases same
    · exact congrArg _ (vocabulary.nonterminals.order_lawful.eq_of_compare same)

end Vocabulary

end ShiftReduce
