import ShiftReduce.Location
import ShiftReduce.Symbol

/-!
Contract: the units that a parser reads.

Owns: `Token`, a terminal together with the text it was read from, the token that stands for the end
of the input, and the two ways in which a token is written: by its text, and in full for messages.
-/

namespace ShiftReduce

/-- An occurrence of a terminal in a source text. -/
structure Token (T : Type) where
  terminal : T
  /-- The text read; empty for the end of the input. -/
  lexeme : String
  /-- Where the text stands, if that is known. -/
  span : Option Span := none
deriving DecidableEq, Repr

/-- The token that stands for the end of the input. -/
def Vocabulary.endToken {T N : Type} (vocabulary : Vocabulary T N) : Token T where
  terminal := vocabulary.endMarker
  lexeme := ""

namespace Token

variable {T N : Type}

def isEnd [DecidableEq T] (token : Token T) (vocabulary : Vocabulary T N) : Bool :=
  token.terminal = vocabulary.endMarker

/-- The text of the token, or the name of its terminal where there is none. -/
def text (token : Token T) (vocabulary : Vocabulary T N) : String :=
  if token.lexeme.isEmpty then vocabulary.terminals.name token.terminal else token.lexeme

/-- The name of the terminal, then the text and the place as far as they are known. -/
def describe (token : Token T) (vocabulary : Vocabulary T N) : String :=
  let quoted := if token.lexeme.isEmpty then "" else s!" `{token.lexeme}`"
  let place := match token.span with
    | some span => s!" at {span.text}"
    | none => ""
  vocabulary.terminals.name token.terminal ++ quoted ++ place

end Token

end ShiftReduce
