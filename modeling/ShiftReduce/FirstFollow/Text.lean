import ShiftReduce.FirstFollow.Basic

/-!
Contract: the table of nullability, FIRST and FOLLOW as text, one line for each nonterminal.
-/

namespace ShiftReduce

/-- Letters by name between braces. -/
def Alphabet.setText {α : Type} (alphabet : Alphabet α) (letters : List α) : String :=
  "\x7b" ++ alphabet.names letters ++ "\x7d"

/-- Letters by name between brackets. -/
def Alphabet.listText {α : Type} (alphabet : Alphabet α) (letters : List α) : String :=
  "[" ++ alphabet.names letters ++ "]"

namespace FirstFollow

variable {T N : Type}

private def line (sets : FirstFollow T N) (nonterminal : N) : String :=
  sets.vocabulary.nonterminals.name nonterminal ++
    (if sets.isNullable nonterminal then " (nullable)" else "") ++
    " FIRST=" ++ sets.vocabulary.terminals.setText (sets.first nonterminal) ++
    " FOLLOW=" ++ sets.vocabulary.terminals.setText (sets.follow nonterminal) ++ "\n"

def text (sets : FirstFollow T N) : String :=
  String.join (sets.vocabulary.nonterminals.all.map sets.line)

end FirstFollow

end ShiftReduce
