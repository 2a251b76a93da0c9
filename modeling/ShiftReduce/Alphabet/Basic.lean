/-!
Contract: the letters that a grammar is written in, and how each is found in a table.

Owns: `Alphabet`, the list of letters with their table positions, their order and their names, and
`Alphabet.Lists`, which says that a letter's position leads back to it.

Does not own: the split into terminals and nonterminals (`ShiftReduce.Symbol`).
-/

namespace ShiftReduce

/-- The letters of one kind.

`all` lists the letters that tables have a cell for, and `index` is the cell of a letter. A letter
need not be listed: it can then be written and compared, but no table has a cell of its own for it.
Sets of letters ascend by `order`, which need not be the order of `all`. -/
structure Alphabet (α : Type) where
  all : List α
  index : α → Nat
  order : α → α → Ordering
  name : α → String
  order_trans : Std.TransCmp order
  order_lawful : Std.LawfulEqCmp order

namespace Alphabet

variable {α : Type}

attribute [instance] Alphabet.order_trans Alphabet.order_lawful

/-- How many letters have a cell in tables. -/
def size (alphabet : Alphabet α) : Nat := alphabet.all.length

/-- The position of the letter in `all` leads back to it. -/
def Lists (alphabet : Alphabet α) (letter : α) : Prop :=
  alphabet.all[alphabet.index letter]? = some letter

instance [DecidableEq α] (alphabet : Alphabet α) (letter : α) :
    Decidable (alphabet.Lists letter) :=
  inferInstanceAs (Decidable (_ = _))

/-- The names of some letters with commas between them. -/
def names (alphabet : Alphabet α) (letters : List α) : String :=
  String.intercalate ", " (letters.map alphabet.name)

theorem Lists.mem {alphabet : Alphabet α} {letter : α} (listed : alphabet.Lists letter) :
    letter ∈ alphabet.all :=
  List.mem_of_getElem? listed

theorem Lists.index_lt {alphabet : Alphabet α} {letter : α} (listed : alphabet.Lists letter) :
    alphabet.index letter < alphabet.size :=
  (List.getElem?_eq_some_iff.mp listed).1

/-- Listed letters are told apart by their cells. -/
theorem Lists.index_injective {alphabet : Alphabet α} {left right : α}
    (leftListed : alphabet.Lists left) (rightListed : alphabet.Lists right)
    (same : alphabet.index left = alphabet.index right) : left = right :=
  Option.some.inj (leftListed.symm.trans (same ▸ rightListed))

theorem Lists.index_eq_iff {alphabet : Alphabet α} {left right : α}
    (leftListed : alphabet.Lists left) (rightListed : alphabet.Lists right) :
    alphabet.index left = alphabet.index right ↔ left = right := by
  constructor
  · exact leftListed.index_injective rightListed
  · intro same
    rw [same]

end Alphabet

end ShiftReduce
