import ShiftReduce.Grammar.Basic

/-!
Contract: rules with a marker in them.

Owns: `Item`, a rule together with how many symbols of its right side have been read; what comes
next in it; which items are complete and which belong to the kernel of a state; and its text.
-/

namespace ShiftReduce

/-- A rule of which the first `marker` symbols have been read. -/
structure Item where
  rule : RuleId
  marker : Nat
deriving DecidableEq, Repr

namespace Item

/-- Items are compared by rule, and by marker within a rule. -/
def order : Item → Item → Ordering :=
  compareLex (compareOn Item.rule) (compareOn Item.marker)

instance : Std.TransCmp order :=
  inferInstanceAs (Std.TransCmp (compareLex (compareOn Item.rule) (compareOn Item.marker)))

instance : Std.LawfulEqCmp order where
  compare_self := by
    intro item
    simp [order, compareLex, compareOn, Std.ReflCmp.compare_self]
  eq_of_compare := by
    intro left right same
    obtain ⟨sameRule, sameMarker⟩ := Ordering.then_eq_eq.mp same
    cases left
    cases right
    exact congr (congrArg Item.mk (Std.LawfulEqCmp.eq_of_compare sameRule))
      (Std.LawfulEqCmp.eq_of_compare sameMarker)

/-- Items are compared by marker, and by rule where the markers agree. -/
def markerOrder : Item → Item → Ordering :=
  compareLex (compareOn Item.marker) (compareOn Item.rule)

instance : Std.TransCmp markerOrder :=
  inferInstanceAs (Std.TransCmp (compareLex (compareOn Item.marker) (compareOn Item.rule)))

instance : Std.LawfulEqCmp markerOrder where
  compare_self := by
    intro item
    simp [markerOrder, compareLex, compareOn, Std.ReflCmp.compare_self]
  eq_of_compare := by
    intro left right same
    obtain ⟨sameMarker, sameRule⟩ := Ordering.then_eq_eq.mp same
    cases left
    cases right
    exact congr (congrArg Item.mk (Std.LawfulEqCmp.eq_of_compare sameRule))
      (Std.LawfulEqCmp.eq_of_compare sameMarker)

/-- The item with one more symbol read. -/
def advance (item : Item) : Item := { item with marker := item.marker + 1 }

variable {T N : Type}

/-- The symbol behind the marker, if there is one. -/
def next? (item : Item) (grammar : Grammar T N) : Option (Symbol T N) :=
  (grammar.rule item.rule).rhs[item.marker]?

/-- What stands behind the next symbol. -/
def suffix (item : Item) (grammar : Grammar T N) : List (Symbol T N) :=
  (grammar.rule item.rule).rhs.drop (item.marker + 1)

/-- The whole right side has been read. -/
def isComplete (item : Item) (grammar : Grammar T N) : Bool :=
  (grammar.rule item.rule).rhs.length ≤ item.marker

/-- The item belongs to the accepting rule. -/
def isAccepting (item : Item) (grammar : Grammar T N) : Bool :=
  item.rule = grammar.accepting

/-- Some symbol has been read, or the item is one of the accepting rule. -/
def isKernel (item : Item) (grammar : Grammar T N) : Bool :=
  0 < item.marker || item.isAccepting grammar

/-- The rule with a full stop at the marker. -/
def text (item : Item) (grammar : Grammar T N) : String :=
  let rule := grammar.rule item.rule
  let names := rule.rhs.map grammar.vocabulary.name
  " ".intercalate (grammar.vocabulary.nonterminals.name rule.lhs :: "->" ::
    names.take item.marker ++ "." :: names.drop item.marker)

end Item

end ShiftReduce
