import ShiftReduce.Automaton.Basic

/-!
Contract: the members of closures and of the sets that symbols lead to.

Owns: closure as reachability through implied items, for any seeds; the items of rules, which
closures and advances do not leave; and which items a symbol carries over.
-/

namespace ShiftReduce

namespace Grammar

variable {T N : Type} {grammar : Grammar T N}

/-! ## Items of rules -/

theorem mem_allItems {item : Item} :
    item ∈ grammar.allItems ↔
      item.rule < grammar.rules.size ∧ item.marker ≤ (grammar.rule item.rule).rhs.length := by
  rcases item with ⟨rule, marker⟩
  simp only [allItems, List.mem_flatMap, List.mem_map, List.mem_range, mem_ruleIds, Item.mk.injEq]
  constructor
  · intro listed
    rcases listed with ⟨id, bound, position, inside, rfl, rfl⟩
    exact ⟨bound, Nat.le_of_lt_succ inside⟩
  · intro fits
    rcases fits with ⟨bound, inside⟩
    exact ⟨rule, bound, marker, Nat.lt_succ_of_le inside, rfl, rfl⟩

/-- An item that expects a symbol still has to read the symbol and what stands behind it. -/
theorem drop_of_next? {item : Item} {symbol : Symbol T N}
    (expects : item.next? grammar = some symbol) :
    (grammar.rule item.rule).rhs.drop item.marker = symbol :: item.suffix grammar := by
  obtain ⟨inside, same⟩ := List.getElem?_eq_some_iff.mp expects
  rw [Item.suffix, ← same, ← List.drop_eq_getElem_cons inside]

/-- An item that expects a symbol splits the right side of its rule there. -/
theorem rhs_of_next? {item : Item} {symbol : Symbol T N}
    (expects : item.next? grammar = some symbol) :
    (grammar.rule item.rule).rhs =
      (grammar.rule item.rule).rhs.take item.marker ++ symbol :: item.suffix grammar := by
  rw [← drop_of_next? expects, List.take_append_drop]

/-- What an item still has to read, by its first symbol and the others. -/
theorem expects_of_drop {item : Item} {symbol : Symbol T N} {rest : List (Symbol T N)}
    (spelled : (grammar.rule item.rule).rhs.drop item.marker = symbol :: rest) :
    item.next? grammar = some symbol ∧ item.suffix grammar = rest := by
  rw [Item.next?, Item.suffix, ← List.head?_drop, ← List.tail_drop, spelled]
  exact ⟨rfl, rfl⟩

theorem rule_lt_of_next? {item : Item} {symbol : Symbol T N}
    (expects : item.next? grammar = some symbol) : item.rule < grammar.rules.size := by
  by_cases bound : item.rule < grammar.rules.size
  · exact bound
  · have empty : grammar.rule item.rule = ⟨grammar.start, []⟩ := by
      simp [Grammar.rule, Grammar.rule?, bound]
    simp [Item.next?, empty] at expects

theorem rule_mem_of_next? {item : Item} {symbol : Symbol T N}
    (expects : item.next? grammar = some symbol) : grammar.rule item.rule ∈ grammar.rules :=
  rule_mem (rule_lt_of_next? expects)

/-- The symbol that an item expects is listed, and so are those behind it. -/
theorem listed_of_next? {item : Item} {symbol : Symbol T N}
    (expects : item.next? grammar = some symbol) :
    grammar.vocabulary.Lists symbol ∧
      ∀ other ∈ item.suffix grammar, grammar.vocabulary.Lists other :=
  listed_of_rhs (rule_mem_of_next? expects) (rhs_of_next? expects)

theorem advance_mem_allItems {item : Item} {symbol : Symbol T N}
    (expects : item.next? grammar = some symbol) : item.advance ∈ grammar.allItems := by
  have bound : item.rule < grammar.rules.size := rule_lt_of_next? expects
  have inside := (List.getElem?_eq_some_iff.mp expects).1
  exact mem_allItems.mpr ⟨bound, inside⟩

theorem startItem_mem_allItems : grammar.startItem ∈ grammar.allItems :=
  mem_allItems.mpr ⟨grammar.accepting_lt, Nat.zero_le _⟩

/-- No right side holds the start symbol, so no item expects it. -/
theorem next?_ne_start {item : Item} : item.next? grammar ≠ some (.nonterminal grammar.start) := by
  intro expects
  have occurs : Symbol.nonterminal grammar.start ∈ (grammar.rule item.rule).rhs :=
    List.mem_of_getElem? expects
  exact grammar.start_unused _ (rule_mem_of_next? expects) occurs

theorem next?_ne_endMarker {item : Item} :
    item.next? grammar ≠ some (.terminal grammar.vocabulary.endMarker) := by
  intro expects
  have occurs : Symbol.terminal grammar.vocabulary.endMarker ∈ (grammar.rule item.rule).rhs :=
    List.mem_of_getElem? expects
  exact grammar.endMarker_unused _ (rule_mem_of_next? expects) occurs

variable [DecidableEq N]

/-! ## Closures -/

theorem mem_initialItems {nonterminal : N} {item : Item} :
    item ∈ grammar.initialItems nonterminal ↔
      item.marker = 0 ∧ item.rule < grammar.rules.size ∧
        (grammar.rule item.rule).lhs = nonterminal := by
  rcases item with ⟨rule, marker⟩
  simp only [initialItems, List.mem_map, mem_rulesOf, Item.mk.injEq]
  constructor
  · intro initial
    rcases initial with ⟨id, belongs, rfl, rfl⟩
    exact ⟨rfl, belongs⟩
  · intro fits
    rcases fits with ⟨rfl, belongs⟩
    exact ⟨rule, belongs, rfl, rfl⟩

theorem mem_implied {item new : Item} :
    new ∈ grammar.implied item ↔ ∃ nonterminal,
      item.next? grammar = some (.nonterminal nonterminal) ∧
        new ∈ grammar.initialItems nonterminal := by
  unfold implied
  split
  · next nonterminal expects =>
      constructor
      · exact fun member => ⟨nonterminal, expects, member⟩
      · intro implied
        rcases implied with ⟨other, expectsOther, member⟩
        rw [expects] at expectsOther
        cases expectsOther
        exact member
  · next other =>
      constructor
      · exact fun impossible => nomatch impossible
      · intro implied
        rcases implied with ⟨nonterminal, expects, _⟩
        exact absurd expects (other nonterminal)

/-- An item that expects the left side of a rule implies the rule. -/
theorem implied_of_next? {item : Item} {id : RuleId} (bound : id < grammar.rules.size)
    (expects : item.next? grammar = some (.nonterminal (grammar.rule id).lhs)) :
    ⟨id, 0⟩ ∈ grammar.implied item :=
  mem_implied.mpr ⟨_, expects, mem_initialItems.mpr ⟨rfl, bound, rfl⟩⟩

/-- An item that implies another still has to read the left side of the other's rule, of which
nothing has been read. -/
theorem drop_of_implied {item new : Item} (implied : new ∈ grammar.implied item) :
    grammar.rule new.rule ∈ grammar.rules ∧
      (grammar.rule item.rule).rhs.drop item.marker =
        .nonterminal (grammar.rule new.rule).lhs :: item.suffix grammar ∧
      (grammar.rule new.rule).rhs.drop new.marker = (grammar.rule new.rule).rhs := by
  obtain ⟨nonterminal, expects, initial⟩ := mem_implied.mp implied
  obtain ⟨unread, bound, lhs⟩ := mem_initialItems.mp initial
  rw [← lhs] at expects
  exact ⟨rule_mem bound, drop_of_next? expects, by rw [unread, List.drop_zero]⟩

/-- No item expects the start symbol, so none implies the accepting rule. -/
theorem rule_ne_accepting_of_implied {item new : Item} (implied : new ∈ grammar.implied item) :
    new.rule ≠ grammar.accepting := by
  obtain ⟨nonterminal, expects, member⟩ := mem_implied.mp implied
  obtain ⟨_, _, lhs⟩ := mem_initialItems.mp member
  intro accepting
  have isStart : grammar.start = nonterminal := by
    rw [← grammar.acceptingRule_lhs, acceptingRule, ← accepting, lhs]
  exact next?_ne_start (isStart ▸ expects)

theorem not_isKernel_of_implied {item new : Item} (implied : new ∈ grammar.implied item) :
    new.isKernel grammar = false := by
  obtain ⟨nonterminal, _, member⟩ := mem_implied.mp implied
  simp [Item.isKernel, Item.isAccepting, (mem_initialItems.mp member).1,
    rule_ne_accepting_of_implied implied]

theorem implied_subset_allItems {item new : Item} (implied : new ∈ grammar.implied item) :
    new ∈ grammar.allItems := by
  obtain ⟨nonterminal, _, member⟩ := mem_implied.mp implied
  obtain ⟨markerZero, bound, _⟩ := mem_initialItems.mp member
  exact mem_allItems.mpr ⟨bound, by rw [markerZero]; exact Nat.zero_le _⟩

/-- What is implied is one of the initial items of all rules. -/
theorem initial_of_implied {item new : Item} (implied : new ∈ grammar.implied item) :
    new ∈ grammar.ruleIds.map fun id => (⟨id, 0⟩ : Item) := by
  obtain ⟨nonterminal, _, member⟩ := mem_implied.mp implied
  obtain ⟨markerZero, bound, _⟩ := mem_initialItems.mp member
  exact List.mem_map.mpr ⟨new.rule, mem_ruleIds.mpr bound, by rw [← markerZero]⟩

/-- A closure holds what its seeds lead to, whatever they are. -/
theorem mem_closure_iff {items : List Item} {item : Item} :
    item ∈ grammar.closure items ↔ Exploration.Reachable grammar.implied items item := by
  unfold closure
  rw [Ascending.mem_ofList]
  apply Exploration.mem_explore_iff (items ++ grammar.ruleIds.map fun id => ⟨id, 0⟩)
  · intro seed isSeed
    exact List.mem_append_left _ isSeed
  · intro source _ target implied
    exact List.mem_append_right _ (initial_of_implied implied)
  · simp [ruleIds]

theorem isAscending_closure {items : List Item} :
    Ascending.IsAscending Item.order (grammar.closure items) :=
  Ascending.isAscending_ofList _

theorem closure_of_seed {items : List Item} {item : Item} (isSeed : item ∈ items) :
    item ∈ grammar.closure items :=
  mem_closure_iff.mpr (.seed isSeed)

theorem closure_of_implied {items : List Item} {item new : Item}
    (member : item ∈ grammar.closure items) (implied : new ∈ grammar.implied item) :
    new ∈ grammar.closure items :=
  mem_closure_iff.mpr (.step (mem_closure_iff.mp member) implied)

/-- An item of a closure is a seed or implied by another item of the closure. -/
theorem closure_cases {items : List Item} {item : Item} (member : item ∈ grammar.closure items) :
    item ∈ items ∨ ∃ source ∈ grammar.closure items, item ∈ grammar.implied source := by
  cases mem_closure_iff.mp member with
  | seed isSeed => exact .inl isSeed
  | step reached implied => exact .inr ⟨_, mem_closure_iff.mpr reached, implied⟩

theorem closure_subset_allItems {items : List Item} (fit : ∀ item ∈ items, item ∈ grammar.allItems)
    {item : Item} (member : item ∈ grammar.closure items) : item ∈ grammar.allItems := by
  rcases closure_cases member with isSeed | ⟨_, _, implied⟩
  · exact fit item isSeed
  · exact implied_subset_allItems implied

/-- Kernel items of a closure are seeds. -/
theorem mem_of_isKernel_of_mem_closure {items : List Item} {item : Item}
    (member : item ∈ grammar.closure items) (kernel : item.isKernel grammar = true) :
    item ∈ items := by
  rcases closure_cases member with isSeed | ⟨source, _, implied⟩
  · exact isSeed
  · simp [not_isKernel_of_implied implied] at kernel

/-- A set that is the closure of kernel items is the closure of its kernel. -/
theorem closure_filter_isKernel {items : List Item}
    (kernel : ∀ item ∈ items, item.isKernel grammar = true) :
    grammar.closure ((grammar.closure items).filter fun item => item.isKernel grammar) =
      grammar.closure items := by
  apply Ascending.eq_of_mem_iff isAscending_closure isAscending_closure
  intro item
  rw [mem_closure_iff, mem_closure_iff]
  constructor
  · intro reached
    apply reached.of_seeds
    intro seed isSeed
    exact mem_closure_iff.mp (List.mem_filter.mp isSeed).1
  · intro reached
    apply reached.of_seeds
    intro seed isSeed
    apply Exploration.Reachable.seed
    exact List.mem_filter.mpr ⟨closure_of_seed isSeed, kernel seed isSeed⟩

/-! ## The set that a symbol leads to -/

variable [DecidableEq T]

/-- The items that a symbol carries over: those that expect it, advanced. -/
def carried (grammar : Grammar T N) (items : ItemSet) (symbol : Symbol T N) : List Item :=
  (items.filter fun item => item.next? grammar = some symbol).map Item.advance

theorem goto_eq_closure_carried (items : ItemSet) (symbol : Symbol T N) :
    grammar.goto items symbol = grammar.closure (grammar.carried items symbol) := rfl

theorem mem_carried {items : ItemSet} {symbol : Symbol T N} {item : Item} :
    item ∈ grammar.carried items symbol ↔
      ∃ source ∈ items, source.next? grammar = some symbol ∧ source.advance = item := by
  simp [carried, and_assoc]

theorem isKernel_of_mem_carried {items : ItemSet} {symbol : Symbol T N} {item : Item}
    (member : item ∈ grammar.carried items symbol) : item.isKernel grammar = true := by
  obtain ⟨source, _, _, rfl⟩ := mem_carried.mp member
  simp [Item.isKernel, Item.advance]

theorem carried_subset_allItems {items : ItemSet} {symbol : Symbol T N} {item : Item}
    (member : item ∈ grammar.carried items symbol) : item ∈ grammar.allItems := by
  obtain ⟨source, _, expects, rfl⟩ := mem_carried.mp member
  exact advance_mem_allItems expects

theorem goto_subset_allItems {items : ItemSet} {symbol : Symbol T N} {item : Item}
    (member : item ∈ grammar.goto items symbol) : item ∈ grammar.allItems :=
  closure_subset_allItems (fun _ => carried_subset_allItems) member

omit [DecidableEq N] [DecidableEq T] in
theorem mem_expectedSymbols {items : ItemSet} {symbol : Symbol T N} :
    symbol ∈ grammar.expectedSymbols items ↔ ∃ item ∈ items, item.next? grammar = some symbol := by
  simp [expectedSymbols, Ascending.mem_ofList]

end Grammar

end ShiftReduce
