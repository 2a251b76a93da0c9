import ShiftReduce.Alphabet.Numbered
import ShiftReduce.Proofs.Draft
import ShiftReduce.Proofs.Ranges.Sets
import ShiftReduce.Proofs.Table.Report

/-!
Contract: nothing that is derived from a grammar reaches beyond what is there.

Owns: `InRange`, by which all cells, rules, positions in rules and states that are looked up on the
way from a grammar to its tables and reports exist, and all terminals in sets are listed; and the
theorem that every grammar that can be built is one of which this holds.

Everything goes back to three facts: the symbols of rules are listed, items are positions in rules,
and transitions lead from state to state.
-/

namespace ShiftReduce

namespace Grammar

variable {T N : Type}

/-- The symbols that cells are looked up for have cells, and those of listed letters are apart. -/
structure SymbolsInRange (grammar : Grammar T N) : Prop where
  rules : ∀ rule ∈ grammar.rules, ∀ symbol ∈ .nonterminal rule.lhs :: rule.rhs,
    grammar.vocabulary.index symbol < grammar.vocabulary.cells symbol
  start : grammar.vocabulary.nonterminals.index grammar.start <
    grammar.vocabulary.nonterminals.size
  endMarker : grammar.vocabulary.terminals.index grammar.vocabulary.endMarker <
    grammar.vocabulary.terminals.size
  terminals : ∀ left ∈ grammar.vocabulary.terminals.all,
    ∀ right ∈ grammar.vocabulary.terminals.all, left ≠ right →
      grammar.vocabulary.terminals.index left ≠ grammar.vocabulary.terminals.index right
  nonterminals : ∀ left ∈ grammar.vocabulary.nonterminals.all,
    ∀ right ∈ grammar.vocabulary.nonterminals.all, left ≠ right →
      grammar.vocabulary.nonterminals.index left ≠ grammar.vocabulary.nonterminals.index right

variable [DecidableEq T] [DecidableEq N]

/-- Rounds find their cells, and what they and a study end with are sets of listed terminals. -/
structure SetsInRange (grammar : Grammar T N) : Prop where
  filling : ∀ sets, FirstFollow.filling.Visits grammar.rules.toList (.blank grammar.vocabulary)
    sets → sets.FirstInRange grammar
  following : ∀ filled sets,
    FirstFollow.Settles grammar.rules.toList (.blank grammar.vocabulary) filled →
      FirstFollow.following.Visits grammar.placements (filled.seeded grammar.start) sets →
        sets.FollowInRange grammar
  study : grammar.study.firstFollow.get.FirstInRange grammar ∧
    grammar.study.firstFollow.get.FollowInRange grammar

/-- Items are positions in rules, and transitions lead to states. -/
structure CollectionInRange (grammar : Grammar T N) : Prop where
  accepting : (grammar.rule? grammar.accepting).isSome
  rulesOf : ∀ nonterminal, ∀ id ∈ grammar.rulesOf nonterminal, (grammar.rule? id).isSome
  items : ∀ state, ∀ item ∈ grammar.automaton.items state, ∃ rule,
    grammar.rule? item.rule = some rule ∧ item.marker ≤ rule.rhs.length
  transitions : ∀ state symbol target,
    (symbol, target) ∈ grammar.automaton.transitions state →
      target < grammar.automaton.stateCount ∧
        grammar.vocabulary.index symbol < grammar.vocabulary.cells symbol

/-- What is looked up where lookaheads spread: the rest of an item behind the symbol that it
expects, its cells, and the ends of links. -/
structure LookaheadsInRange (grammar : Grammar T N) : Prop where
  closures : ∀ state < grammar.automaton.stateCount,
    (∀ seed ∈ grammar.automaton.kernel grammar state,
      grammar.closure [seed] ⊆ grammar.automaton.items state) ∧
    grammar.closure (grammar.automaton.kernel grammar state) ⊆ grammar.automaton.items state
  suffixes : ∀ state, ∀ item ∈ grammar.automaton.items state, ∀ symbol,
    item.next? grammar = some symbol →
      item.marker + 1 ≤ (grammar.rule item.rule).rhs.length ∧
        ∀ nonterminal, .nonterminal nonterminal ∈ item.suffix grammar →
          grammar.study.firstFollow.get.HasFirst nonterminal
  links : ∀ link ∈ grammar.study.propagation.get.links,
    link.source.state < grammar.automaton.stateCount ∧
      link.target.state < grammar.automaton.stateCount
  terminals : ∀ state item terminals,
    grammar.study.propagation.get.lookaheads? state item = some terminals →
      terminals ⊆ grammar.vocabulary.terminals.all

/-- A table has a row for each state, with a cell for each listed letter; what is entered there and
reported is about states, their items and listed terminals. -/
structure TableInRange (grammar : Grammar T N) (method : Method) : Prop where
  rows : (grammar.study.compiled method).table.actions.size = grammar.automaton.stateCount ∧
    (grammar.study.compiled method).table.gotos.size = grammar.automaton.stateCount
  actions : ∀ row ∈ (grammar.study.compiled method).table.actions,
    row.size = grammar.vocabulary.terminals.size
  gotos : ∀ row ∈ (grammar.study.compiled method).table.gotos,
    row.size = grammar.vocabulary.nonterminals.size
  follow : ∀ state, ∀ item ∈ grammar.automaton.completed grammar state,
    grammar.study.firstFollow.get.HasFollow (grammar.rule item.rule).lhs
  reductions : ∀ state item terminal, grammar.Reduces method state item terminal →
    state < grammar.automaton.stateCount ∧ terminal ∈ grammar.vocabulary.terminals.all ∧
      grammar.vocabulary.terminals.index terminal < grammar.vocabulary.terminals.size
  lost : ∀ lost ∈ (grammar.study.compiled method).conflicts.lost,
    lost.item ∈ grammar.automaton.items lost.state ∧
      lost.terminal ∈ grammar.vocabulary.terminals.all
  clashes : ∀ clash ∈ (grammar.study.compiled method).conflicts.clashes,
    (∀ item, item ∈ clash.nonkernel ∨ item ∈ clash.kernel →
      item ∈ grammar.automaton.items clash.state) ∧
    clash.lookaheads ⊆ grammar.vocabulary.terminals.all

/-- Nothing that is looked up on the way from the grammar to its tables and reports is missing. -/
structure InRange (grammar : Grammar T N) : Prop where
  symbols : grammar.SymbolsInRange
  sets : grammar.SetsInRange
  collection : grammar.CollectionInRange
  lookaheads : grammar.LookaheadsInRange
  tables : ∀ method, grammar.TableInRange method

variable {grammar : Grammar T N}

/-! ## Symbols -/

omit [DecidableEq T] [DecidableEq N] in
/-- A symbol that its cell leads back to has a cell. -/
theorem index_lt_of_listed {vocabulary : Vocabulary T N} {symbol : Symbol T N}
    (listed : vocabulary.Lists symbol) : vocabulary.index symbol < vocabulary.cells symbol := by
  cases symbol with
  | terminal letter => exact Alphabet.Lists.index_lt listed
  | nonterminal letter => exact Alphabet.Lists.index_lt listed

omit [DecidableEq T] [DecidableEq N] in
theorem symbolsInRange (grammar : Grammar T N) : grammar.SymbolsInRange where
  rules rule member symbol occurs := by
    apply index_lt_of_listed
    rcases List.mem_cons.mp occurs with rfl | inRhs
    · exact grammar.lhs_listed rule member
    · exact grammar.rhs_listed rule member symbol inRhs
  start := grammar.start_listed.index_lt
  endMarker := grammar.endMarker_listed.index_lt
  terminals left isLeft right isRight differ same :=
    differ ((grammar.terminals_listed left isLeft).index_injective
      (grammar.terminals_listed right isRight) same)
  nonterminals left isLeft right isRight differ same :=
    differ ((grammar.nonterminals_listed left isLeft).index_injective
      (grammar.nonterminals_listed right isRight) same)

/-! ## Sets and items -/

theorem setsInRange (grammar : Grammar T N) : grammar.SetsInRange where
  filling _ visits := FirstFollow.firstInRange_of_visits visits
  following _ _ settles visits := FirstFollow.followInRange_of_visits settles visits
  study := by
    rw [Study.firstFollow_study]
    exact ⟨grammar.firstInRange_firstFollow, grammar.isHeeding_firstFollow.followInRange⟩

omit [DecidableEq T] [DecidableEq N] in
theorem rule?_of_lt {id : RuleId} (bound : id < grammar.rules.size) :
    grammar.rule? id = some (grammar.rule id) :=
  rule?_eq_some_iff.mpr ⟨bound, rfl⟩

theorem collectionInRange (grammar : Grammar T N) : grammar.CollectionInRange where
  accepting := Option.isSome_of_eq_some (rule?_of_lt grammar.accepting_lt)
  rulesOf _ _ isOf := Option.isSome_of_eq_some (rule?_of_lt (mem_rulesOf.mp isOf).1)
  items state item isItem := by
    obtain ⟨bound, within⟩ := mem_allItems.mp (items_subset_allItems isItem)
    exact ⟨grammar.rule item.rule, rule?_of_lt bound, within⟩
  transitions state symbol target transition := by
    obtain ⟨⟨item, _, expects⟩, bound, _⟩ :=
      goto?_eq_some_iff.mp (goto?_of_mem_transitions transition)
    exact ⟨bound, index_lt_of_listed (listed_of_next? expects).1⟩

/-! ## Lookaheads -/

theorem lookaheadsInRange (grammar : Grammar T N) : grammar.LookaheadsInRange where
  closures state bound := by
    refine ⟨fun seed isSeed item implied => ?_, ?_⟩
    · exact items_of_mem_closure_singleton (List.mem_filter.mp isSeed).1 implied
    · rw [closure_kernel bound]
      exact List.Subset.refl _
  suffixes state item _ symbol expects := by
    rw [Study.firstFollow_study]
    refine ⟨(List.getElem?_eq_some_iff.mp expects).1, fun nonterminal occurs => ?_⟩
    have heeding := grammar.isHeeding_firstFollow
    exact FirstFollow.hasFirst_of_listed rfl heeding.nullable_size heeding.first_size
      ((listed_of_next? expects).2 _ occurs)
  links link isLink := by
    rw [Study.propagation_study, links_propagation] at isLink
    have carries := mem_allLinks.mp isLink
    have targetMem := (List.mem_filter.mp carries.target_mem).1
    have sourceMem := (List.mem_filter.mp carries.1).1
    exact ⟨lt_stateCount_of_mem sourceMem, lt_stateCount_of_mem targetMem⟩
  terminals state item terminals found terminal member := by
    rw [Study.propagation_study] at found
    by_cases isItem : item ∈ grammar.automaton.items state
    · obtain ⟨others, othersFound, merged⟩ := exists_lookaheads? isItem
      rw [found] at othersFound
      cases othersFound
      obtain ⟨_, _, follows⟩ := (merged terminal).mp member
      exact follows.listed.mem
    · rw [lookaheads?_eq_none isItem] at found
      cases found

/-! ## Tables and reports -/

theorem tableInRange (grammar : Grammar T N) (method : Method) : grammar.TableInRange method where
  rows := by
    rw [table_study]
    constructor
    · simp [driver, table]
    · simp [driver, table]
  actions row isRow := by
    rw [table_study] at isRow
    obtain ⟨state, _, rfl⟩ : ∃ state ∈ List.range grammar.automaton.stateCount,
        (grammar.actionRow grammar.automaton (grammar.study.reductionLookaheads method)
          state).toArray = row := by
      simpa [driver, table] using isRow
    simp [actionRow, Alphabet.size]
  gotos row isRow := by
    rw [table_study] at isRow
    obtain ⟨state, _, rfl⟩ : ∃ state ∈ List.range grammar.automaton.stateCount,
        (grammar.gotoRow grammar.automaton state).toArray = row := by
      simpa [driver, table] using isRow
    simp [gotoRow, Alphabet.size]
  follow state item completed := by
    rw [Study.firstFollow_study]
    have isItem := items_subset_allItems (mem_completed_iff.mp completed).1
    have bound := (mem_allItems.mp isItem).1
    exact grammar.isHeeding_firstFollow.hasFollow (grammar.lhs_listed _ (rule_mem bound))
  reductions state item terminal reduces := by
    have isItem := (mem_completed_iff.mp reduces.completed).1
    exact ⟨lt_stateCount_of_mem isItem, reduces.listed.mem, reduces.listed.index_lt⟩
  lost lost isLost := by
    have reduces := (mem_lost_iff.mp isLost).1.1
    exact ⟨(mem_completed_iff.mp reduces.completed).1, reduces.listed.mem⟩
  clashes clash isClash := by
    obtain ⟨_, same⟩ := competes_of_mem_clashes isClash
    constructor
    · intro item isPart
      rw [same] at isPart
      exact (mem_completed_iff.mp (mem_finished.mp isPart)).1
    · intro terminal shared
      rw [same] at shared
      obtain ⟨_, _, _, reduces, _⟩ := mem_contestedTerminals.mp shared
      exact reduces.listed.mem

/-! ## Grammars that are built -/

theorem inRange (grammar : Grammar T N) : grammar.InRange where
  symbols := grammar.symbolsInRange
  sets := grammar.setsInRange
  collection := grammar.collectionInRange
  lookaheads := grammar.lookaheadsInRange
  tables := grammar.tableInRange

/-- Whatever has been declared: if a grammar can be built from it, the grammar has the declared
rules, and nothing that is derived from it reaches beyond what is there. -/
theorem inRange_of_build {vocabulary : Vocabulary T N} {start : N}
    {declarations : List (Declaration T N)} {grammar : Grammar T N}
    (built : (Draft.ofDeclarations vocabulary start declarations).build = .ok grammar) :
    grammar.vocabulary = vocabulary ∧ grammar.start = start ∧
      grammar.rules.toList = declarations.filterMap Declaration.rule? ∧ grammar.InRange := by
  obtain ⟨draftVocabulary, draftStart, draftRules⟩ :=
    Draft.ofDeclarations_keeps vocabulary start declarations
  obtain ⟨sameVocabulary, sameStart, sameRules⟩ := Draft.build_keeps built
  refine ⟨sameVocabulary.trans draftVocabulary, sameStart.trans draftStart, ?_, grammar.inRange⟩
  rw [sameRules, draftRules]

/-- Two listed letters of each kind. -/
def strokeVocabulary : Vocabulary Nat Nat where
  terminals := Numbering.alphabet { names := #["x", "end"], listed := 2 }
  nonterminals := Numbering.alphabet { names := #["S", "L", "M"], listed := 2 }
  endMarker := 1

/-- `S -> L`, `L -> L x` and `L -> ε`; and `M`, which no table has a cell for, is declared without
any rule. -/
def strokeDeclarations : List (Declaration Nat Nat) :=
  [.rule 0 [.nonterminal 1], .define 2, .rule 1 [.nonterminal 1, .terminal 0], .rule 1 []]

theorem inRange_strokes :
    ∃ grammar, (Draft.ofDeclarations strokeVocabulary 0 strokeDeclarations).build = .ok grammar ∧
      grammar.vocabulary = strokeVocabulary ∧ grammar.start = 0 ∧
      grammar.rules.toList = strokeDeclarations.filterMap Declaration.rule? ∧
      grammar.InRange := by
  have faultless : (Draft.ofDeclarations strokeVocabulary 0 strokeDeclarations).fault? = none := by
    decide +kernel
  obtain ⟨grammar, built⟩ := Draft.exists_build faultless
  exact ⟨grammar, built, inRange_of_build built⟩

end Grammar

end ShiftReduce
