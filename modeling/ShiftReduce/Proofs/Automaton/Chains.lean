import Mathlib.Data.List.Chain
import ShiftReduce.Proofs.Automaton.Items
import ShiftReduce.Proofs.Exploration

/-!
Contract: states are the sets of valid items, validity being a chain of rules.

Owns: `Descends`, by which items follow one another from the accepting rule down to an item, each
with its marker in front of the left side of the next, and spell a string with what they have read;
the agreement of chains with `Valid`; and the theorem that a string leads to the state of the items
that chains descend to, and that every list which is scanned on the way is scanned to its end.
-/

namespace ShiftReduce

/-- The symbols in front of the marker. -/
def Item.read {T N : Type} (item : Item) (grammar : Grammar T N) : List (Symbol T N) :=
  (grammar.rule item.rule).rhs.take item.marker

namespace Grammar

variable {T N : Type} {grammar : Grammar T N} {access : List (Symbol T N)} {item : Item}

/-- The upper item expects the left side of the lower item's rule. -/
def IsAbove (grammar : Grammar T N) (upper lower : Item) : Prop :=
  upper.next? grammar = some (.nonterminal (grammar.rule lower.rule).lhs)

/-- The items lead from the accepting rule down, and have read the string. -/
structure Descends (grammar : Grammar T N) (access : List (Symbol T N)) (chain : List Item) :
    Prop where
  /-- The markers stand within rules of the grammar. -/
  fits : ∀ item ∈ chain, item ∈ grammar.allItems
  starts : chain.head?.map Item.rule = some grammar.accepting
  hangs : chain.IsChain grammar.IsAbove
  spells : access = chain.flatMap fun item => item.read grammar

/-- A chain of items descends to the item. -/
def IsValid (grammar : Grammar T N) (access : List (Symbol T N)) (item : Item) : Prop :=
  ∃ uppers, grammar.Descends access (uppers ++ [item])

/-! ## Chains and validity -/

theorem read_of_unread (unread : item.marker = 0) : item.read grammar = [] := by
  rw [Item.read, unread, List.take_zero]

theorem read_advance {symbol : Symbol T N} (expects : item.next? grammar = some symbol) :
    item.advance.read grammar = item.read grammar ++ [symbol] := by
  have next : (grammar.rule item.rule).rhs[item.marker]? = some symbol := expects
  show (grammar.rule item.rule).rhs.take (item.marker + 1) = _
  rw [List.take_add_one, next]
  rfl

theorem isValid_startItem : grammar.IsValid [] grammar.startItem := by
  refine ⟨[], ?_, rfl, List.isChain_singleton _, ?_⟩
  · intro item member
    rw [List.mem_singleton.mp member]
    exact startItem_mem_allItems
  · rw [List.nil_append, List.flatMap_singleton, read_of_unread rfl]

theorem IsValid.implied [DecidableEq N] {new : Item} (valid : grammar.IsValid access item)
    (implied : new ∈ grammar.implied item) : grammar.IsValid access new := by
  rcases valid with ⟨uppers, descends⟩
  obtain ⟨nonterminal, expects, initial⟩ := mem_implied.mp implied
  obtain ⟨unread, bound, rfl⟩ := mem_initialItems.mp initial
  refine ⟨uppers ++ [item], ?_, ?_, ?_, ?_⟩
  · intro member isMember
    rcases List.mem_append.mp isMember with old | isNew
    · exact descends.fits member old
    · rw [List.mem_singleton.mp isNew]
      exact implied_subset_allItems implied
  · rw [List.head?_append_of_ne_nil _ (by simp)]
    exact descends.starts
  · rw [List.append_assoc]
    have isAbove : grammar.IsAbove item new := expects
    exact List.isChain_append_cons_cons.mpr
      ⟨descends.hangs, isAbove, List.isChain_singleton new⟩
  · rw [List.flatMap_append, ← descends.spells, List.flatMap_singleton, read_of_unread unread,
      List.append_nil]

theorem IsValid.advance {symbol : Symbol T N} (valid : grammar.IsValid access item)
    (expects : item.next? grammar = some symbol) :
    grammar.IsValid (access ++ [symbol]) item.advance := by
  rcases valid with ⟨uppers, descends⟩
  refine ⟨uppers, ?_, ?_, ?_, ?_⟩
  · intro member isMember
    rcases List.mem_append.mp isMember with isUpper | isAdvanced
    · exact descends.fits member (List.mem_append_left _ isUpper)
    · rw [List.mem_singleton.mp isAdvanced]
      exact advance_mem_allItems expects
  · have starts := descends.starts
    cases uppers with
    | nil => exact starts
    | cons upper others => exact starts
  · -- The link to the last item looks at its rule only.
    obtain ⟨uppersHang, _, last⟩ := List.isChain_append.mp descends.hangs
    refine List.isChain_append.mpr ⟨uppersHang, List.isChain_singleton _, ?_⟩
    intro upper isLast lower isHead
    cases isHead
    exact last upper isLast item rfl
  · rw [List.flatMap_append, List.flatMap_singleton, read_advance expects, ← List.append_assoc,
      ← List.flatMap_singleton (fun item : Item => item.read grammar), ← List.flatMap_append,
      ← descends.spells]

theorem Valid.isValid [DecidableEq N] (valid : grammar.Valid access item) :
    grammar.IsValid access item := by
  induction valid with
  | start => exact isValid_startItem
  | implied _ implied inductionHypothesis => exact inductionHypothesis.implied implied
  | advance _ expects inductionHypothesis => exact inductionHypothesis.advance expects

/-- A rule whose start is valid is valid wherever the marker stands. -/
theorem Valid.read [DecidableEq N] {id : RuleId} {marker : Nat}
    (valid : grammar.Valid access ⟨id, 0⟩) (within : marker ≤ (grammar.rule id).rhs.length) :
    grammar.Valid (access ++ (⟨id, marker⟩ : Item).read grammar) ⟨id, marker⟩ := by
  induction marker with
  | zero =>
      rw [read_of_unread rfl, List.append_nil]
      exact valid
  | succ marker inductionHypothesis =>
      have shorter := inductionHypothesis (Nat.le_of_succ_le within)
      have expects : (⟨id, marker⟩ : Item).next? grammar = some (grammar.rule id).rhs[marker] :=
        List.getElem?_eq_getElem within
      have longer := shorter.advance expects
      rw [List.append_assoc, ← read_advance expects] at longer
      exact longer

/-- The induction is on the chain, from its lower end. -/
theorem Descends.valid [DecidableEq N] {uppers : List Item}
    (descends : grammar.Descends access (uppers ++ [item])) : grammar.Valid access item := by
  induction uppers using List.reverseRecOn generalizing access item with
  | nil =>
      have fits := mem_allItems.mp (descends.fits item List.mem_cons_self)
      have accepting : item.rule = grammar.accepting := Option.some.inj descends.starts
      have initial : grammar.Valid [] ⟨item.rule, 0⟩ := accepting ▸ .start
      rw [descends.spells, List.nil_append, List.flatMap_singleton]
      exact initial.read fits.2
  | append_singleton others upper inductionHypothesis =>
      have fits := mem_allItems.mp (descends.fits item (by simp))
      have hangs := descends.hangs
      rw [List.append_assoc] at hangs
      obtain ⟨othersHang, isAbove, _⟩ := List.isChain_append_cons_cons.mp hangs
      have upperDescends : grammar.Descends
          ((others ++ [upper]).flatMap fun item => item.read grammar) (others ++ [upper]) := by
        refine ⟨fun member isMember => ?_, ?_, othersHang, rfl⟩
        · exact descends.fits member (List.mem_append_left _ isMember)
        · have starts := descends.starts
          rwa [List.head?_append_of_ne_nil _ (by simp)] at starts
      have initial := (inductionHypothesis upperDescends).implied (implied_of_next? fits.1 isAbove)
      rw [descends.spells, List.flatMap_append, List.flatMap_singleton]
      exact initial.read fits.2

theorem valid_iff_isValid [DecidableEq N] :
    grammar.Valid access item ↔ grammar.IsValid access item := by
  constructor
  · exact Valid.isValid
  · intro isValid
    rcases isValid with ⟨uppers, descends⟩
    exact descends.valid

/-! ## States and valid items -/

variable [DecidableEq N] [DecidableEq T] {state : Nat}

/-- A string that leads to a state has a valid item: the start item, or one that has just read the
last symbol. -/
theorem exists_valid_of_walk (walked : grammar.automaton.walk 0 access = some state) :
    ∃ item, grammar.Valid access item := by
  induction access using List.reverseRecOn generalizing state with
  | nil => exact ⟨grammar.startItem, .start⟩
  | append_singleton before symbol inductionHypothesis =>
      rw [walk_concat] at walked
      obtain ⟨middle, walkedBefore, edge⟩ := Option.bind_eq_some_iff.mp walked
      obtain ⟨item, member, expects⟩ := (goto?_eq_some_iff.mp edge).1
      exact ⟨item.advance, (valid_of_walk walkedBefore member).advance expects⟩

theorem isAscending_items (bound : state < grammar.automaton.stateCount) :
    Ascending.IsAscending Item.order (grammar.automaton.items state) := by
  obtain ⟨seeds, equal, _⟩ := exists_items_eq_closure bound
  rw [equal]
  exact isAscending_closure

theorem isAscending_of_mem_itemSets {items : ItemSet} (isSet : items ∈ grammar.itemSets) :
    Ascending.IsAscending Item.order items := by
  obtain ⟨state, bound, rfl⟩ := exists_state_of_mem isSet
  exact isAscending_items bound

theorem lt_stateCount_of_walk (walked : grammar.automaton.walk 0 access = some state) :
    state < grammar.automaton.stateCount := by
  obtain ⟨item, valid⟩ := exists_valid_of_walk walked
  exact lt_stateCount_of_mem ((valid_iff_of_walk walked).mp valid)

/-- The state that a string leads to is the one of its valid items. -/
theorem walk_eq_some_iff :
    grammar.automaton.walk 0 access = some state ↔
      (∃ item, grammar.Valid access item) ∧ state < grammar.automaton.stateCount ∧
        ∀ item, item ∈ grammar.automaton.items state ↔ grammar.Valid access item := by
  constructor
  · intro walked
    exact ⟨exists_valid_of_walk walked, lt_stateCount_of_walk walked,
      fun item => (valid_iff_of_walk walked).symm⟩
  · intro holds
    rcases holds with ⟨⟨item, valid⟩, bound, exact⟩
    obtain ⟨other, walked, _⟩ := valid.exists_walk
    have otherBound := lt_stateCount_of_walk walked
    have sameItems : grammar.automaton.items state = grammar.automaton.items other := by
      refine Ascending.eq_of_mem_iff (isAscending_items bound) (isAscending_items otherBound) ?_
      intro member
      exact (exact member).trans (valid_iff_of_walk walked)
    rw [items_injective bound otherBound sameItems]
    exact walked

/-! ## Scans -/

omit [DecidableEq T] in
/-- A closure is what a scan over its growing list of items ends with, in ascending order. -/
theorem exists_closure_eq (seeds : List Item) :
    ∃ found, Exploration.Finishes grammar.implied 0 (Exploration.addFresh [] seeds) found ∧
      grammar.closure seeds = Ascending.ofList Item.order found := by
  refine ⟨_, ?_, rfl⟩
  apply Exploration.finishes_explore (seeds ++ grammar.ruleIds.map fun id => ⟨id, 0⟩)
  · intro seed isSeed
    exact List.mem_append_left _ isSeed
  · intro source _ target implied
    exact List.mem_append_right _ (initial_of_implied implied)
  · simp [ruleIds]

variable (grammar) in
/-- The states are what a scan over their growing list ends with. -/
theorem finishes_itemSets :
    Exploration.Finishes (fun items => (grammar.successors items).map Prod.snd) 0
      [grammar.startItems] grammar.itemSets := by
  have seeds : Exploration.addFresh [] [grammar.startItems] = [grammar.startItems] := by
    simp [Exploration.addFresh]
  rw [← seeds]
  apply Exploration.finishes_explore grammar.allItems.sublists
  · intro seed isSeed
    rw [List.mem_singleton.mp isSeed]
    exact startItems_mem_sublists
  · intro source _ target leads
    exact mem_sublists_of_leads (mem_successors.mp leads)
  · simp

/-- A string can be walked from the start exactly if a chain of rules makes some item valid for it,
and the state that it leads to is the one whose items are exactly the valid ones. The scans by which
the states and their closures come about end for every grammar. -/
theorem states_are_valid_items (grammar : Grammar T N) :
    (∀ access, (∃ state, grammar.automaton.walk 0 access = some state) ↔
      ∃ item, grammar.IsValid access item) ∧
    (∀ access state, grammar.automaton.walk 0 access = some state ↔
      (∃ item, grammar.IsValid access item) ∧ state < grammar.automaton.stateCount ∧
        ∀ item, item ∈ grammar.automaton.items state ↔ grammar.IsValid access item) ∧
    (∀ seeds, ∃ found,
      Exploration.Finishes grammar.implied 0 (Exploration.addFresh [] seeds) found ∧
        grammar.closure seeds = Ascending.ofList Item.order found) ∧
    Exploration.Finishes (fun items => (grammar.successors items).map Prod.snd) 0
      [grammar.startItems] grammar.automaton.states.toList := by
  simp only [← valid_iff_isValid]
  refine ⟨fun access => ⟨?_, ?_⟩, fun access state => walk_eq_some_iff, exists_closure_eq, ?_⟩
  · intro walked
    rcases walked with ⟨state, walked⟩
    exact exists_valid_of_walk walked
  · intro valid
    rcases valid with ⟨item, valid⟩
    obtain ⟨state, walked, _⟩ := valid.exists_walk
    exact ⟨state, walked⟩
  · rw [states_automaton, List.toList_toArray]
    exact grammar.finishes_itemSets

end Grammar

end ShiftReduce
