import Mathlib.Data.List.Sublists
import ShiftReduce.Automaton.Walk
import ShiftReduce.Proofs.Automaton.Closure

/-!
Contract: the states of an automaton and its transitions.

Owns: the states are the sets that the start leads to, each once, and all of them; a state has a
transition on exactly the symbols that it expects, to the state of the items it leads to; and state
0, which no transition enters.
-/

namespace ShiftReduce

namespace Grammar

variable {T N : Type} [DecidableEq T] [DecidableEq N] {grammar : Grammar T N}

/-! ## Discovery -/

theorem order_eq_lt_iff {left right : Item} :
    Item.order left right = .lt ↔
      left.rule < right.rule ∨ left.rule = right.rule ∧ left.marker < right.marker := by
  simp [Item.order, compareLex, compareOn, Ordering.then_eq_lt, Nat.compare_eq_lt]

omit [DecidableEq T] [DecidableEq N] in
private theorem isAscending_allItems :
    Ascending.IsAscending Item.order grammar.allItems := by
  unfold Ascending.IsAscending allItems ruleIds
  refine List.pairwise_flatMap.mpr ⟨fun id _ => ?_, ?_⟩
  · refine List.pairwise_map.mpr (List.pairwise_lt_range.imp fun below => ?_)
    exact order_eq_lt_iff.mpr (.inr ⟨rfl, below⟩)
  · apply List.pairwise_lt_range.imp
    intro lower upper below left isLeft right isRight
    obtain ⟨_, _, rfl⟩ := List.mem_map.mp isLeft
    obtain ⟨_, _, rfl⟩ := List.mem_map.mp isRight
    exact order_eq_lt_iff.mpr (.inl below)

omit [DecidableEq T] [DecidableEq N] in
/-- Ascending lists of items of rules are sublists of the list of all of them. -/
private theorem sublist_allItems {items : ItemSet}
    (ascending : Ascending.IsAscending Item.order items)
    (fit : ∀ item ∈ items, item ∈ grammar.allItems) : items.Sublist grammar.allItems := by
  have filtered : items = grammar.allItems.filter (· ∈ items) := by
    refine Ascending.eq_of_mem_iff ascending
      (List.Pairwise.filter _ isAscending_allItems) fun item => ?_
    rw [List.mem_filter]
    exact ⟨fun member => ⟨fit item member, by simpa using member⟩,
      fun member => by simpa using member.2⟩
  rw [filtered]
  exact List.filter_sublist

/-- A set leads to another by a symbol that it expects. -/
def Leads (grammar : Grammar T N) (items target : ItemSet) : Prop :=
  ∃ symbol, (∃ item ∈ items, item.next? grammar = some symbol) ∧ target = grammar.goto items symbol

theorem mem_successors {items target : ItemSet} :
    target ∈ (grammar.successors items).map Prod.snd ↔ grammar.Leads items target := by
  simp only [successors, List.map_map, List.mem_map, mem_expectedSymbols, Function.comp_apply, Leads]
  exact exists_congr fun symbol => and_congr_right fun _ => eq_comm

omit [DecidableEq T] in
theorem startItems_mem_sublists : grammar.startItems ∈ grammar.allItems.sublists := by
  rw [List.mem_sublists]
  apply sublist_allItems isAscending_closure
  intro item member
  apply closure_subset_allItems _ member
  intro start isStart
  rw [List.mem_singleton.mp isStart]
  exact startItem_mem_allItems

theorem mem_sublists_of_leads {items target : ItemSet} (leads : grammar.Leads items target) :
    target ∈ grammar.allItems.sublists := by
  rcases leads with ⟨symbol, _, rfl⟩
  rw [List.mem_sublists]
  exact sublist_allItems isAscending_closure fun item => goto_subset_allItems

theorem mem_itemSets_iff {items : ItemSet} :
    items ∈ grammar.itemSets ↔
      Exploration.Reachable (fun items => (grammar.successors items).map Prod.snd)
        [grammar.startItems] items := by
  apply Exploration.mem_explore_iff grammar.allItems.sublists
  · intro seed isSeed
    rw [List.mem_singleton.mp isSeed]
    exact startItems_mem_sublists
  · intro source _ target leads
    exact mem_sublists_of_leads (mem_successors.mp leads)
  · simp

theorem nodup_itemSets : grammar.itemSets.Nodup := Exploration.nodup_explore _ _ _

/-! ## States by number -/

theorem states_automaton : grammar.automaton.states = grammar.itemSets.toArray := rfl

theorem state?_automaton (state : Nat) :
    grammar.automaton.state? state = grammar.itemSets[state]? := by
  simp [Automaton.state?, automaton]

theorem stateCount_automaton : grammar.automaton.stateCount = grammar.itemSets.length := by
  simp [Automaton.stateCount, automaton]

theorem state?_of_lt {state : Nat} (bound : state < grammar.automaton.stateCount) :
    grammar.automaton.state? state = some (grammar.automaton.items state) := by
  rw [stateCount_automaton] at bound
  simp [Automaton.items, state?_automaton, bound]

theorem items_eq_nil_of_not_lt {state : Nat} (beyond : ¬state < grammar.automaton.stateCount) :
    grammar.automaton.items state = [] := by
  rw [stateCount_automaton, Nat.not_lt] at beyond
  simp [Automaton.items, state?_automaton, beyond]

theorem lt_stateCount_of_mem {state : Nat} {item : Item}
    (member : item ∈ grammar.automaton.items state) : state < grammar.automaton.stateCount := by
  by_cases bound : state < grammar.automaton.stateCount
  · exact bound
  · rw [items_eq_nil_of_not_lt bound] at member
    cases member

theorem items_mem_itemSets {state : Nat} (bound : state < grammar.automaton.stateCount) :
    grammar.automaton.items state ∈ grammar.itemSets := by
  have found := state?_of_lt bound
  rw [state?_automaton] at found
  exact List.mem_of_getElem? found

private theorem items_idxOf {items : ItemSet} (member : items ∈ grammar.itemSets) :
    grammar.itemSets.idxOf items < grammar.automaton.stateCount ∧
      grammar.automaton.items (grammar.itemSets.idxOf items) = items := by
  have bound := List.idxOf_lt_length_iff.mpr member
  refine ⟨by rwa [stateCount_automaton], ?_⟩
  simp [Automaton.items, state?_automaton, bound]

/-- A set of items that the start leads to has a number. -/
theorem exists_state_of_mem {items : ItemSet} (member : items ∈ grammar.itemSets) :
    ∃ state, state < grammar.automaton.stateCount ∧ grammar.automaton.items state = items :=
  ⟨_, items_idxOf member⟩

/-- States are told apart by their items. -/
theorem items_injective {left right : Nat} (leftBound : left < grammar.automaton.stateCount)
    (rightBound : right < grammar.automaton.stateCount)
    (same : grammar.automaton.items left = grammar.automaton.items right) : left = right := by
  have leftFound := state?_of_lt leftBound
  have rightFound := state?_of_lt rightBound
  rw [state?_automaton] at leftFound rightFound
  rw [stateCount_automaton] at leftBound
  exact (List.getElem?_inj leftBound nodup_itemSets).mp (by rw [leftFound, rightFound, same])

/-! ## Transitions -/

private theorem lookup_map {α β : Type} [DecidableEq α] (value : α → β) (keys : List α) (key : α) :
    (keys.map fun member => (member, value member)).lookup key =
      if key ∈ keys then some (value key) else none := by
  induction keys with
  | nil => rfl
  | cons head tail inductionHypothesis =>
      rw [List.map_cons, List.lookup_cons, inductionHypothesis]
      by_cases same : key = head
      · simp [same]
      · simp [same, beq_eq_false_iff_ne.mpr same]

theorem transitions_of_lt {state : Nat} (bound : state < grammar.automaton.stateCount) :
    grammar.automaton.transitions state =
      (grammar.expectedSymbols (grammar.automaton.items state)).map fun symbol =>
        (symbol, grammar.itemSets.idxOf (grammar.goto (grammar.automaton.items state) symbol)) := by
  have found := state?_of_lt bound
  rw [state?_automaton] at found
  unfold Automaton.transitions
  rw [Array.getD_eq_getD_getElem?]
  simp [automaton, found, successors]

theorem transitions_eq_nil_of_not_lt {state : Nat}
    (beyond : ¬state < grammar.automaton.stateCount) :
    grammar.automaton.transitions state = [] := by
  rw [stateCount_automaton, Nat.not_lt] at beyond
  unfold Automaton.transitions
  rw [Array.getD_eq_getD_getElem?]
  simp [automaton, beyond]

theorem goto?_eq {state : Nat} (bound : state < grammar.automaton.stateCount)
    (symbol : Symbol T N) :
    grammar.automaton.goto? state symbol =
      if symbol ∈ grammar.expectedSymbols (grammar.automaton.items state) then
        some (grammar.itemSets.idxOf (grammar.goto (grammar.automaton.items state) symbol))
      else none := by
  rw [Automaton.goto?, transitions_of_lt bound]
  exact lookup_map _ _ _

/-- A transition is the one that is found for its symbol. -/
theorem goto?_of_mem_transitions {state target : Nat} {symbol : Symbol T N}
    (transition : (symbol, target) ∈ grammar.automaton.transitions state) :
    grammar.automaton.goto? state symbol = some target := by
  by_cases bound : state < grammar.automaton.stateCount
  · rw [transitions_of_lt bound] at transition
    obtain ⟨key, expected, made⟩ := List.mem_map.mp transition
    obtain ⟨rfl, rfl⟩ := Prod.mk.inj made
    rw [goto?_eq bound, if_pos expected]
  · rw [transitions_eq_nil_of_not_lt bound] at transition
    cases transition

theorem mem_transitions_iff {state target : Nat} {symbol : Symbol T N} :
    (symbol, target) ∈ grammar.automaton.transitions state ↔
      grammar.automaton.goto? state symbol = some target := by
  refine ⟨goto?_of_mem_transitions, fun edge => ?_⟩
  obtain ⟨before, behind, split, _⟩ := List.lookup_eq_some_iff.mp edge
  rw [split]
  exact List.mem_append_right _ List.mem_cons_self

/-- A transition leads to the state of the items that the symbol leads to. -/
theorem goto?_eq_some_iff {state target : Nat} {symbol : Symbol T N} :
    grammar.automaton.goto? state symbol = some target ↔
      (∃ item ∈ grammar.automaton.items state, item.next? grammar = some symbol) ∧
        target < grammar.automaton.stateCount ∧
          grammar.automaton.items target = grammar.goto (grammar.automaton.items state) symbol := by
  by_cases bound : state < grammar.automaton.stateCount
  · rw [goto?_eq bound, ← mem_expectedSymbols]
    by_cases expected : symbol ∈ grammar.expectedSymbols (grammar.automaton.items state)
    · have reached := mem_itemSets_iff.mp (items_mem_itemSets bound)
      have isSet : grammar.goto (grammar.automaton.items state) symbol ∈ grammar.itemSets :=
        mem_itemSets_iff.mpr (.step reached (mem_successors.mpr
          ⟨symbol, mem_expectedSymbols.mp expected, rfl⟩))
      obtain ⟨targetBound, targetItems⟩ := items_idxOf isSet
      rw [if_pos expected, Option.some.injEq]
      constructor
      · intro same
        subst same
        exact ⟨expected, targetBound, targetItems⟩
      · intro found
        rcases found with ⟨_, otherBound, otherItems⟩
        exact items_injective targetBound otherBound (targetItems.trans otherItems.symm)
    · simp [expected]
  · simp [Automaton.goto?, transitions_eq_nil_of_not_lt bound, items_eq_nil_of_not_lt bound]

/-- A state has a transition on what it expects. -/
theorem exists_goto? {state : Nat} {item : Item} {symbol : Symbol T N}
    (member : item ∈ grammar.automaton.items state) (expects : item.next? grammar = some symbol) :
    ∃ target, grammar.automaton.goto? state symbol = some target := by
  have bound := lt_stateCount_of_mem member
  have expected : symbol ∈ grammar.expectedSymbols (grammar.automaton.items state) :=
    mem_expectedSymbols.mpr ⟨item, member, expects⟩
  exact ⟨_, by rw [goto?_eq bound, if_pos expected]⟩

/-! ## The start state -/

private theorem itemSets_head : grammar.itemSets[0]? = some grammar.startItems := by
  obtain ⟨rest, split⟩ := Exploration.prefix_explore
    (fun items => (grammar.successors items).map Prod.snd) (Nat.pow 2 grammar.allItems.length)
    [grammar.startItems]
  rw [itemSets, ← split]
  simp [Exploration.addFresh]

theorem stateCount_pos : 0 < grammar.automaton.stateCount := by
  rw [stateCount_automaton]
  exact (List.getElem?_eq_some_iff.mp itemSets_head).1

theorem items_zero : grammar.automaton.items 0 = grammar.startItems := by
  simp [Automaton.items, state?_automaton, itemSets_head]

/-- Every state but the first is entered by a transition. -/
theorem exists_goto?_eq {state : Nat} (bound : state < grammar.automaton.stateCount)
    (notStart : state ≠ 0) :
    ∃ source symbol, grammar.automaton.goto? source symbol = some state := by
  cases mem_itemSets_iff.mp (items_mem_itemSets bound) with
  | seed isSeed =>
      have same : grammar.automaton.items state = grammar.automaton.items 0 := by
        rw [items_zero, ← List.mem_singleton.mp isSeed]
      exact absurd (items_injective bound stateCount_pos same) notStart
  | step reached leads =>
      obtain ⟨symbol, expected, equal⟩ := mem_successors.mp leads
      obtain ⟨source, _, sourceItems⟩ := exists_state_of_mem (mem_itemSets_iff.mpr reached)
      refine ⟨source, symbol, goto?_eq_some_iff.mpr ⟨?_, bound, ?_⟩⟩
      · rwa [sourceItems]
      · rw [sourceItems, equal]

end Grammar

end ShiftReduce
