import ShiftReduce.Proofs.Automaton.Chains
import ShiftReduce.Proofs.Reordering.Basic

/-!
Contract: the automata of two grammars that differ in the order of their rules.

Owns: `Reordering.image`, a set of items with each item in its place in the right grammar; the fact
that closures and the sets that symbols lead to are images; and the agreement of the automata, which
have the same transitions between states of which each is the image of the one with its number.
-/

namespace ShiftReduce

namespace Reordering

variable {T N : Type} {left right : Grammar T N}

/-- The items in the right grammar, ascending. -/
def image (reordering : Reordering left right) (order : Item → Item → Ordering)
    (items : List Item) : List Item :=
  Ascending.ofList order (items.map reordering.item)

variable (reordering : Reordering left right)

/-! ## Images -/

section Images

variable {order : Item → Item → Ordering} [Std.LawfulEqCmp order]

theorem mem_image {items : List Item} {member : Item} :
    member ∈ reordering.image order items ↔ ∃ item ∈ items, reordering.item item = member := by
  rw [image, Ascending.mem_ofList, List.mem_map]

theorem item_mem_image_iff {items : List Item} {item : Item} :
    reordering.item item ∈ reordering.image order items ↔ item ∈ items := by
  rw [image, Ascending.mem_ofList]
  exact List.mem_map_of_injective reordering.item_injective

variable [Std.TransCmp order]

/-- An ascending set is the image of the items that it holds in their new places. -/
theorem eq_image {set items : List Item} (ascending : Ascending.IsAscending order set)
    (same : ∀ item, reordering.item item ∈ set ↔ item ∈ items) :
    set = reordering.image order items := by
  refine Ascending.eq_of_mem_iff ascending (Ascending.isAscending_ofList _) fun item => ?_
  rw [← reordering.item_symm_item item, same, reordering.item_mem_image_iff]

/-- Ascending sets are told apart by their images. -/
theorem image_eq_iff {first second : List Item} (firstAscends : Ascending.IsAscending order first)
    (secondAscends : Ascending.IsAscending order second) :
    reordering.image order first = reordering.image order second ↔ first = second := by
  refine ⟨fun same => ?_, congrArg _⟩
  refine Ascending.eq_of_mem_iff firstAscends secondAscends fun item => ?_
  have sameMembers : reordering.item item ∈ reordering.image order first ↔
      reordering.item item ∈ reordering.image order second := by rw [same]
  rwa [reordering.item_mem_image_iff, reordering.item_mem_image_iff] at sameMembers

end Images

/-! ## Sets of items -/

variable [DecidableEq N]

theorem reachable_item_iff {seeds others : List Item}
    (same : ∀ item, reordering.item item ∈ others ↔ item ∈ seeds) {item : Item} :
    Exploration.Reachable right.implied others (reordering.item item) ↔
      Exploration.Reachable left.implied seeds item := by
  constructor
  · intro reached
    rw [← reordering.symm_item_item item]
    refine reached.map reordering.symm.item (fun source target implied => ?_) fun seed isSeed => ?_
    · exact reordering.symm.item_mem_implied_iff.mpr implied
    · rwa [← same, reordering.item_symm_item]
  · exact .map reordering.item (fun _ _ => reordering.item_mem_implied_iff.mpr)
      fun seed => (same seed).mpr

theorem closure_eq {seeds others : List Item}
    (same : ∀ item, reordering.item item ∈ others ↔ item ∈ seeds) :
    right.closure others = reordering.image Item.order (left.closure seeds) := by
  apply reordering.eq_image Grammar.isAscending_closure
  intro item
  rw [Grammar.mem_closure_iff, Grammar.mem_closure_iff, reordering.reachable_item_iff same]

theorem startItems_eq : right.startItems = reordering.image Item.order left.startItems := by
  apply reordering.closure_eq
  intro item
  rw [← reordering.item_startItem, List.mem_singleton, List.mem_singleton,
    reordering.item_injective.eq_iff]

variable [DecidableEq T]

theorem goto_image (items : ItemSet) (symbol : Symbol T N) :
    right.goto (reordering.image Item.order items) symbol =
      reordering.image Item.order (left.goto items symbol) := by
  apply reordering.closure_eq
  intro item
  show reordering.item item ∈ right.carried _ symbol ↔ item ∈ left.carried items symbol
  simp only [Grammar.mem_carried, reordering.mem_image, exists_exists_and_eq_and, next?_item,
    ← item_advance, reordering.item_injective.eq_iff]

omit [DecidableEq T] [DecidableEq N] in
theorem expectedSymbols_image (items : ItemSet) :
    right.expectedSymbols (reordering.image Item.order items) = left.expectedSymbols items := by
  have rightAscending : Ascending.IsAscending left.vocabulary.order
      (right.expectedSymbols (reordering.image Item.order items)) := by
    rw [← reordering.vocabulary_eq]
    exact Ascending.isAscending_ofList _
  refine Ascending.eq_of_mem_iff rightAscending (Ascending.isAscending_ofList _) fun symbol => ?_
  simp only [Grammar.mem_expectedSymbols, reordering.mem_image, exists_exists_and_eq_and,
    next?_item]

theorem successors_image (items : ItemSet) :
    right.successors (reordering.image Item.order items) =
      (left.successors items).map fun successor =>
        (successor.1, reordering.image Item.order successor.2) := by
  rw [Grammar.successors, Grammar.successors, reordering.expectedSymbols_image, List.map_map]
  simp only [reordering.goto_image, Function.comp_def]

/-! ## Automata -/

omit [DecidableEq T] [DecidableEq N] in
private theorem apart (first second : ItemSet)
    (firstAscends : Ascending.IsAscending Item.order first)
    (secondAscends : Ascending.IsAscending Item.order second)
    (same : reordering.image Item.order first = reordering.image Item.order second) :
    first = second :=
  (reordering.image_eq_iff firstAscends secondAscends).mp same

/-- Each state of the right automaton is the image of the left state with its number. -/
theorem itemSets_eq : right.itemSets = left.itemSets.map (reordering.image Item.order) := by
  have closed : ∀ source : ItemSet, Ascending.IsAscending Item.order source →
      ∀ target ∈ (left.successors source).map Prod.snd,
        Ascending.IsAscending Item.order target := by
    intro source _ target leads
    obtain ⟨symbol, _, rfl⟩ := Grammar.mem_successors.mp leads
    exact Grammar.isAscending_closure
  have commutes : ∀ source : ItemSet,
      (right.successors (reordering.image Item.order source)).map Prod.snd =
        ((left.successors source).map Prod.snd).map (reordering.image Item.order) := by
    intro source
    rw [reordering.successors_image, List.map_map, List.map_map]
    rfl
  have startFits : ∀ items ∈ [left.startItems], Ascending.IsAscending Item.order items := by
    intro items isStart
    rw [List.mem_singleton.mp isStart]
    exact Grammar.isAscending_closure
  have translated : Exploration.Finishes (fun items => (right.successors items).map Prod.snd) 0
      ([left.startItems].map (reordering.image Item.order))
      (left.itemSets.map (reordering.image Item.order)) :=
    left.finishes_itemSets.map reordering.apart closed commutes startFits
  rw [List.map_singleton, ← reordering.startItems_eq] at translated
  exact right.finishes_itemSets.unique translated

theorem states_eq :
    right.automaton.states = left.automaton.states.map (reordering.image Item.order) := by
  rw [Grammar.states_automaton, Grammar.states_automaton, reordering.itemSets_eq,
    List.map_toArray]

include reordering in
theorem stateCount_eq : right.automaton.stateCount = left.automaton.stateCount := by
  unfold Automaton.stateCount
  rw [reordering.states_eq, Array.size_map]

theorem items_eq (state : Nat) :
    right.automaton.items state = reordering.image Item.order (left.automaton.items state) := by
  unfold Automaton.items Automaton.state?
  rw [reordering.states_eq, Array.getElem?_map]
  cases left.automaton.states[state]? with
  | none => rfl
  | some items => rfl

/-- An image stands where the set stands. -/
theorem idxOf_image {items : ItemSet} (ascends : Ascending.IsAscending Item.order items) :
    right.itemSets.idxOf (reordering.image Item.order items) = left.itemSets.idxOf items := by
  have setsAscend : ∀ set ∈ left.itemSets, Ascending.IsAscending Item.order set :=
    fun _ => Grammar.isAscending_of_mem_itemSets
  rw [reordering.itemSets_eq]
  exact Exploration.idxOf_map reordering.apart setsAscend ascends

include reordering in
/-- A transition leads to the position of the items that its symbol leads to. -/
theorem edges_eq : right.automaton.edges = left.automaton.edges := by
  have position : ∀ (items : ItemSet) (symbol : Symbol T N),
      right.itemSets.idxOf (reordering.image Item.order (left.goto items symbol)) =
        left.itemSets.idxOf (left.goto items symbol) :=
    fun _ _ => reordering.idxOf_image Grammar.isAscending_closure
  have row : ∀ items : ItemSet,
      (right.successors (reordering.image Item.order items)).map (fun successor =>
        (successor.1, right.itemSets.idxOf successor.2)) =
      (left.successors items).map fun successor =>
        (successor.1, left.itemSets.idxOf successor.2) := by
    intro items
    rw [reordering.successors_image]
    simp only [Grammar.successors, List.map_map, Function.comp_def, position]
  have edges : ∀ grammar : Grammar T N, grammar.automaton.edges =
      (grammar.itemSets.map fun items => (grammar.successors items).map fun successor =>
        (successor.1, grammar.itemSets.idxOf successor.2)).toArray :=
    fun _ => List.map_toArray
  rw [edges, edges, reordering.itemSets_eq, List.map_map, ← reordering.itemSets_eq]
  simp only [Function.comp_def, row]

include reordering in
theorem goto?_eq (state : Nat) (symbol : Symbol T N) :
    right.automaton.goto? state symbol = left.automaton.goto? state symbol := by
  unfold Automaton.goto? Automaton.transitions
  rw [reordering.edges_eq]

include reordering in
theorem walk_eq (state : Nat) (access : List (Symbol T N)) :
    right.automaton.walk state access = left.automaton.walk state access := by
  induction access generalizing state with
  | nil =>
      -- Not by `rfl`, which would first try whether the automata are the same.
      rw [Automaton.walk, Automaton.walk]
  | cons symbol rest inductionHypothesis =>
      simp only [Automaton.walk, reordering.goto?_eq, inductionHypothesis]

end Reordering

end ShiftReduce
