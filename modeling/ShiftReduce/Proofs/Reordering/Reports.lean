import ShiftReduce.Proofs.Reordering.Lookaheads
import ShiftReduce.Proofs.Table.Report

/-!
Contract: the tables and reports of two grammars that differ in the order of their rules.

Owns: reductions, lost reductions and clashes in their places in the right grammar; and `Mirrors`,
by which everything that is worked out of one grammar is worked out of the other, but for the
numbers of rules. Cells are compared only where no items clash: those numbers settle a clash.
-/

namespace ShiftReduce

variable {T N : Type} [DecidableEq T] [DecidableEq N] {left right : Grammar T N}

namespace Reordering

/-- The lost reduction in the right grammar. -/
def lost (reordering : Reordering left right) (lost : LostReduction T) : LostReduction T :=
  { lost with item := reordering.item lost.item }

/-- The clash in the right grammar. -/
def clash (reordering : Reordering left right) (clash : Clash T) : Clash T :=
  { clash with
    nonkernel := reordering.image Item.markerOrder clash.nonkernel
    kernel := reordering.image Item.markerOrder clash.kernel }

/-- The action in the right grammar. -/
def action (reordering : Reordering left right) : Action → Action
  | .reduce id => .reduce (reordering.number id)
  | .shift target => .shift target
  | .accept => .accept

variable (reordering : Reordering left right) {method : Method} {state : Nat} {item : Item}
  {terminal : T}

/-! ## Reductions -/

theorem reduces_item_iff :
    right.Reduces method state (reordering.item item) terminal ↔
      left.Reduces method state item terminal := by
  have moved := reordering.isAccepting_item item
  cases accepting : item.isAccepting left with
  | true =>
      rw [Grammar.reduces_iff_of_accepting accepting,
        Grammar.reduces_iff_of_accepting (moved.trans accepting),
        reordering.item_mem_completed_iff, reordering.vocabulary_eq]
  | false =>
      rw [Grammar.reduces_iff_of_ordinary accepting,
        Grammar.reduces_iff_of_ordinary (moved.trans accepting),
        reordering.item_mem_completed_iff, reordering.mem_reductionLookaheads_iff]

theorem loses_item_iff :
    right.Loses method state (reordering.item item) terminal ↔
      left.Loses method state item terminal := by
  rw [Grammar.loses_iff, Grammar.loses_iff, reordering.reduces_item_iff, reordering.goto?_eq]

end Reordering

namespace Grammar

variable {method : Method} {state : Nat} {terminal : T}

theorem Contested.reorder (reordering : Reordering left right)
    (contested : left.Contested method state terminal) :
    right.Contested method state terminal := by
  obtain ⟨first, second, differ, firstReduces, secondReduces⟩ := contested
  exact ⟨reordering.item first, reordering.item second, reordering.item_injective.ne differ,
    reordering.reduces_item_iff.mpr firstReduces, reordering.reduces_item_iff.mpr secondReduces⟩

theorem Several.reorder (reordering : Reordering left right) (several : left.Several state) :
    right.Several state := by
  obtain ⟨first, firstCompleted, second, secondCompleted, differ⟩ := several
  exact ⟨reordering.item first, reordering.item_mem_completed_iff.mpr firstCompleted,
    reordering.item second, reordering.item_mem_completed_iff.mpr secondCompleted,
    reordering.item_injective.ne differ⟩

theorem Competes.reorder (reordering : Reordering left right)
    (competes : left.Competes method state) : right.Competes method state := by
  cases method with
  | slr => exact Several.reorder reordering competes
  | lalr =>
      obtain ⟨terminal, contested⟩ := competes
      exact ⟨terminal, contested.reorder reordering⟩

end Grammar

namespace Reordering

variable (reordering : Reordering left right) {method : Method} {state : Nat} {terminal : T}

/-! ## Lost reductions -/

theorem mem_lost_iff {lost : LostReduction T} :
    lost ∈ (right.study.compiled method).conflicts.lost ↔
      lost ∈ (left.study.compiled method).conflicts.lost.map reordering.lost := by
  have moved : ∀ lost : LostReduction T,
      reordering.lost lost ∈ (right.study.compiled method).conflicts.lost ↔
        lost ∈ (left.study.compiled method).conflicts.lost := by
    intro lost
    rw [Grammar.mem_lost_iff, Grammar.mem_lost_iff]
    simp only [Reordering.lost, reordering.loses_item_iff]
  have back : reordering.lost (reordering.symm.lost lost) = lost := by
    simp [Reordering.lost]
  constructor
  · intro isLost
    rw [← back, moved] at isLost
    exact List.mem_map.mpr ⟨_, isLost, back⟩
  · intro isMapped
    obtain ⟨original, isLost, rfl⟩ := List.mem_map.mp isMapped
    exact (moved original).mpr isLost

/-! ## Clashes -/

include reordering in
theorem competes_iff : right.Competes method state ↔ left.Competes method state :=
  ⟨.reorder reordering.symm, .reorder reordering⟩

include reordering in
theorem isUsable_iff : right.IsUsable method ↔ left.IsUsable method := by
  rw [Grammar.isUsable_iff, Grammar.isUsable_iff]
  exact forall_congr' fun state => not_congr reordering.competes_iff

include reordering in
theorem contestedTerminals_eq :
    right.contestedTerminals method state = left.contestedTerminals method state := by
  refine reordering.terminals_ext (isAscending_sharedTerminals _)
    (isAscending_sharedTerminals _) fun terminal => ?_
  rw [Grammar.mem_contestedTerminals, Grammar.mem_contestedTerminals]
  exact ⟨.reorder reordering.symm, .reorder reordering⟩

theorem clashAt_eq : right.clashAt method state = reordering.clash (left.clashAt method state) := by
  obtain ⟨nonkernelAscends, kernelAscends⟩ := right.isAscending_finished state
  have nonkernel : (right.finished state).1 =
      reordering.image Item.markerOrder (left.finished state).1 := by
    apply reordering.eq_image nonkernelAscends
    intro item
    rw [Grammar.mem_finished_nonkernel, Grammar.mem_finished_nonkernel,
      reordering.item_mem_completed_iff, reordering.isKernel_item]
  have kernel : (right.finished state).2 =
      reordering.image Item.markerOrder (left.finished state).2 := by
    apply reordering.eq_image kernelAscends
    intro item
    rw [Grammar.mem_finished_kernel, Grammar.mem_finished_kernel,
      reordering.item_mem_completed_iff, reordering.isKernel_item]
  simp only [Grammar.clashAt, Reordering.clash, nonkernel, kernel,
    reordering.contestedTerminals_eq]

theorem clash?_eq :
    right.clash? right.automaton method (right.study.reductionLookaheads method) state =
      (left.clash? left.automaton method (left.study.reductionLookaheads method) state).map
        reordering.clash := by
  apply Option.ext
  intro clash
  rw [Option.map_eq_some_iff, Grammar.clash?_eq_some_iff, reordering.competes_iff,
    reordering.clashAt_eq]
  constructor
  · rintro ⟨competes, rfl⟩
    exact ⟨_, Grammar.clash?_eq_some_iff.mpr ⟨competes, rfl⟩, rfl⟩
  · rintro ⟨original, found, rfl⟩
    obtain ⟨competes, rfl⟩ := Grammar.clash?_eq_some_iff.mp found
    exact ⟨competes, rfl⟩

/-- The reports list the same clashes in the same order. -/
theorem clashes_eq :
    (right.study.compiled method).conflicts.clashes =
      (left.study.compiled method).conflicts.clashes.map reordering.clash := by
  have clashAtEach : right.clash? right.automaton method (right.study.reductionLookaheads method) =
      fun state => (left.clash? left.automaton method
        (left.study.reductionLookaheads method) state).map reordering.clash :=
    funext fun state => reordering.clash?_eq
  rw [Study.compiled_study, Study.compiled_study]
  show distinctOn _ _ = (distinctOn _ _).map _
  rw [reordering.stateCount_eq, clashAtEach, ← List.map_filterMap]
  apply distinctOn_map
  intro first isFirst later isLater
  obtain ⟨firstState, _, firstFound⟩ := List.mem_filterMap.mp isFirst
  obtain ⟨laterState, _, laterFound⟩ := List.mem_filterMap.mp isLater
  obtain ⟨_, rfl⟩ := Grammar.clash?_eq_some_iff.mp firstFound
  obtain ⟨_, rfl⟩ := Grammar.clash?_eq_some_iff.mp laterFound
  obtain ⟨firstNonkernel, firstKernel⟩ := left.isAscending_finished firstState
  obtain ⟨laterNonkernel, laterKernel⟩ := left.isAscending_finished laterState
  rw [Prod.mk.injEq, Prod.mk.injEq]
  exact and_congr (reordering.image_eq_iff firstNonkernel laterNonkernel)
    (reordering.image_eq_iff firstKernel laterKernel)

/-! ## Tables -/

/-- A cell of the right table holds what the cell of the left one does. -/
private theorem action?_of_action? (usable : left.IsUsable method)
    (listed : left.vocabulary.terminals.Lists terminal) {action : Action}
    (takes : (left.driver method).table.action? state terminal = some action) :
    (right.driver method).table.action? state terminal = some (reordering.action action) := by
  have rightListed : right.vocabulary.terminals.Lists terminal := reordering.vocabulary_eq ▸ listed
  cases action with
  | shift target =>
      rw [Grammar.action?_eq_shift_iff listed] at takes
      rw [Reordering.action, Grammar.action?_eq_shift_iff rightListed, reordering.goto?_eq, takes]
  | accept =>
      obtain ⟨ends, item, completed, accepting⟩ := (Grammar.action?_eq_accept_iff listed).mp takes
      refine (Grammar.action?_eq_accept_iff rightListed).mpr ⟨?_, reordering.item item, ?_, ?_⟩
      · rw [reordering.vocabulary_eq, ends]
      · exact reordering.item_mem_completed_iff.mpr completed
      · rw [reordering.isAccepting_item, accepting]
  | reduce id =>
      obtain ⟨item, completed, rfl, ordinary, lookahead⟩ :=
        Grammar.exists_of_action?_eq_reduce listed takes
      have unshifted : right.automaton.goto? state (.terminal terminal) = none := by
        rw [reordering.goto?_eq, Option.eq_none_iff_forall_ne_some]
        intro target edge
        rw [(Grammar.action?_eq_shift_iff listed).mpr edge] at takes
        cases takes
      exact (reordering.isUsable_iff.mpr usable).action?_eq_reduce
        (reordering.item_mem_completed_iff.mpr completed)
        ((reordering.isAccepting_item item).trans ordinary) rightListed
        (reordering.mem_reductionLookaheads_iff.mpr lookahead) unshifted

omit [DecidableEq T] [DecidableEq N] in
@[simp]
theorem action_symm_action (action : Action) :
    reordering.action (reordering.symm.action action) = action := by
  cases action with
  | shift | accept => rfl
  | reduce id => exact congrArg Action.reduce (reordering.number_symm_number id)

/-- Without clashes the cells agree. -/
theorem action?_eq (usable : left.IsUsable method)
    (listed : left.vocabulary.terminals.Lists terminal) :
    (right.driver method).table.action? state terminal =
      ((left.driver method).table.action? state terminal).map reordering.action := by
  apply Option.ext
  intro action
  rw [Option.map_eq_some_iff]
  constructor
  · intro takes
    exact ⟨_, reordering.symm.action?_of_action? (reordering.isUsable_iff.mpr usable)
      (reordering.vocabulary_eq ▸ listed) takes, reordering.action_symm_action action⟩
  · rintro ⟨original, takes, rfl⟩
    exact reordering.action?_of_action? usable listed takes

theorem actions_eq (usable : left.IsUsable method) :
    (right.study.compiled method).table.actions =
      (left.study.compiled method).table.actions.map
        (Array.map (Option.map reordering.action)) := by
  have row : ∀ state, left.vocabulary.terminals.all.map
      ((right.driver method).table.action? state) =
        (left.vocabulary.terminals.all.map ((left.driver method).table.action? state)).map
          (Option.map reordering.action) := by
    intro state
    rw [List.map_map]
    apply List.map_congr_left
    intro terminal member
    exact reordering.action?_eq usable (left.terminals_listed terminal member)
  rw [Grammar.table_study, Grammar.table_study, right.actions_driver, left.actions_driver,
    reordering.vocabulary_eq, reordering.stateCount_eq, List.map_toArray, List.map_map]
  simp only [row, Function.comp_def, List.map_toArray]

include reordering in
theorem gotos_eq :
    (right.study.compiled method).table.gotos = (left.study.compiled method).table.gotos := by
  have row : ∀ state, right.gotoRow right.automaton state = left.gotoRow left.automaton state := by
    intro state
    simp only [Grammar.gotoRow, reordering.vocabulary_eq, reordering.goto?_eq]
  rw [Grammar.table_study, Grammar.table_study]
  simp only [Grammar.driver, Grammar.table, reordering.stateCount_eq, row]

/-! ## Two grammars side by side -/

/-- Whatever is worked out of the right grammar is what is worked out of the left one, with each
rule in its new place. -/
structure Mirrors (reordering : Reordering left right) : Prop where
  /-- Nullability, FIRST and FOLLOW. -/
  firstFollow : right.firstFollow = left.firstFollow
  /-- There are as many states, and each is the image of the one with its number. -/
  states : right.automaton.states = left.automaton.states.map (reordering.image Item.order)
  /-- The transitions are between the same numbers. -/
  edges : right.automaton.edges = left.automaton.edges
  /-- The same reductions are lost in the same states. -/
  lost : ∀ method lost, lost ∈ (right.study.compiled method).conflicts.lost ↔
    lost ∈ (left.study.compiled method).conflicts.lost.map reordering.lost
  /-- The same clashes are listed in the same order, with the same states and lookaheads. -/
  clashes : ∀ method, (right.study.compiled method).conflicts.clashes =
    (left.study.compiled method).conflicts.clashes.map reordering.clash
  /-- Without clashes the actions differ in the numbers of rules only. -/
  actions : ∀ method, (left.study.compiled method).conflicts.clashes = [] →
    (right.study.compiled method).table.actions =
      (left.study.compiled method).table.actions.map (Array.map (Option.map reordering.action))
  gotos : ∀ method,
    (right.study.compiled method).table.gotos = (left.study.compiled method).table.gotos

/-- The order in which rules are declared shows in their numbers only, and in which rule of a clash
is reduced. -/
theorem mirrors (reordering : Reordering left right) : reordering.Mirrors where
  firstFollow := reordering.firstFollow_eq
  states := reordering.states_eq
  edges := reordering.edges_eq
  lost _ _ := reordering.mem_lost_iff
  clashes _ := reordering.clashes_eq
  actions _ := reordering.actions_eq
  gotos _ := reordering.gotos_eq

end Reordering

namespace Grammar

/-- The alternatives of `S` are `A x` and `B y`, and both `A` and `B` are spelled `id`. -/
def parted : Grammar Nat Nat := Outline.grammar
  { vocabulary :=
      { terminals := Numbering.alphabet { names := #["id", "x", "y", "end"], listed := 4 }
        nonterminals := Numbering.alphabet { names := #["S", "A", "B", "Start"], listed := 4 }
        endMarker := 3 }
    start := 3
    rules := #[⟨3, [.nonterminal 0]⟩, ⟨0, [.nonterminal 1, .terminal 1]⟩,
      ⟨0, [.nonterminal 2, .terminal 2]⟩, ⟨1, [.terminal 0]⟩, ⟨2, [.terminal 0]⟩]
    accepting := 0
    defined := [3, 0, 1, 2] }

/-- The rules of `parted` in the opposite order. -/
def partedBackwards : Grammar Nat Nat := Outline.grammar
  { vocabulary := parted.vocabulary
    start := 3
    rules := #[⟨2, [.terminal 0]⟩, ⟨1, [.terminal 0]⟩, ⟨0, [.nonterminal 2, .terminal 2]⟩,
      ⟨0, [.nonterminal 1, .terminal 1]⟩, ⟨3, [.nonterminal 0]⟩]
    accepting := 4
    defined := [2, 1, 0, 3] }

def turnParted : Reordering parted partedBackwards where
  place := (Fin.revPerm : Equiv.Perm (Fin 5))
  vocabulary_eq := rfl
  start_eq := rfl
  rule_place := by decide
  accepting_place := by decide

/-- Under FOLLOW the items of `A` and `B` clash in the state that `id` leads to. Under propagation
nothing clashes, and the cells of that state hold the rules by their numbers. -/
theorem turnParted_mirrors :
    turnParted.Mirrors ∧
      (parted.study.compiled .slr).conflicts.clashes = [⟨1, [], [⟨3, 1⟩, ⟨4, 1⟩], []⟩] ∧
      (partedBackwards.study.compiled .slr).conflicts.clashes =
        [⟨1, [], [⟨0, 1⟩, ⟨1, 1⟩], []⟩] ∧
      (parted.study.compiled .lalr).conflicts.clashes = [] ∧
      (parted.study.compiled .lalr).table.action? 1 1 = some (.reduce 3) ∧
      (partedBackwards.study.compiled .lalr).table.action? 1 1 = some (.reduce 1) :=
  ⟨turnParted.mirrors, by decide +kernel, by decide +kernel, by decide +kernel, by decide +kernel,
    by decide +kernel⟩

end Grammar

end ShiftReduce
