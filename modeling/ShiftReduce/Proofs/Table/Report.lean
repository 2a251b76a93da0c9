import ShiftReduce.Proofs.Table.Conflicts

/-!
Contract: a table and its report tell of the same reductions.

Owns: `Loses`, by which a state shifts a terminal that an item of it is reduced on; which reductions
and which clashes are reported; and `Accounts`, by which no reduction of a completed item is dropped
without being reported, and nothing is reported that did not happen or that a smaller state has been
reported for.
-/

namespace ShiftReduce

namespace Grammar

variable {T N : Type} [DecidableEq T] [DecidableEq N]

/-- The item is reduced on the terminal in the state, but the state shifts it. -/
def Loses (grammar : Grammar T N) (method : Method) (state : Nat) (item : Item) (terminal : T) :
    Prop :=
  grammar.Reduces method state item terminal ∧
    ∃ target, (grammar.study.compiled method).table.action? state terminal = some (.shift target)

/-- The report leaves out no dropped reduction, and has no entry without a cause of its own. -/
structure Accounts (grammar : Grammar T N) (method : Method) (compiled : Compiled T N) : Prop where
  /-- A completed item has each cell that it asks for, or has lost it to a shift that is reported,
  or the completed items of its state are reported to clash. -/
  kept_or_reported : ∀ state item terminal, grammar.Reduces method state item terminal →
    compiled.table.action? state terminal = some (grammar.completion item) ∨
      ((∃ target, compiled.table.action? state terminal = some (.shift target)) ∧
        (item, terminal) ∈ compiled.conflicts.lost.map fun lost => (lost.item, lost.terminal)) ∨
      grammar.finished state ∈
        compiled.conflicts.clashes.map fun clash => (clash.nonkernel, clash.kernel)
  /-- What is said to be lost is lost, and in no smaller state. -/
  lost : ∀ lost ∈ compiled.conflicts.lost,
    grammar.Loses method lost.state lost.item lost.terminal ∧
      ∀ state < lost.state, ¬grammar.Loses method state lost.item lost.terminal
  /-- A clash lists the completed items of its state, which are at least two. -/
  clash_items : ∀ clash ∈ compiled.conflicts.clashes,
    (clash.nonkernel, clash.kernel) = grammar.finished clash.state ∧
      (∀ item,
        (item ∈ clash.nonkernel ↔ item ∈ grammar.automaton.completed grammar clash.state ∧
          item.isKernel grammar = false) ∧
        (item ∈ clash.kernel ↔ item ∈ grammar.automaton.completed grammar clash.state ∧
          item.isKernel grammar = true)) ∧
      grammar.Several clash.state
  /-- It lists the terminals that two of them are reduced on, without which there is no clash under
  propagated lookaheads. -/
  clash_lookaheads : ∀ clash ∈ compiled.conflicts.clashes,
    (∀ terminal, terminal ∈ clash.lookaheads ↔ grammar.Contested method clash.state terminal) ∧
      (method = .lalr → clash.lookaheads ≠ [])
  /-- A smaller state has the same completed items only if its lookaheads are propagated and none is
  shared. -/
  clash_first : ∀ clash ∈ compiled.conflicts.clashes, ∀ state < clash.state,
    grammar.finished state = (clash.nonkernel, clash.kernel) →
      method = .lalr ∧ ∀ terminal, ¬grammar.Contested method state terminal

variable {grammar : Grammar T N} {method : Method} {state : Nat} {item : Item} {terminal : T}

theorem Reduces.listed (reduces : grammar.Reduces method state item terminal) :
    grammar.vocabulary.terminals.Lists terminal := by
  cases accepting : item.isAccepting grammar with
  | true =>
      obtain ⟨_, ends⟩ := (reduces_iff_of_accepting accepting).mp reduces
      rw [ends]
      exact grammar.endMarker_listed
  | false =>
      obtain ⟨completed, lookahead⟩ := (reduces_iff_of_ordinary accepting).mp reduces
      cases method with
      | slr =>
          have isItem := items_subset_allItems (mem_completed_iff.mp completed).1
          have bound := (mem_allItems.mp isItem).1
          rw [Study.reductionLookaheads_study_slr] at lookahead
          exact listed_of_mem_follow (grammar.lhs_listed _ (rule_mem bound)) lookahead
      | lalr =>
          obtain ⟨_, _, follows⟩ := exists_mayFollow_of_lookahead completed lookahead
          exact follows.listed

/-! ## Lost reductions -/

theorem table_study :
    (grammar.study.compiled method).table = (grammar.driver method).table := by
  rw [Study.compiled_study]
  rfl

/-- A state shifts a terminal on which it has a transition. -/
theorem loses_iff :
    grammar.Loses method state item terminal ↔ grammar.Reduces method state item terminal ∧
      (grammar.automaton.goto? state (.terminal terminal)).isSome = true := by
  apply and_congr_right
  intro reduces
  rw [table_study, Option.isSome_iff_exists]
  exact exists_congr fun target => action?_eq_shift_iff reduces.listed

/-- The accepting item loses nothing, since the end marker is never shifted. -/
theorem Loses.ordinary (loses : grammar.Loses method state item terminal) :
    item.isAccepting grammar = false := by
  obtain ⟨reduces, shifts⟩ := loses_iff.mp loses
  by_contra accepting
  obtain ⟨_, ends⟩ := (reduces_iff_of_accepting (Bool.not_eq_false _ ▸ accepting)).mp reduces
  rw [ends, goto?_endMarker] at shifts
  cases shifts

theorem mem_lostReductions {lost : LostReduction T} :
    lost ∈ grammar.lostReductions grammar.automaton (grammar.study.reductionLookaheads method)
        state ↔
      lost.state = state ∧ grammar.Loses method state lost.item lost.terminal := by
  simp only [lostReductions, List.mem_flatMap]
  constructor
  · rintro ⟨item, completed, found⟩
    split at found
    · cases found
    · next ordinary =>
        obtain ⟨terminal, inFilter, rfl⟩ := List.mem_map.mp found
        obtain ⟨lookahead, shifts⟩ := List.mem_filter.mp inFilter
        have reduces := (reduces_iff_of_ordinary (Bool.not_eq_true _ ▸ ordinary)).mpr
          ⟨completed, lookahead⟩
        exact ⟨rfl, loses_iff.mpr ⟨reduces, shifts⟩⟩
  · rintro ⟨rfl, loses⟩
    obtain ⟨reduces, shifts⟩ := loses_iff.mp loses
    obtain ⟨completed, lookahead⟩ := (reduces_iff_of_ordinary loses.ordinary).mp reduces
    refine ⟨lost.item, completed, ?_⟩
    rw [loses.ordinary, if_neg Bool.false_ne_true]
    exact List.mem_map.mpr ⟨lost.terminal, List.mem_filter.mpr ⟨lookahead, shifts⟩, rfl⟩

/-! ## Entries of the report -/

variable (grammar method) in
/-- The reductions that are lost, state by state. -/
private def allLost : List (LostReduction T) :=
  (List.range grammar.automaton.stateCount).flatMap
    (grammar.lostReductions grammar.automaton (grammar.study.reductionLookaheads method))

variable (grammar method) in
/-- The clashes, state by state. -/
private def allClashes : List (Clash T) :=
  (List.range grammar.automaton.stateCount).filterMap
    (grammar.clash? grammar.automaton method (grammar.study.reductionLookaheads method))

private theorem lost_study :
    (grammar.study.compiled method).conflicts.lost =
      distinctOn (fun lost => (lost.item, lost.terminal)) (grammar.allLost method) := by
  rw [Study.compiled_study]
  rfl

private theorem clashes_study :
    (grammar.study.compiled method).conflicts.clashes =
      distinctOn (fun clash => (clash.nonkernel, clash.kernel)) (grammar.allClashes method) := by
  rw [Study.compiled_study]
  rfl

private theorem mem_allLost {lost : LostReduction T} :
    lost ∈ grammar.allLost method ↔ grammar.Loses method lost.state lost.item lost.terminal := by
  simp only [allLost, List.mem_flatMap, List.mem_range, mem_lostReductions]
  constructor
  · rintro ⟨state, _, rfl, loses⟩
    exact loses
  · intro loses
    have bound := lt_stateCount_of_mem (mem_completed_iff.mp loses.1.completed).1
    exact ⟨lost.state, bound, rfl, loses⟩

private theorem pairwise_allLost :
    (grammar.allLost method).Pairwise fun first later => first.state ≤ later.state := by
  refine List.pairwise_flatMap.mpr ⟨fun state _ => ?_, ?_⟩
  · apply List.pairwise_of_forall_mem_list
    intro first isFirst later isLater
    rw [(mem_lostReductions.mp isFirst).1, (mem_lostReductions.mp isLater).1]
  · apply List.pairwise_lt_range.imp
    intro lower upper below first isFirst later isLater
    rw [(mem_lostReductions.mp isFirst).1, (mem_lostReductions.mp isLater).1]
    exact Nat.le_of_lt below

/-- What is lost in a state is reported, of that state or of a smaller one. -/
theorem Loses.exists_lost (loses : grammar.Loses method state item terminal) :
    ∃ first ≤ state, ⟨first, item, terminal⟩ ∈ (grammar.study.compiled method).conflicts.lost := by
  have entry : ⟨state, item, terminal⟩ ∈ grammar.allLost method := mem_allLost.mpr loses
  obtain ⟨⟨first, keptItem, keptTerminal⟩, isKept, sameKey, below⟩ :=
    exists_first_mem_distinctOn (fun lost => (lost.item, lost.terminal)) pairwise_allLost entry
  obtain ⟨rfl, rfl⟩ := Prod.mk.inj sameKey
  rw [lost_study]
  exact ⟨first, below, isKept⟩

/-- A lost reduction is reported of the first state that loses it. -/
theorem mem_lost_iff {lost : LostReduction T} :
    lost ∈ (grammar.study.compiled method).conflicts.lost ↔
      grammar.Loses method lost.state lost.item lost.terminal ∧
        ∀ state < lost.state, ¬grammar.Loses method state lost.item lost.terminal := by
  constructor
  · intro isLost
    rw [lost_study] at isLost
    refine ⟨mem_allLost.mp (mem_of_mem_distinctOn isLost), ?_⟩
    intro state below loses
    have entry : ⟨state, lost.item, lost.terminal⟩ ∈ grammar.allLost method :=
      mem_allLost.mpr loses
    exact key_ne_of_rank_lt pairwise_allLost isLost entry below rfl
  · rintro ⟨loses, isFirst⟩
    obtain ⟨first, notAbove, isLost⟩ := loses.exists_lost
    have firstLoses : grammar.Loses method first lost.item lost.terminal := by
      rw [lost_study] at isLost
      exact mem_allLost.mp (mem_of_mem_distinctOn isLost)
    have notBelow : ¬first < lost.state := fun below => isFirst first below firstLoses
    obtain rfl : first = lost.state := by omega
    exact isLost

private theorem mem_allClashes {clash : Clash T} :
    clash ∈ grammar.allClashes method ↔
      grammar.Competes method clash.state ∧ clash = grammar.clashAt method clash.state := by
  simp only [allClashes, List.mem_filterMap, List.mem_range, clash?_eq_some_iff]
  constructor
  · rintro ⟨state, _, competes, rfl⟩
    exact ⟨competes, rfl⟩
  · rintro ⟨competes, same⟩
    obtain ⟨_, completed, _⟩ := competes.several
    have bound := lt_stateCount_of_mem (mem_completed_iff.mp completed).1
    exact ⟨clash.state, bound, competes, same⟩

private theorem Competes.clashAt_mem (competes : grammar.Competes method state) :
    grammar.clashAt method state ∈ grammar.allClashes method :=
  mem_allClashes.mpr ⟨competes, rfl⟩

private theorem items_clashAt :
    ((grammar.clashAt method state).nonkernel, (grammar.clashAt method state).kernel) =
      grammar.finished state :=
  Prod.mk.eta

private theorem pairwise_allClashes :
    (grammar.allClashes method).Pairwise fun first later => first.state ≤ later.state := by
  apply List.pairwise_filterMap.mpr
  apply List.pairwise_lt_range.imp
  intro lower upper below first isFirst later isLater
  rw [(clash?_eq_some_iff.mp isFirst).2, (clash?_eq_some_iff.mp isLater).2]
  exact Nat.le_of_lt below

/-- A clash that is reported is that of its state. -/
theorem competes_of_mem_clashes {clash : Clash T}
    (isClash : clash ∈ (grammar.study.compiled method).conflicts.clashes) :
    grammar.Competes method clash.state ∧ clash = grammar.clashAt method clash.state := by
  rw [clashes_study] at isClash
  exact mem_allClashes.mp (mem_of_mem_distinctOn isClash)

/-- Where items compete, their clash is reported, of that state or of a smaller one. -/
theorem Competes.exists_clash (competes : grammar.Competes method state) :
    ∃ clash ∈ (grammar.study.compiled method).conflicts.clashes,
      (clash.nonkernel, clash.kernel) = grammar.finished state ∧ clash.state ≤ state := by
  rw [clashes_study]
  obtain ⟨kept, isKept, sameItems, below⟩ := exists_first_mem_distinctOn
    (fun clash => (clash.nonkernel, clash.kernel)) pairwise_allClashes competes.clashAt_mem
  exact ⟨kept, isKept, sameItems.trans items_clashAt, below⟩

/-! ## What is finished -/

theorem mem_finished_nonkernel :
    item ∈ (grammar.finished state).1 ↔
      item ∈ grammar.automaton.completed grammar state ∧ item.isKernel grammar = false := by
  simp [finished, Ascending.mem_ofList]

theorem mem_finished_kernel :
    item ∈ (grammar.finished state).2 ↔
      item ∈ grammar.automaton.completed grammar state ∧ item.isKernel grammar = true := by
  simp [finished, Ascending.mem_ofList]

variable (grammar state) in
theorem isAscending_finished :
    Ascending.IsAscending Item.markerOrder (grammar.finished state).1 ∧
      Ascending.IsAscending Item.markerOrder (grammar.finished state).2 :=
  ⟨Ascending.isAscending_ofList _, Ascending.isAscending_ofList _⟩

/-- The two parts hold the completed items and no others. -/
theorem mem_finished :
    item ∈ (grammar.finished state).1 ∨ item ∈ (grammar.finished state).2 ↔
      item ∈ grammar.automaton.completed grammar state := by
  rw [mem_finished_nonkernel, mem_finished_kernel, ← and_or_left]
  exact and_iff_left (Bool.eq_false_or_eq_true _).symm

theorem Several.of_finished_eq {other : Nat} (several : grammar.Several state)
    (same : grammar.finished other = grammar.finished state) : grammar.Several other := by
  obtain ⟨left, leftCompleted, right, rightCompleted, differ⟩ := several
  rw [← mem_finished, ← same, mem_finished] at leftCompleted rightCompleted
  exact ⟨left, leftCompleted, right, rightCompleted, differ⟩

/-! ## The account -/

/-- Whatever the grammar, the table and the report of a method account for each other. -/
theorem accounts (grammar : Grammar T N) (method : Method) :
    grammar.Accounts method (grammar.study.compiled method) where
  kept_or_reported := by
    intro state item terminal reduces
    rw [lost_study, clashes_study, table_study]
    cases edge : grammar.automaton.goto? state (.terminal terminal) with
    | some target =>
        right
        left
        have loses := loses_iff.mpr ⟨reduces, Option.isSome_iff_exists.mpr ⟨target, edge⟩⟩
        have entry : ⟨state, item, terminal⟩ ∈ grammar.allLost method := mem_allLost.mpr loses
        obtain ⟨kept, isKept, sameKey⟩ :=
          exists_mem_distinctOn (fun lost => (lost.item, lost.terminal)) entry
        exact ⟨⟨target, (action?_eq_shift_iff reduces.listed).mpr edge⟩,
          List.mem_map.mpr ⟨kept, isKept, sameKey⟩⟩
    | none =>
        rcases reduces.action?_eq_or_contested reduces.listed edge with action | contested
        · exact .inl action
        · right
          right
          obtain ⟨kept, isKept, sameItems⟩ := exists_mem_distinctOn
            (fun clash => (clash.nonkernel, clash.kernel)) contested.competes.clashAt_mem
          exact List.mem_map.mpr ⟨kept, isKept, sameItems.trans items_clashAt⟩
  lost _ := mem_lost_iff.mp
  clash_items := by
    intro clash isClash
    rw [clashes_study] at isClash
    obtain ⟨competes, same⟩ := mem_allClashes.mp (mem_of_mem_distinctOn isClash)
    rw [same]
    exact ⟨items_clashAt, fun item => ⟨mem_finished_nonkernel, mem_finished_kernel⟩,
      competes.several⟩
  clash_lookaheads := by
    intro clash isClash
    rw [clashes_study] at isClash
    obtain ⟨competes, same⟩ := mem_allClashes.mp (mem_of_mem_distinctOn isClash)
    rw [same]
    refine ⟨fun terminal => mem_contestedTerminals, ?_⟩
    rintro rfl
    obtain ⟨terminal, contested⟩ := competes
    exact List.ne_nil_of_mem (mem_contestedTerminals.mpr contested)
  clash_first := by
    intro clash isClash state below sameItems
    rw [clashes_study] at isClash
    obtain ⟨competes, same⟩ := mem_allClashes.mp (mem_of_mem_distinctOn isClash)
    have quiet : ¬grammar.Competes method state := by
      intro alsoCompetes
      have differ := key_ne_of_rank_lt pairwise_allClashes isClash alsoCompetes.clashAt_mem below
      exact differ (items_clashAt.trans sameItems)
    cases method with
    | slr =>
        rw [same, items_clashAt] at sameItems
        exact absurd (competes.several.of_finished_eq sameItems) quiet
    | lalr => exact ⟨rfl, fun terminal contested => quiet ⟨terminal, contested⟩⟩

end Grammar

end ShiftReduce
