import ShiftReduce.Proofs.Table.Report

/-!
Contract: propagated lookaheads are never worse than FOLLOW.

Owns: a completed item is reduced by propagation only where it is reduced by FOLLOW, and by FOLLOW
in every state that has it completed; and `Sharpens`, by which the report under propagation tells of
nothing that the report under FOLLOW does not tell of, of the same state or of a smaller one.

The two methods report clashes by criteria of their own, so entries are compared through the states
that they are about and not with each other.
-/

namespace ShiftReduce

namespace Grammar

variable {T N : Type} [DecidableEq T] [DecidableEq N] {grammar : Grammar T N} {state other : Nat}
  {item : Item} {terminal : T}

/-- What propagation says of a grammar, FOLLOW says too. -/
structure Sharpens (grammar : Grammar T N) : Prop where
  lookaheads : ∀ state, ∀ item ∈ grammar.automaton.items state, ∃ terminals followers,
    grammar.study.propagation.get.lookaheads? state item = some terminals ∧
      grammar.study.firstFollow.get.follow? (grammar.rule item.rule).lhs = some followers ∧
      terminals ⊆ followers
  lost : ∀ lost ∈ (grammar.study.compiled .lalr).conflicts.lost, ∃ state ≤ lost.state,
    ⟨state, lost.item, lost.terminal⟩ ∈ (grammar.study.compiled .slr).conflicts.lost
  clashes : ∀ clash ∈ (grammar.study.compiled .lalr).conflicts.clashes,
    ∃ wider ∈ (grammar.study.compiled .slr).conflicts.clashes,
      wider.nonkernel = clash.nonkernel ∧ wider.kernel = clash.kernel ∧
        wider.state ≤ clash.state ∧ clash.lookaheads ⊆ wider.lookaheads
  parser : ∀ slr, grammar.study.parser .slr = .ok slr →
    ∃ lalr, grammar.study.parser .lalr = .ok lalr

/-! ## Reductions -/

/-- The accepting item is reduced on the end marker under either method; for the others, whatever
is propagated to a completed item may follow it. -/
theorem Reduces.slr (reduces : grammar.Reduces .lalr state item terminal) :
    grammar.Reduces .slr state item terminal := by
  cases accepting : item.isAccepting grammar with
  | true =>
      have ends := (reduces_iff_of_accepting accepting).mp reduces
      exact (reduces_iff_of_accepting accepting).mpr ends
  | false =>
      obtain ⟨completed, lookahead⟩ := (reduces_iff_of_ordinary accepting).mp reduces
      obtain ⟨access, walked, follows⟩ := exists_mayFollow_of_lookahead completed lookahead
      have inFollow := follows.mem_reductionLookaheads .slr walked
      exact (reduces_iff_of_ordinary accepting).mpr ⟨completed, inFollow⟩

/-- By FOLLOW, an item is reduced on the same terminals wherever it is completed. -/
theorem Reduces.slr_of_completed (reduces : grammar.Reduces .slr state item terminal)
    (completed : item ∈ grammar.automaton.completed grammar other) :
    grammar.Reduces .slr other item terminal := by
  refine ⟨completed, ?_⟩
  have inSet := reduces.inSet
  rw [Study.reductionLookaheads_study_slr] at inSet ⊢
  exact inSet

theorem Loses.slr (loses : grammar.Loses .lalr state item terminal) :
    grammar.Loses .slr state item terminal := by
  obtain ⟨reduces, shifts⟩ := loses_iff.mp loses
  exact loses_iff.mpr ⟨reduces.slr, shifts⟩

/-- What two items share under propagation, they share by FOLLOW in every state that has the same
items completed. -/
theorem Contested.slr_of_finished_eq (contested : grammar.Contested .lalr state terminal)
    (same : grammar.finished other = grammar.finished state) :
    grammar.Contested .slr other terminal := by
  have moves : ∀ item, grammar.Reduces .lalr state item terminal →
      grammar.Reduces .slr other item terminal := by
    intro item reduces
    have completed := reduces.completed
    rw [← mem_finished, ← same, mem_finished] at completed
    exact reduces.slr.slr_of_completed completed
  rcases contested with ⟨left, right, differ, leftReduces, rightReduces⟩
  exact ⟨left, right, differ, moves left leftReduces, moves right rightReduces⟩

/-! ## Reports -/

/-- The lookaheads, the report and the refusals under propagation are all within those by FOLLOW,
whatever the grammar. -/
theorem sharpens (grammar : Grammar T N) : grammar.Sharpens where
  lookaheads state item isItem := by
    obtain ⟨terminals, found, merged⟩ := exists_lookaheads? isItem
    have bound := (mem_allItems.mp (items_subset_allItems isItem)).1
    have listed := grammar.lhs_listed _ (rule_mem bound)
    rw [Study.propagation_study, Study.firstFollow_study]
    refine ⟨terminals, _, found, follow?_firstFollow listed, fun terminal member => ?_⟩
    obtain ⟨access, _, follows⟩ := (merged terminal).mp member
    exact follows.mem_follow
  lost lost isLost := (mem_lost_iff.mp isLost).1.slr.exists_lost
  clashes clash isClash := by
    obtain ⟨competes, same⟩ := competes_of_mem_clashes isClash
    -- By FOLLOW, several completed items clash whether or not they share a terminal.
    have several : grammar.Competes .slr clash.state := competes.several
    obtain ⟨wider, isWider, sameItems, below⟩ := several.exists_clash
    obtain ⟨_, widerSame⟩ := competes_of_mem_clashes isWider
    have finished : (wider.nonkernel, wider.kernel) = (clash.nonkernel, clash.kernel) := by
      rw [sameItems, same]
      rfl
    obtain ⟨sameNonkernel, sameKernel⟩ := Prod.mk.inj finished
    refine ⟨wider, isWider, sameNonkernel, sameKernel, below, fun terminal shared => ?_⟩
    rw [same] at shared
    have contested : grammar.Contested .lalr clash.state terminal :=
      mem_contestedTerminals.mp shared
    have sameFinished : grammar.finished wider.state = grammar.finished clash.state := by
      rw [← sameItems, widerSame]
      rfl
    rw [widerSame]
    exact mem_contestedTerminals.mpr (contested.slr_of_finished_eq sameFinished)
  parser slr usable := by
    obtain ⟨usable, _⟩ := parser_eq_ok_iff.mp usable
    exact ⟨_, usable.lalr.parser_eq⟩

end Grammar

end ShiftReduce
