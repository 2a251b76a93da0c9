import ShiftReduce.Proofs.Reordering.States
import ShiftReduce.Proofs.Table.Cells

/-!
Contract: the lookaheads of two grammars that differ in the order of their rules.

Owns: validity of items and what may follow them, in their places in the right grammar; and the
agreement of both methods, under which a completed item has the same lookaheads in both grammars.
-/

namespace ShiftReduce

variable {T N : Type} [DecidableEq N] {left right : Grammar T N}

namespace Grammar

variable {access : List (Symbol T N)} {item : Item} {terminal : T}

theorem Valid.reorder (reordering : Reordering left right) (valid : left.Valid access item) :
    right.Valid access (reordering.item item) := by
  induction valid with
  | start => exact reordering.item_startItem ▸ .start
  | implied _ implied inductionHypothesis =>
      exact .implied inductionHypothesis (reordering.item_mem_implied_iff.mpr implied)
  | advance _ expects inductionHypothesis =>
      exact .advance inductionHypothesis ((reordering.next?_item _).trans expects)

theorem MayFollow.reorder (reordering : Reordering left right)
    (follows : left.MayFollow access item terminal) :
    right.MayFollow access (reordering.item item) terminal := by
  induction follows with
  | start =>
      rw [reordering.item_startItem, ← reordering.vocabulary_eq]
      exact .start
  | opens valid implied begins =>
      apply MayFollow.opens (valid.reorder reordering) (reordering.item_mem_implied_iff.mpr implied)
      rwa [reordering.suffix_item, reordering.canBegin_iff]
  | inherits _ implied vanishes inductionHypothesis =>
      apply MayFollow.inherits inductionHypothesis (reordering.item_mem_implied_iff.mpr implied)
      rwa [reordering.suffix_item, reordering.derives_iff]
  | advance _ expects inductionHypothesis =>
      exact .advance inductionHypothesis ((reordering.next?_item _).trans expects)

end Grammar

namespace Reordering

variable [DecidableEq T] (reordering : Reordering left right)

theorem merges_item_iff {state : Nat} {item : Item} {terminal : T} :
    right.Merges state (reordering.item item) terminal ↔ left.Merges state item terminal := by
  apply exists_congr
  intro access
  rw [reordering.walk_eq]
  apply and_congr_right
  intro _
  constructor
  · intro follows
    rw [← reordering.symm_item_item item]
    exact follows.reorder reordering.symm
  · exact .reorder reordering

theorem item_mem_items_iff {state : Nat} {item : Item} :
    reordering.item item ∈ right.automaton.items state ↔ item ∈ left.automaton.items state := by
  rw [reordering.items_eq, reordering.item_mem_image_iff]

theorem item_mem_completed_iff {state : Nat} {item : Item} :
    reordering.item item ∈ right.automaton.completed right state ↔
      item ∈ left.automaton.completed left state := by
  rw [Grammar.mem_completed_iff, Grammar.mem_completed_iff, reordering.item_mem_items_iff,
    reordering.isComplete_item]

private theorem mem_propagated_iff {state : Nat} {item : Item} {terminal : T} :
    terminal ∈ (right.propagation right.firstFollow right.automaton).reductionLookaheads state
        (reordering.item item) ↔
      terminal ∈ (left.propagation left.firstFollow left.automaton).reductionLookaheads state
        item := by
  unfold Propagation.reductionLookaheads
  by_cases isItem : item ∈ left.automaton.items state
  · obtain ⟨terminals, found, merged⟩ := Grammar.exists_lookaheads? isItem
    obtain ⟨others, otherFound, otherMerged⟩ :=
      Grammar.exists_lookaheads? (reordering.item_mem_items_iff.mpr isItem)
    rw [found, otherFound, Option.getD_some, Option.getD_some, merged, otherMerged,
      reordering.merges_item_iff]
  · rw [Grammar.lookaheads?_eq_none isItem,
      Grammar.lookaheads?_eq_none (mt reordering.item_mem_items_iff.mp isItem)]

theorem mem_reductionLookaheads_iff {method : Method} {state : Nat} {item : Item} {terminal : T} :
    terminal ∈ right.study.reductionLookaheads method state (reordering.item item) ↔
      terminal ∈ left.study.reductionLookaheads method state item := by
  cases method with
  | slr =>
      rw [Study.reductionLookaheads_study_slr, Study.reductionLookaheads_study_slr,
        reordering.firstFollow_eq, FirstFollow.reductionLookaheads, FirstFollow.reductionLookaheads,
        reordering.rule_item]
  | lalr =>
      rw [Study.reductionLookaheads_study_lalr, Study.reductionLookaheads_study_lalr]
      exact reordering.mem_propagated_iff

end Reordering

end ShiftReduce
