import ShiftReduce.Proofs.Table.Clashes

/-!
Contract: what a table without conflicts promises.

Owns: without clashes no terminal is contested, so that each terminal which may follow a completed
item is either shifted or has the item's rule reduced on it; and without lost reductions it is not
shifted.
-/

namespace ShiftReduce

namespace Grammar

variable {T N : Type} [DecidableEq T] [DecidableEq N] {grammar : Grammar T N} {method : Method}

/-- A table drives a parser if its completed items compete in no state. -/
theorem isUsable_iff : grammar.IsUsable method ↔ ∀ state, ¬grammar.Competes method state := by
  rw [IsUsable, Study.compiled_study]
  constructor
  · intro noClashes state competes
    obtain ⟨left, leftCompleted, _⟩ := competes.several
    have bound := lt_stateCount_of_mem (mem_completed_iff.mp leftCompleted).1
    have none := eq_nil_of_distinctOn_eq_nil noClashes
    have noClash := List.filterMap_eq_nil_iff.mp none state (List.mem_range.mpr bound)
    have found := clash?_eq_some_iff.mpr ⟨competes, rfl⟩
    rw [noClash] at found
    cases found
  · intro quiet
    have none : (List.range grammar.automaton.stateCount).filterMap
        (grammar.clash? grammar.automaton method (grammar.study.reductionLookaheads method)) =
          [] := by
      apply List.filterMap_eq_nil_iff.mpr
      intro state _
      apply Option.eq_none_iff_forall_ne_some.mpr
      intro clash found
      exact quiet state (clash?_eq_some_iff.mp found).1
    show distinctOn _ _ = []
    rw [none]
    rfl

/-- In a state of a usable table no terminal is contested. -/
theorem IsUsable.not_contested (usable : grammar.IsUsable method) {state : Nat} {terminal : T} :
    ¬grammar.Contested method state terminal := by
  intro contested
  exact isUsable_iff.mp usable state contested.competes

/-- What FOLLOW can do with, propagation can do with. -/
theorem IsUsable.lalr (usable : grammar.IsUsable .slr) : grammar.IsUsable .lalr := by
  apply isUsable_iff.mpr
  intro state competes
  exact isUsable_iff.mp usable state competes.several

/-- Where a rule has been read, a lookahead that is not shifted has the rule reduced. -/
theorem IsUsable.action?_eq_reduce (usable : grammar.IsUsable method) {state : Nat} {item : Item}
    (completed : item ∈ grammar.automaton.completed grammar state)
    (ordinary : item.isAccepting grammar = false) {terminal : T}
    (listed : grammar.vocabulary.terminals.Lists terminal)
    (lookahead : terminal ∈ grammar.study.reductionLookaheads method state item)
    (unshifted : grammar.automaton.goto? state (.terminal terminal) = none) :
    (grammar.driver method).table.action? state terminal = some (.reduce item.rule) := by
  have reduces := (reduces_iff_of_ordinary ordinary).mpr ⟨completed, lookahead⟩
  have action := (reduces.action?_eq_or_contested listed unshifted).resolve_right
    usable.not_contested
  rwa [completion, ordinary, if_neg Bool.false_ne_true] at action

/-! ## What may follow is looked ahead -/

variable (method) in
theorem MayFollow.mem_reductionLookaheads {access : List (Symbol T N)} {item : Item} {terminal : T}
    (follows : grammar.MayFollow access item terminal) {state : Nat}
    (walked : grammar.automaton.walk 0 access = some state) :
    terminal ∈ grammar.study.reductionLookaheads method state item := by
  cases method with
  | slr =>
      rw [Study.reductionLookaheads_study_slr]
      exact follows.mem_follow
  | lalr =>
      rw [Study.reductionLookaheads_study_lalr]
      obtain ⟨terminals, found, merged⟩ :=
        exists_lookaheads? ((valid_iff_of_walk walked).mp follows.valid)
      rw [Propagation.reductionLookaheads, found]
      exact (merged terminal).mpr ⟨access, walked, follows⟩

/-- A propagated lookahead follows the item after some string that leads to the state. -/
theorem exists_mayFollow_of_lookahead {state : Nat} {item : Item}
    (completed : item ∈ grammar.automaton.completed grammar state) {terminal : T}
    (lookahead : terminal ∈ grammar.study.reductionLookaheads .lalr state item) :
    ∃ access, grammar.automaton.walk 0 access = some state ∧
      grammar.MayFollow access item terminal := by
  obtain ⟨terminals, found, merged⟩ := exists_lookaheads? (mem_completed_iff.mp completed).1
  rw [Study.reductionLookaheads_study_lalr, Propagation.reductionLookaheads, found] at lookahead
  exact (merged terminal).mp lookahead

/-! ## Reports without any entry -/

/-- Neither lost reductions nor clashes. -/
theorem isUsable_of_isEmpty
    (empty : (grammar.study.compiled method).conflicts.isEmpty = true) :
    grammar.IsUsable method := by
  rw [Conflicts.isEmpty, Bool.and_eq_true] at empty
  exact List.isEmpty_iff.mp empty.2

theorem goto?_eq_none_of_isEmpty
    (empty : (grammar.study.compiled method).conflicts.isEmpty = true) {state : Nat} {item : Item}
    (completed : item ∈ grammar.automaton.completed grammar state)
    (ordinary : item.isAccepting grammar = false) {terminal : T}
    (lookahead : terminal ∈ grammar.study.reductionLookaheads method state item) :
    grammar.automaton.goto? state (.terminal terminal) = none := by
  have bound := lt_stateCount_of_mem (mem_completed_iff.mp completed).1
  rw [Conflicts.isEmpty, Bool.and_eq_true, Study.compiled_study] at empty
  have noneLost := eq_nil_of_distinctOn_eq_nil (List.isEmpty_iff.mp empty.1)
  have noneHere := List.flatMap_eq_nil_iff.mp noneLost state (List.mem_range.mpr bound)
  have noneOfItem := List.flatMap_eq_nil_iff.mp noneHere item completed
  rw [ordinary, if_neg Bool.false_ne_true, List.map_eq_nil_iff] at noneOfItem
  have kept := List.filter_eq_nil_iff.mp noneOfItem terminal lookahead
  simpa using kept

end Grammar

end ShiftReduce
