import ShiftReduce.Proofs.FirstFollow.FollowRounds

/-!
Contract: rounds look up no cell that is not there.

Owns: `FirstInRange` and `FollowInRange`, by which the cells that a rule or a placement reads and
writes exist and hold listed terminals only; and the theorems that these hold of all cells that the
rounds for FIRST and for FOLLOW come by, and of those of a study.

That there is a cell for each listed nonterminal and that nothing but listed terminals comes in is
kept by every single step, so it does not matter in which order the steps are taken.
-/

namespace ShiftReduce

namespace FirstFollow

variable {T N : Type} {sets : FirstFollow T N} {grammar : Grammar T N} {nonterminal : N}

/-- There are cells for whether the nonterminal vanishes and for what it can begin with. -/
structure HasFirst (sets : FirstFollow T N) (nonterminal : N) : Prop where
  nullable : sets.cell nonterminal < sets.nullableCells.size
  first : sets.cell nonterminal < sets.firstCells.size

/-- There is a cell for what can stand behind the nonterminal. -/
def HasFollow (sets : FirstFollow T N) (nonterminal : N) : Prop :=
  sets.cell nonterminal < sets.followCells.size

/-- Each cell that a rule reads or writes for FIRST is there, and holds listed terminals. -/
structure FirstInRange (sets : FirstFollow T N) (grammar : Grammar T N) : Prop where
  lhs : ∀ rule ∈ grammar.rules, sets.HasFirst rule.lhs
  rhs : ∀ rule ∈ grammar.rules, ∀ nonterminal, .nonterminal nonterminal ∈ rule.rhs →
    sets.HasFirst nonterminal
  terminals : ∀ nonterminal ∈ grammar.vocabulary.nonterminals.all,
    sets.first nonterminal ⊆ grammar.vocabulary.terminals.all

/-- The cell that FOLLOW begins from and each cell that a placement reads or writes are there, and
those of FOLLOW hold listed terminals. -/
structure FollowInRange (sets : FirstFollow T N) (grammar : Grammar T N) : Prop where
  start : sets.HasFollow grammar.start
  host : ∀ placement ∈ grammar.placements, sets.HasFollow placement.host
  placed : ∀ placement ∈ grammar.placements, sets.HasFollow placement.nonterminal
  behind : ∀ placement ∈ grammar.placements, ∀ nonterminal,
    .nonterminal nonterminal ∈ placement.behind → sets.HasFirst nonterminal
  terminals : ∀ nonterminal ∈ grammar.vocabulary.nonterminals.all,
    sets.follow nonterminal ⊆ grammar.vocabulary.terminals.all

/-! ## FIRST -/

theorem hasFirst_of_listed (same : sets.vocabulary = grammar.vocabulary)
    (nullable_size : sets.nullableCells.size = grammar.vocabulary.nonterminals.size)
    (first_size : sets.firstCells.size = grammar.vocabulary.nonterminals.size)
    (listed : grammar.vocabulary.nonterminals.Lists nonterminal) : sets.HasFirst nonterminal := by
  have bound := listed.index_lt
  rw [← same] at bound
  constructor
  · rw [nullable_size, ← same]
    exact bound
  · rw [first_size, ← same]
    exact bound

theorem firstInRange_of_subset (same : sets.vocabulary = grammar.vocabulary)
    (nullable_size : sets.nullableCells.size = grammar.vocabulary.nonterminals.size)
    (first_size : sets.firstCells.size = grammar.vocabulary.nonterminals.size)
    (subset : ∀ nonterminal, grammar.vocabulary.nonterminals.Lists nonterminal →
      sets.first nonterminal ⊆ grammar.vocabulary.terminals.all) :
    sets.FirstInRange grammar where
  lhs rule member := hasFirst_of_listed same nullable_size first_size
    (grammar.lhs_listed rule member)
  rhs rule member nonterminal occurs := hasFirst_of_listed same nullable_size first_size
    (grammar.rhs_listed rule member (.nonterminal nonterminal) occurs)
  terminals nonterminal isListed :=
    subset nonterminal (grammar.nonterminals_listed nonterminal isListed)

/-- Whatever rules have been absorbed in whatever order, the next one finds its cells. -/
theorem firstInRange_of_visits [DecidableEq N]
    (visits : filling.Visits grammar.rules.toList (blank grammar.vocabulary) sets) :
    sets.FirstInRange grammar := by
  have sound := (fillingMeasure grammar).holds_of_visits isSound_blank visits
  exact firstInRange_of_subset sound.vocabulary_eq sound.nullable_size sound.first_size
    fun _ listed => sound.first_subset listed

/-! ## FOLLOW -/

variable [DecidableEq T] [DecidableEq N]

theorem IsHeeding.hasFollow (heeding : sets.IsHeeding grammar)
    (listed : grammar.vocabulary.nonterminals.Lists nonterminal) : sets.HasFollow nonterminal := by
  rw [HasFollow, heeding.follow_size, cell, heeding.describes.vocabulary_eq]
  exact listed.index_lt

theorem IsHeeding.followInRange (heeding : sets.IsHeeding grammar) :
    sets.FollowInRange grammar where
  start := heeding.hasFollow grammar.start_listed
  host _ placed := heeding.hasFollow (Grammar.listed_of_placed placed).1
  placed _ placed := heeding.hasFollow (Grammar.listed_of_placed placed).2.1
  behind _ placed nonterminal occurs := hasFirst_of_listed heeding.describes.vocabulary_eq
    heeding.nullable_size heeding.first_size
    ((Grammar.listed_of_placed placed).2.2 (.nonterminal nonterminal) occurs)
  terminals nonterminal isListed :=
    heeding.follow_subset (grammar.nonterminals_listed nonterminal isListed)

/-- Whatever placements have been learnt from in whatever order, the next one finds its cells. -/
theorem followInRange_of_visits {filled : FirstFollow T N}
    (settles : Settles grammar.rules.toList (blank grammar.vocabulary) filled)
    (visits : following.Visits grammar.placements (filled.seeded grammar.start) sets) :
    sets.FollowInRange grammar := by
  have seeded := isHeeding_of_settles settles
  exact ((followingMeasure grammar).holds_of_visits seeded visits).followInRange

end FirstFollow

/-! ## The sets of a study -/

namespace Grammar

variable {T N : Type} [DecidableEq T] [DecidableEq N]

theorem isHeeding_firstFollow (grammar : Grammar T N) : grammar.firstFollow.IsHeeding grammar where
  describes := firstFollow_describes
  nullable_size := grammar.size_nullableCells_firstFollow
  first_size := Array.size_map.trans List.size_toArray
  follow_size := Array.size_map.trans List.size_toArray
  follows _ _ _ known := known
  ascending _ listed := isAscending_follow listed
  ends := endMarker_mem_follow

theorem firstInRange_firstFollow (grammar : Grammar T N) :
    grammar.firstFollow.FirstInRange grammar := by
  have heeding := grammar.isHeeding_firstFollow
  apply FirstFollow.firstInRange_of_subset rfl heeding.nullable_size heeding.first_size
  intro nonterminal listed terminal opening
  have begins := (firstFollow_describes.mem_first_iff nonterminal terminal listed).mp opening
  refine (begins.listed fun symbol single => ?_).mem
  rw [List.mem_singleton.mp single]
  exact listed

end Grammar

end ShiftReduce
