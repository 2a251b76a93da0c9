import ShiftReduce.Proofs.FirstFollow.Neighbours
import ShiftReduce.Proofs.FirstFollow.Rounds

/-!
Contract: FOLLOW by rounds over the places of nonterminals in rules.

Owns: `Placement`, an occurrence of a nonterminal in a rule; the cells that learn from placements
what stands behind their nonterminals; and the theorem that rounds over all placements end, with
FOLLOW cells that are exact, as those of a study are.

The cells say no more than FOLLOW does, because each lesson is one of the rules by which FOLLOW
passes on. Cells that learn nothing more say as much, by induction on the hosts of a nonterminal.
-/

namespace ShiftReduce

variable {T N : Type}

/-- An occurrence of a nonterminal in a rule: the left side of the rule, and what stands behind. -/
structure Placement (T N : Type) where
  host : N
  nonterminal : N
  behind : List (Symbol T N)

/-- The placements of a rule, from left to right. -/
def Rule.placements (rule : Rule T N) : List (Placement T N) :=
  (splits rule.rhs).filterMap fun (_, symbol, behind) =>
    symbol.nonterminal?.map fun nonterminal => ⟨rule.lhs, nonterminal, behind⟩

/-- The placements of all rules, in the order of the rules. -/
def Grammar.placements (grammar : Grammar T N) : List (Placement T N) :=
  grammar.rules.toList.flatMap Rule.placements

namespace Grammar

theorem mem_placements {grammar : Grammar T N} {placement : Placement T N} :
    placement ∈ grammar.placements ↔ ∃ rule ∈ grammar.rules, rule.lhs = placement.host ∧
      ∃ before, rule.rhs = before ++ .nonterminal placement.nonterminal :: placement.behind := by
  simp only [placements, Rule.placements, List.mem_flatMap, List.mem_filterMap, Prod.exists,
    mem_splits, Array.mem_toList_iff, Option.map_eq_some_iff]
  constructor
  · intro placed
    rcases placed with ⟨rule, member, before, symbol, behind, spelled, letter, isLetter, rfl⟩
    cases symbol with
    | terminal other => cases isLetter
    | nonterminal other =>
        cases isLetter
        exact ⟨rule, member, rfl, before, spelled⟩
  · intro placed
    rcases placed with ⟨rule, member, isHost, before, spelled⟩
    exact ⟨rule, member, before, _, _, spelled, placement.nonterminal, rfl, by rw [isHost]⟩

theorem listed_of_placed {grammar : Grammar T N} {placement : Placement T N}
    (placed : placement ∈ grammar.placements) :
    grammar.vocabulary.nonterminals.Lists placement.host ∧
      grammar.vocabulary.nonterminals.Lists placement.nonterminal ∧
      ∀ other ∈ placement.behind, grammar.vocabulary.Lists other := by
  obtain ⟨rule, member, isHost, before, spelled⟩ := mem_placements.mp placed
  exact ⟨isHost ▸ grammar.lhs_listed rule member, listed_of_rhs member spelled⟩

end Grammar

namespace FirstFollow

/-- Nothing stands behind any nonterminal yet but the end marker behind the start symbol. -/
def seeded (sets : FirstFollow T N) (start : N) : FirstFollow T N :=
  { sets with
    followCells := (Array.replicate sets.vocabulary.nonterminals.size []).modify (sets.cell start)
      (Ascending.insert sets.vocabulary.terminals.order sets.vocabulary.endMarker) }

/-- What stands behind the nonterminal at its placement: FIRST of the rest of the rule, and FOLLOW
of the left side if the rest vanishes. -/
def heard (sets : FirstFollow T N) (placement : Placement T N) : List T :=
  let (terminals, nullable) := sets.firstOf placement.behind
  if nullable then
    Ascending.union sets.vocabulary.terminals.order terminals (sets.follow placement.host)
  else terminals

/-- FOLLOW of the nonterminal with what stands behind it at its placement. -/
def widened (sets : FirstFollow T N) (placement : Placement T N) : List T :=
  Ascending.union sets.vocabulary.terminals.order (sets.follow placement.nonterminal)
    (sets.heard placement)

/-- The cell of the nonterminal takes in what stands behind it at its placement. -/
def learn (sets : FirstFollow T N) (placement : Placement T N) : FirstFollow T N :=
  { sets with
    followCells := sets.followCells.modify (sets.cell placement.nonterminal) fun known =>
      Ascending.union sets.vocabulary.terminals.order known (sets.heard placement) }

/-- The placement makes FOLLOW of its nonterminal longer. -/
def learns (sets : FirstFollow T N) (placement : Placement T N) : Bool :=
  (sets.widened placement).length != (sets.follow placement.nonterminal).length

/-- The cells take in placements. -/
def following : Intake (FirstFollow T N) (Placement T N) := ⟨learn, learns⟩

/-! ## One placement -/

variable {sets : FirstFollow T N} {grammar : Grammar T N} {placement : Placement T N}
  {nonterminal : N} {terminal : T}

/-- Nullability and FIRST are those of the grammar, and FOLLOW cells hold ascending sets of
terminals that follow, the end marker in that of the start symbol. -/
structure IsHeeding [DecidableEq T] [DecidableEq N] (sets : FirstFollow T N)
    (grammar : Grammar T N) : Prop where
  describes : sets.Describes grammar
  nullable_size : sets.nullableCells.size = grammar.vocabulary.nonterminals.size
  first_size : sets.firstCells.size = grammar.vocabulary.nonterminals.size
  follow_size : sets.followCells.size = grammar.vocabulary.nonterminals.size
  follows : ∀ nonterminal terminal, grammar.vocabulary.nonterminals.Lists nonterminal →
    terminal ∈ sets.follow nonterminal → terminal ∈ grammar.firstFollow.follow nonterminal
  ascending : ∀ nonterminal, grammar.vocabulary.nonterminals.Lists nonterminal →
    Ascending.IsAscending grammar.vocabulary.terminals.order (sets.follow nonterminal)
  ends : grammar.vocabulary.endMarker ∈ sets.follow grammar.start

theorem mem_heard : terminal ∈ sets.heard placement ↔
    terminal ∈ (sets.firstOf placement.behind).1 ∨
      (sets.firstOf placement.behind).2 = true ∧ terminal ∈ sets.follow placement.host := by
  rw [heard]
  rcases sets.firstOf placement.behind with ⟨terminals, nullable⟩
  cases nullable with
  | true => simp [Ascending.mem_union]
  | false => simp

/-- A placement of which nothing is learnt leaves the cells as they are. -/
theorem learn_eq_of_not_learns (stays : sets.learns placement = false) :
    sets.learn placement = sets ∧
      ∀ terminal ∈ sets.heard placement, terminal ∈ sets.follow placement.nonterminal := by
  have equal : (sets.widened placement).length = (sets.follow placement.nonterminal).length := by
    simpa [learns] using stays
  have same : sets.widened placement = sets.follow placement.nonterminal :=
    Ascending.union_eq_of_length_eq _ equal
  constructor
  · show ({ sets with followCells := _ } : FirstFollow T N) = sets
    congr 1
    apply modify_eq_self
    intro known found
    rw [widened, follow, Array.getD_eq_getD_getElem?, found] at same
    exact same
  · intro terminal isHeard
    rw [← same]
    exact Ascending.mem_union.mpr (.inr isHeard)

section Learning

variable [DecidableEq T] [DecidableEq N] (heeding : sets.IsHeeding grammar)
  (placed : placement ∈ grammar.placements)

include heeding placed

theorem IsHeeding.follow_learn (listed : grammar.vocabulary.nonterminals.Lists nonterminal) :
    (sets.learn placement).follow nonterminal =
      if nonterminal = placement.nonterminal then sets.widened placement
      else sets.follow nonterminal := by
  have cell : (sets.learn placement).follow nonterminal =
      if nonterminal = placement.nonterminal then
        Ascending.union sets.vocabulary.terminals.order (sets.follow nonterminal)
          (sets.heard placement)
      else sets.follow nonterminal :=
    getD_modify_cell heeding.describes.vocabulary_eq heeding.follow_size
      (Grammar.listed_of_placed placed).2.1 listed
  rw [cell]
  split
  · next same => rw [widened, ← same]
  · rfl

/-- What is heard at a placement follows the nonterminal. -/
theorem IsHeeding.mem_follow_of_mem_heard (isHeard : terminal ∈ sets.heard placement) :
    terminal ∈ grammar.firstFollow.follow placement.nonterminal := by
  obtain ⟨rule, member, isHost, before, spelled⟩ := Grammar.mem_placements.mp placed
  have exact := heeding.describes.firstOf_iff (Grammar.listed_of_rhs member spelled).2
  rcases mem_heard.mp isHeard with opening | ⟨nullable, behindHost⟩
  · exact Grammar.mem_follow_of_canBegin member spelled ((exact.2 terminal).mp opening)
  · refine Grammar.follow_lhs_subset member spelled (exact.1.mp nullable) ?_
    rw [isHost]
    exact heeding.follows _ terminal (isHost ▸ grammar.lhs_listed rule member) behindHost

theorem IsHeeding.learn : (sets.learn placement).IsHeeding grammar where
  describes := ⟨heeding.describes.vocabulary_eq, heeding.describes.isNullable_iff,
    heeding.describes.mem_first_iff⟩
  nullable_size := heeding.nullable_size
  first_size := heeding.first_size
  follow_size := Array.size_modify.trans heeding.follow_size
  follows nonterminal terminal listed known := by
    rw [heeding.follow_learn placed listed] at known
    split at known
    · next same =>
        subst same
        rcases Ascending.mem_union.mp known with before | isHeard
        · exact heeding.follows _ terminal listed before
        · exact heeding.mem_follow_of_mem_heard placed isHeard
    · exact heeding.follows nonterminal terminal listed known
  ascending nonterminal listed := by
    rw [heeding.follow_learn placed listed]
    split
    · next same =>
        rw [widened, heeding.describes.vocabulary_eq, ← same]
        exact Ascending.isAscending_union (heeding.ascending nonterminal listed)
    · exact heeding.ascending nonterminal listed
  ends := by
    rw [heeding.follow_learn placed grammar.start_listed]
    split
    · next same =>
        rw [widened, ← same]
        exact Ascending.mem_union.mpr (.inl heeding.ends)
    · exact heeding.ends

end Learning

/-! ## Weight -/

/-- How much the FOLLOW cells say of the listed nonterminals. -/
def followWeight (sets : FirstFollow T N) : Nat :=
  (sets.vocabulary.nonterminals.all.map fun nonterminal => (sets.follow nonterminal).length).sum

variable [DecidableEq T] [DecidableEq N]

theorem IsHeeding.follow_subset (heeding : sets.IsHeeding grammar)
    (listed : grammar.vocabulary.nonterminals.Lists nonterminal) :
    sets.follow nonterminal ⊆ grammar.vocabulary.terminals.all := by
  intro terminal known
  have follows := heeding.follows nonterminal terminal listed known
  exact (Grammar.listed_of_mem_follow listed follows).mem

theorem IsHeeding.followWeight_le (heeding : sets.IsHeeding grammar) :
    sets.followWeight ≤
      grammar.vocabulary.nonterminals.size * grammar.vocabulary.terminals.size := by
  rw [followWeight, heeding.describes.vocabulary_eq]
  have bounded := List.sum_le_card_nsmul (grammar.vocabulary.nonterminals.all.map fun nonterminal =>
    (sets.follow nonterminal).length) grammar.vocabulary.terminals.size ?_
  · rwa [List.length_map] at bounded
  intro share isShare
  obtain ⟨nonterminal, isListed, rfl⟩ := List.mem_map.mp isShare
  have listed := grammar.nonterminals_listed nonterminal isListed
  exact (Ascending.nodup_of_isAscending (heeding.ascending nonterminal listed)).length_le_of_subset
    (heeding.follow_subset listed)

/-- What is learnt makes the cells say more. -/
theorem IsHeeding.followWeight_lt (heeding : sets.IsHeeding grammar)
    (placed : placement ∈ grammar.placements) (learns : sets.learns placement = true) :
    sets.followWeight < (sets.learn placement).followWeight := by
  have placementListed := (Grammar.listed_of_placed placed).2.1
  have differs : (sets.widened placement).length ≠ (sets.follow placement.nonterminal).length := by
    simpa [FirstFollow.learns] using learns
  have longer : (sets.follow placement.nonterminal).length < (sets.widened placement).length := by
    refine (Ascending.union_eq_or_length_lt _ _ _).resolve_left fun same => ?_
    exact differs (congrArg List.length same)
  rw [followWeight, followWeight,
    show (sets.learn placement).vocabulary = sets.vocabulary from rfl,
    heeding.describes.vocabulary_eq]
  apply List.sum_lt_sum
  · intro nonterminal isListed
    rw [heeding.follow_learn placed (grammar.nonterminals_listed nonterminal isListed)]
    split
    · next same => exact same ▸ Nat.le_of_lt longer
    · exact Nat.le_refl _
  · refine ⟨placement.nonterminal, placementListed.mem, ?_⟩
    rwa [heeding.follow_learn placed placementListed, if_pos rfl]

/-- What the FOLLOW cells say stays so, and it grows by each lesson until it is everything. -/
def followingMeasure (grammar : Grammar T N) : following.Measure grammar.placements where
  Holds sets := sets.IsHeeding grammar
  weight := followWeight
  bound := grammar.vocabulary.nonterminals.size * grammar.vocabulary.terminals.size
  holds_absorb _ _ placed heeding := heeding.learn placed
  absorb_eq _ _ _ _ stays := (learn_eq_of_not_learns stays).1
  weight_lt _ _ placed heeding learns := heeding.followWeight_lt placed learns
  weight_le _ heeding := heeding.followWeight_le

/-! ## From the end marker on -/

omit [DecidableEq T] in
theorem follow_seeded (same : sets.vocabulary = grammar.vocabulary)
    (listed : grammar.vocabulary.nonterminals.Lists nonterminal) :
    (sets.seeded grammar.start).follow nonterminal =
      if nonterminal = grammar.start then [grammar.vocabulary.endMarker] else [] := by
  have sized : (Array.replicate sets.vocabulary.nonterminals.size ([] : List T)).size =
      grammar.vocabulary.nonterminals.size := by
    rw [Array.size_replicate, same]
  have cell : (sets.seeded grammar.start).follow nonterminal = if nonterminal = grammar.start then
      Ascending.insert sets.vocabulary.terminals.order sets.vocabulary.endMarker
        ((Array.replicate sets.vocabulary.nonterminals.size []).getD (sets.cell nonterminal) [])
      else (Array.replicate sets.vocabulary.nonterminals.size []).getD
        (sets.cell nonterminal) [] :=
    getD_modify_cell same sized grammar.start_listed listed
  rw [cell, getD_replicate, same]
  rfl

theorem isHeeding_seeded (describes : sets.Describes grammar)
    (nullable_size : sets.nullableCells.size = grammar.vocabulary.nonterminals.size)
    (first_size : sets.firstCells.size = grammar.vocabulary.nonterminals.size) :
    (sets.seeded grammar.start).IsHeeding grammar where
  describes := ⟨describes.vocabulary_eq, describes.isNullable_iff, describes.mem_first_iff⟩
  nullable_size := nullable_size
  first_size := first_size
  follow_size := by
    rw [seeded, Array.size_modify, Array.size_replicate, describes.vocabulary_eq]
  follows nonterminal terminal listed known := by
    rw [follow_seeded describes.vocabulary_eq listed] at known
    split at known
    · next isStart =>
        rw [isStart, List.mem_singleton.mp known]
        exact Grammar.endMarker_mem_follow
    · cases known
  ascending nonterminal listed := by
    rw [follow_seeded describes.vocabulary_eq listed]
    split
    · exact List.pairwise_singleton _ _
    · exact List.Pairwise.nil
  ends := by
    rw [follow_seeded describes.vocabulary_eq grammar.start_listed, if_pos rfl]
    exact List.mem_cons_self

/-- The rounds for FOLLOW begin where those for FIRST have ended. -/
theorem isHeeding_of_settles
    (settles : Settles grammar.rules.toList (blank grammar.vocabulary) sets) :
    (sets.seeded grammar.start).IsHeeding grammar := by
  obtain ⟨sound, stays⟩ := isSound_of_settles settles
  exact isHeeding_seeded (sound.describes stays) sound.nullable_size sound.first_size

/-! ## What rounds leave alone -/

section Settled

variable (stays : ∀ placement ∈ grammar.placements, sets.learns placement = false)

include stays

omit [DecidableEq T] [DecidableEq N] in
theorem mem_follow_of_heard {rule : Rule T N} (member : rule ∈ grammar.rules)
    {before behind : List (Symbol T N)}
    (spelled : rule.rhs = before ++ .nonterminal nonterminal :: behind)
    (isHeard : terminal ∈ (sets.firstOf behind).1 ∨
      (sets.firstOf behind).2 = true ∧ terminal ∈ sets.follow rule.lhs) :
    terminal ∈ sets.follow nonterminal := by
  have placed : (⟨rule.lhs, nonterminal, behind⟩ : Placement T N) ∈ grammar.placements :=
    Grammar.mem_placements.mpr ⟨rule, member, rfl, before, spelled⟩
  exact (learn_eq_of_not_learns (stays _ placed)).2 terminal (mem_heard.mpr isHeard)

/-- What stands behind a host stands behind the nonterminal. -/
theorem IsHeeding.follow_host_subset (heeding : sets.IsHeeding grammar) {source : N}
    (reached : Exploration.Reachable (grammar.hosts grammar.nullables) [nonterminal] source) :
    ∀ terminal ∈ sets.follow source, terminal ∈ sets.follow nonterminal := by
  induction reached with
  | seed isSeed =>
      intro terminal known
      exact List.mem_singleton.mp isSeed ▸ known
  | step _ isHost inductionHypothesis =>
      intro terminal known
      obtain ⟨rule, member, rfl, before, behind, spelled, vanishes⟩ := Grammar.mem_hosts.mp isHost
      have exact := heeding.describes.firstOf_iff (Grammar.listed_of_rhs member spelled).2
      exact inductionHypothesis terminal
        (mem_follow_of_heard stays member spelled (.inr ⟨exact.1.mpr vanishes, known⟩))

/-- FOLLOW cells that learn nothing more are those of the grammar. -/
theorem IsHeeding.follow_eq (heeding : sets.IsHeeding grammar)
    (listed : grammar.vocabulary.nonterminals.Lists nonterminal) :
    sets.follow nonterminal = grammar.firstFollow.follow nonterminal := by
  refine Ascending.eq_of_mem_iff (heeding.ascending nonterminal listed)
    (Grammar.isAscending_follow listed) ?_
  intro terminal
  constructor
  · exact heeding.follows nonterminal terminal listed
  · intro follows
    obtain ⟨source, reached, stands⟩ := (Grammar.mem_follow_iff listed).mp follows
    apply heeding.follow_host_subset stays reached
    rcases stands with stands | ⟨rfl, rfl⟩
    · obtain ⟨rule, member, before, behind, spelled, begins⟩ := Grammar.mem_behind.mp stands
      have exact := heeding.describes.firstOf_iff (Grammar.listed_of_rhs member spelled).2
      exact mem_follow_of_heard stays member spelled (.inl ((exact.2 terminal).mpr begins))
    · exact heeding.ends

end Settled

end FirstFollow

namespace Grammar

variable [DecidableEq T] [DecidableEq N]

/-- The terminals are those that the grammar derives behind the nonterminal, and the end marker is
among them if the start symbol derives a form that ends in the nonterminal. -/
structure IsFollow (grammar : Grammar T N) (nonterminal : N) (terminals : List T) : Prop where
  ascending : Ascending.IsAscending grammar.vocabulary.terminals.order terminals
  mem_iff : ∀ terminal, terminal ≠ grammar.vocabulary.endMarker →
    (terminal ∈ terminals ↔ grammar.StandsBefore nonterminal terminal)
  endMarker_mem_iff : grammar.vocabulary.endMarker ∈ terminals ↔ grammar.Closes nonterminal

theorem isFollow_follow {grammar : Grammar T N} {nonterminal : N}
    (listed : grammar.vocabulary.nonterminals.Lists nonterminal) :
    grammar.IsFollow nonterminal (grammar.firstFollow.follow nonterminal) where
  ascending := isAscending_follow listed
  mem_iff _ other := mem_follow_iff_standsBefore listed other
  endMarker_mem_iff := endMarker_mem_follow_iff_closes listed

/-- Once the rounds for nullability and FIRST have ended, those for FOLLOW end too. What they end
with says of each listed nonterminal what the sets of a study say of it: which terminals the grammar
derives right behind it, and whether the start symbol derives a form that ends in it. -/
theorem exists_settles_isFollow (grammar : Grammar T N) :
    ∃ sets result,
      FirstFollow.Settles grammar.rules.toList (.blank grammar.vocabulary) sets ∧
      FirstFollow.following.Settles grammar.placements (sets.seeded grammar.start) result ∧
      ∀ nonterminal ∈ grammar.vocabulary.nonterminals.all, ∃ terminals,
        result.follow? nonterminal = some terminals ∧
        grammar.study.firstFollow.get.follow? nonterminal = some terminals ∧
        grammar.IsFollow nonterminal terminals := by
  obtain ⟨sets, settles, _⟩ := FirstFollow.exists_settles_blank grammar
  have seeded := FirstFollow.isHeeding_of_settles settles
  obtain ⟨result, follows⟩ := (FirstFollow.followingMeasure grammar).exists_settles seeded
  obtain ⟨heeding, resultStays⟩ :=
    (FirstFollow.followingMeasure grammar).of_settles seeded follows
  refine ⟨sets, result, settles, follows, fun nonterminal isListed => ?_⟩
  have listed := grammar.nonterminals_listed nonterminal isListed
  refine ⟨grammar.firstFollow.follow nonterminal, ?_, ?_, isFollow_follow listed⟩
  · have hasCell := FirstFollow.hasCell_of_listed heeding.describes.vocabulary_eq
      heeding.nullable_size listed
    rw [FirstFollow.follow?, if_pos hasCell, heeding.follow_eq resultStays listed]
  · rw [Study.firstFollow_study]
    exact follow?_firstFollow listed

end Grammar

end ShiftReduce
