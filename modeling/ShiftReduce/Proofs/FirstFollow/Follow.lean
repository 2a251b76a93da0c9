import ShiftReduce.Proofs.FirstFollow.First

/-!
Contract: where the terminals of FOLLOW come from.

Owns: the terminals of FOLLOW as those that stand behind a nonterminal which can end where the given
one ends; and the rules by which FOLLOW passes from left sides to the nonterminals of right sides.
-/

namespace ShiftReduce

namespace Grammar

variable {T N : Type} [DecidableEq T] [DecidableEq N] {grammar : Grammar T N}

theorem mem_hosts {nonterminal host : N} :
    host ∈ grammar.hosts grammar.nullables nonterminal ↔
      ∃ rule ∈ grammar.rules, rule.lhs = host ∧ ∃ before behind,
        rule.rhs = before ++ .nonterminal nonterminal :: behind ∧ grammar.Derives behind [] := by
  simp only [hosts, List.mem_flatMap, List.mem_filterMap, Prod.exists, mem_splits]
  constructor
  · intro isHost
    rcases isHost with ⟨rule, isRule, before, symbol, behind, spelled, taken⟩
    split at taken
    · next ends =>
        cases taken
        exact ⟨rule, by simpa using isRule, rfl, before, behind, ends.1 ▸ spelled,
          vanish_iff.mp ends.2⟩
    · cases taken
  · intro ends
    rcases ends with ⟨rule, isRule, rfl, before, behind, spelled, vanishes⟩
    refine ⟨rule, by simpa using isRule, before, _, behind, spelled, ?_⟩
    rw [if_pos ⟨rfl, vanish_iff.mpr vanishes⟩]

theorem mem_behind {nonterminal : N} {terminal : T} :
    terminal ∈ grammar.behind (grammar.firstSets grammar.nullables) nonterminal ↔
      ∃ rule ∈ grammar.rules, ∃ before behind,
        rule.rhs = before ++ .nonterminal nonterminal :: behind ∧
          grammar.CanBegin behind terminal := by
  simp only [Grammar.behind, List.mem_flatMap, Prod.exists, mem_splits]
  constructor
  · intro inBehind
    rcases inBehind with ⟨rule, isRule, before, symbol, behind, spelled, opening⟩
    split at opening
    · next same =>
        have member : rule ∈ grammar.rules := by simpa using isRule
        have exact := firstSets_describes.firstOf_iff (listed_of_rhs member spelled).2
        exact ⟨rule, member, before, behind, same ▸ spelled, (exact.2 terminal).mp opening⟩
    · cases opening
  · intro stands
    rcases stands with ⟨rule, member, before, behind, spelled, begins⟩
    have exact := firstSets_describes.firstOf_iff (listed_of_rhs member spelled).2
    refine ⟨rule, by simpa using member, before, _, behind, spelled, ?_⟩
    rw [if_pos rfl]
    exact (exact.2 terminal).mpr begins

/-- A terminal follows a nonterminal if it stands behind one that hosts it, or if it is the end
marker and the start symbol hosts it. -/
theorem mem_followSet_iff {nonterminal : N} {terminal : T} :
    terminal ∈ grammar.followSet grammar.nullables (grammar.firstSets grammar.nullables)
        nonterminal ↔
      ∃ source, Exploration.Reachable (grammar.hosts grammar.nullables) [nonterminal] source ∧
        (terminal ∈ grammar.behind (grammar.firstSets grammar.nullables) source ∨
          source = grammar.start ∧ terminal = grammar.vocabulary.endMarker) := by
  have found : ∀ source, source ∈ Exploration.explore (grammar.hosts grammar.nullables)
      (grammar.rules.size + 1) [nonterminal] ↔
        Exploration.Reachable (grammar.hosts grammar.nullables) [nonterminal] source := by
    intro source
    apply Exploration.mem_explore_iff (nonterminal :: grammar.rules.toList.map Rule.lhs)
    · intro seed isSeed
      simp [List.mem_singleton.mp isSeed]
    · intro source _ host hosts
      obtain ⟨rule, member, rfl, _⟩ := mem_hosts.mp hosts
      apply List.mem_cons_of_mem
      exact List.mem_map.mpr ⟨rule, by simpa using member, rfl⟩
    · simp
  rw [followSet, Ascending.mem_ofList, List.mem_flatMap]
  apply exists_congr
  intro source
  apply and_congr (found source)
  rw [List.mem_append]
  by_cases isStart : source = grammar.start
  · simp [isStart]
  · simp [isStart]

/-- The cell of a listed nonterminal holds what follows it. -/
theorem follow_eq_followSet {nonterminal : N}
    (listed : grammar.vocabulary.nonterminals.Lists nonterminal) :
    grammar.firstFollow.follow nonterminal =
      grammar.followSet grammar.nullables (grammar.firstSets grammar.nullables) nonterminal :=
  listed.getD_map (grammar.followSet _ _) []

theorem mem_follow_iff {nonterminal : N} {terminal : T}
    (listed : grammar.vocabulary.nonterminals.Lists nonterminal) :
    terminal ∈ grammar.firstFollow.follow nonterminal ↔
      ∃ source, Exploration.Reachable (grammar.hosts grammar.nullables) [nonterminal] source ∧
        (terminal ∈ grammar.behind (grammar.firstSets grammar.nullables) source ∨
          source = grammar.start ∧ terminal = grammar.vocabulary.endMarker) := by
  rw [follow_eq_followSet listed, mem_followSet_iff]

theorem follow?_firstFollow {nonterminal : N}
    (listed : grammar.vocabulary.nonterminals.Lists nonterminal) :
    grammar.firstFollow.follow? nonterminal = some (grammar.firstFollow.follow nonterminal) := by
  have hasCell : grammar.firstFollow.hasCell nonterminal = true :=
    FirstFollow.hasCell_of_listed rfl grammar.size_nullableCells_firstFollow listed
  rw [FirstFollow.follow?, if_pos hasCell]

theorem isAscending_follow {nonterminal : N}
    (listed : grammar.vocabulary.nonterminals.Lists nonterminal) :
    Ascending.IsAscending grammar.vocabulary.terminals.order
      (grammar.firstFollow.follow nonterminal) := by
  rw [follow_eq_followSet listed, followSet]
  exact Ascending.isAscending_ofList _

/-- FOLLOW holds listed terminals only. -/
theorem listed_of_mem_follow {nonterminal : N} {terminal : T}
    (listed : grammar.vocabulary.nonterminals.Lists nonterminal)
    (follows : terminal ∈ grammar.firstFollow.follow nonterminal) :
    grammar.vocabulary.terminals.Lists terminal := by
  obtain ⟨source, _, stands | ⟨_, rfl⟩⟩ := (mem_follow_iff listed).mp follows
  · obtain ⟨rule, member, before, behind, spelled, begins⟩ := mem_behind.mp stands
    exact begins.listed (listed_of_rhs member spelled).2
  · exact grammar.endMarker_listed

/-! ## How FOLLOW passes on -/

theorem endMarker_mem_follow :
    grammar.vocabulary.endMarker ∈ grammar.firstFollow.follow grammar.start :=
  (mem_follow_iff grammar.start_listed).mpr
    ⟨grammar.start, .seed List.mem_cons_self, .inr ⟨rfl, rfl⟩⟩

section Occurrence

variable {rule : Rule T N} (member : rule ∈ grammar.rules) {nonterminal : N}
  {before behind : List (Symbol T N)}
  (spelled : rule.rhs = before ++ .nonterminal nonterminal :: behind)

include member spelled

theorem mem_follow_of_canBegin {terminal : T} (begins : grammar.CanBegin behind terminal) :
    terminal ∈ grammar.firstFollow.follow nonterminal :=
  (mem_follow_iff (listed_of_rhs member spelled).1).mpr
    ⟨nonterminal, .seed List.mem_cons_self,
      .inl (mem_behind.mpr ⟨rule, member, before, behind, spelled, begins⟩)⟩

theorem follow_lhs_subset (vanishes : grammar.Derives behind []) {terminal : T}
    (follows : terminal ∈ grammar.firstFollow.follow rule.lhs) :
    terminal ∈ grammar.firstFollow.follow nonterminal := by
  obtain ⟨source, reached, stands⟩ := (mem_follow_iff (grammar.lhs_listed rule member)).mp follows
  have isHost : rule.lhs ∈ grammar.hosts grammar.nullables nonterminal :=
    mem_hosts.mpr ⟨rule, member, rfl, before, behind, spelled, vanishes⟩
  have hosted : Exploration.Reachable (grammar.hosts grammar.nullables) [nonterminal] source := by
    apply reached.of_seeds
    intro seed isSeed
    rw [List.mem_singleton.mp isSeed]
    exact .step (.seed List.mem_cons_self) isHost
  exact (mem_follow_iff (listed_of_rhs member spelled).1).mpr ⟨source, hosted, stands⟩

end Occurrence

end Grammar

end ShiftReduce
