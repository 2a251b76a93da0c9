import ShiftReduce.Lookahead.Closure
import ShiftReduce.Proofs.Automaton.Closure
import ShiftReduce.Proofs.FirstFollow.First

/-!
Contract: which lookaheads the items of a closure get from its seeds.

Owns: `Spreads`, by which an item passes on what can begin its rest and, if the rest vanishes, what
it has got itself; the agreement of `spread` with it; and the way in which what several seeds bring
forth together is made of what each brings forth alone with a stand-in for its lookaheads.
-/

namespace ShiftReduce

namespace LookaheadTable

variable {T : Type}

theorem mem_lookaheads {table : LookaheadTable T} {item : Item} {lookahead : Lookahead T} :
    lookahead ∈ table.lookaheads item ↔ ∃ entry ∈ table, entry.1 = item ∧ lookahead ∈ entry.2 := by
  simp only [lookaheads, List.mem_flatMap, Prod.exists]
  apply exists_congr
  intro entry
  apply exists_congr
  intro given
  apply and_congr_right
  intro _
  by_cases same : entry = item
  · simp [same]
  · simp [same]

end LookaheadTable

namespace Grammar

variable {T N : Type} [DecidableEq N]

/-- The lookaheads of items in the closure of seeds that carry some. -/
inductive Spreads (grammar : Grammar T N) (seeds : LookaheadTable T) :
    Item → Lookahead T → Prop where
  | seed {item : Item} {lookahead : Lookahead T} (given : lookahead ∈ seeds.lookaheads item) :
      Spreads grammar seeds item lookahead
  | opens {item new : Item} {terminal : T}
      (member : item ∈ grammar.closure (seeds.map Prod.fst))
      (implied : new ∈ grammar.implied item)
      (begins : grammar.CanBegin (item.suffix grammar) terminal) :
      Spreads grammar seeds new (.terminal terminal)
  | inherits {item new : Item} {lookahead : Lookahead T}
      (spreads : Spreads grammar seeds item lookahead) (implied : new ∈ grammar.implied item)
      (vanishes : grammar.Derives (item.suffix grammar) []) :
      Spreads grammar seeds new lookahead

variable {grammar : Grammar T N} {seeds : LookaheadTable T}

theorem closure_of_mem_lookaheads {item : Item} {lookahead : Lookahead T}
    (given : lookahead ∈ seeds.lookaheads item) :
    item ∈ grammar.closure (seeds.map Prod.fst) := by
  obtain ⟨entry, member, rfl, _⟩ := LookaheadTable.mem_lookaheads.mp given
  exact closure_of_seed (List.mem_map.mpr ⟨entry, member, rfl⟩)

theorem Spreads.mem_closure {item : Item} {lookahead : Lookahead T}
    (spreads : grammar.Spreads seeds item lookahead) :
    item ∈ grammar.closure (seeds.map Prod.fst) := by
  induction spreads with
  | seed given => exact closure_of_mem_lookaheads given
  | opens member implied _ => exact closure_of_implied member implied
  | inherits _ implied _ inductionHypothesis => exact closure_of_implied inductionHypothesis implied

/-! ## Lineages -/

variable [DecidableEq T]

/-- `firstOf` is exact on what stands behind the symbol that an item expects. -/
theorem firstOf_suffix {item : Item} {symbol : Symbol T N}
    (expects : item.next? grammar = some symbol) :
    ((grammar.firstFollow.firstOf (item.suffix grammar)).2 = true ↔
        grammar.Derives (item.suffix grammar) []) ∧
      ∀ terminal, terminal ∈ (grammar.firstFollow.firstOf (item.suffix grammar)).1 ↔
        grammar.CanBegin (item.suffix grammar) terminal :=
  firstFollow_describes.firstOf_iff (listed_of_next? expects).2

theorem mem_heirs {nonterminal heir : N} :
    heir ∈ grammar.heirs grammar.firstFollow nonterminal ↔
      ∃ item ∈ grammar.initialItems nonterminal, item.next? grammar = some (.nonterminal heir) ∧
        grammar.Derives (item.suffix grammar) [] := by
  unfold heirs
  rw [List.mem_filterMap]
  apply exists_congr
  intro item
  apply and_congr_right
  intro _
  split
  · next opener expects =>
      rw [expects, ← (firstOf_suffix expects).1, Option.some.injEq, Symbol.nonterminal.injEq]
      by_cases vanishes : (grammar.firstFollow.firstOf (item.suffix grammar)).2 = true
      · simp [vanishes]
      · simp [vanishes]
  · next other =>
      constructor
      · exact fun impossible => nomatch impossible
      · intro offers
        rcases offers with ⟨expects, _⟩
        exact absurd expects (other heir)

theorem mem_lineage {nonterminal heir : N} :
    heir ∈ grammar.lineage grammar.firstFollow nonterminal ↔
      Exploration.Reachable (grammar.heirs grammar.firstFollow) [nonterminal] heir := by
  apply Exploration.mem_explore_iff
    (nonterminal :: grammar.occurrences.filterMap Symbol.nonterminal?)
  · intro seed isSeed
    simp [List.mem_singleton.mp isSeed]
  · intro source _ target isHeir
    obtain ⟨item, _, expects, _⟩ := mem_heirs.mp isHeir
    have isRule := rule_mem_of_next? expects
    have occurs : .nonterminal target ∈ grammar.occurrences :=
      List.mem_flatMap.mpr ⟨_, by simpa using isRule, List.mem_of_getElem? expects⟩
    apply List.mem_cons_of_mem
    exact List.mem_filterMap.mpr ⟨.nonterminal target, occurs, rfl⟩
  · have shorter := List.length_filterMap_le Symbol.nonterminal? grammar.occurrences
    rw [List.length_cons]
    omega

/-! ## Grants -/

/-- The lookaheads that an item hands to the nonterminal it expects. -/
theorem mem_offer {item : Item} {nonterminal : N} {lookaheads : List (Lookahead T)} :
    grammar.offer grammar.firstFollow seeds item = some (nonterminal, lookaheads) ↔
      item.next? grammar = some (.nonterminal nonterminal) ∧
        lookaheads = (grammar.firstFollow.firstOf (item.suffix grammar)).1.map .terminal ++
          if (grammar.firstFollow.firstOf (item.suffix grammar)).2 then seeds.lookaheads item
          else [] := by
  unfold offer
  split
  · next expected expects =>
      rw [expects]
      simp only [Option.some.injEq, Prod.mk.injEq, Symbol.nonterminal.injEq]
      exact and_congr_right fun _ => eq_comm
  · next other =>
      constructor
      · exact fun impossible => nomatch impossible
      · intro offers
        rcases offers with ⟨expects, _⟩
        exact absurd expects (other nonterminal)

/-- An item of the closure grants the lookahead to the rules of a nonterminal, which are those of
the nonterminal it expects or of one of its heirs. -/
private def Grants (grammar : Grammar T N) (seeds : LookaheadTable T) (nonterminal : N)
    (lookahead : Lookahead T) : Prop :=
  ∃ item ∈ grammar.closure (seeds.map Prod.fst), ∃ expected,
    item.next? grammar = some (.nonterminal expected) ∧
      nonterminal ∈ grammar.lineage grammar.firstFollow expected ∧
        ((∃ terminal, lookahead = .terminal terminal ∧
            grammar.CanBegin (item.suffix grammar) terminal) ∨
          grammar.Derives (item.suffix grammar) [] ∧ lookahead ∈ seeds.lookaheads item)

private theorem mem_spread_iff {item : Item} {lookaheads : List (Lookahead T)}
    (entry : (item, lookaheads) ∈ grammar.spread grammar.firstFollow seeds)
    {lookahead : Lookahead T} :
    lookahead ∈ lookaheads ↔ lookahead ∈ seeds.lookaheads item ∨
      item.marker = 0 ∧ Grants grammar seeds (grammar.rule item.rule).lhs lookahead := by
  obtain ⟨_, _, made⟩ := List.mem_map.mp entry
  obtain ⟨rfl, rfl⟩ := Prod.mk.inj made
  rw [Exploration.mem_addFresh, List.mem_append]
  simp only [List.not_mem_nil, false_or]
  apply or_congr_right
  simp only [List.mem_flatMap, List.mem_map, List.mem_filterMap, Prod.exists, mem_offer,
    Prod.mk.injEq]
  constructor
  · intro inherited
    rcases inherited with ⟨_, _, ⟨expected, _, ⟨source, member, expects, rfl⟩, rfl, rfl⟩, granted⟩
    split at granted
    · next belongs =>
        refine ⟨belongs.1, source, member, expected, expects, belongs.2, ?_⟩
        rcases List.mem_append.mp granted with opening | inherited
        · obtain ⟨terminal, begins, rfl⟩ := List.mem_map.mp opening
          exact .inl ⟨terminal, rfl, ((firstOf_suffix expects).2 terminal).mp begins⟩
        · split at inherited
          · next vanishes => exact .inr ⟨(firstOf_suffix expects).1.mp vanishes, inherited⟩
          · cases inherited
    · cases granted
  · intro grants
    rcases grants with ⟨unread, source, member, expected, expects, belongs, offered⟩
    refine ⟨_, _, ⟨expected, _, ⟨source, member, expects, rfl⟩, rfl, rfl⟩, ?_⟩
    rw [if_pos ⟨unread, belongs⟩, List.mem_append]
    rcases offered with ⟨terminal, rfl, begins⟩ | ⟨vanishes, given⟩
    · exact .inl (List.mem_map.mpr ⟨terminal, ((firstOf_suffix expects).2 terminal).mpr begins, rfl⟩)
    · rw [if_pos ((firstOf_suffix expects).1.mpr vanishes)]
      exact .inr given

/-- A lookahead granted to a nonterminal spreads to the initial items of its rules. The induction is
on the way from the expected nonterminal down to its heir. -/
private theorem spreads_of_grants {nonterminal : N} {lookahead : Lookahead T}
    (grants : Grants grammar seeds nonterminal lookahead) {new : Item}
    (initial : new ∈ grammar.initialItems nonterminal) :
    grammar.Spreads seeds new lookahead := by
  rcases grants with ⟨source, member, expected, expects, belongs, offered⟩
  have reached := mem_lineage.mp belongs
  induction reached generalizing new with
  | seed isSeed =>
      rw [List.mem_singleton.mp isSeed] at initial
      have implied : new ∈ grammar.implied source := mem_implied.mpr ⟨expected, expects, initial⟩
      rcases offered with ⟨terminal, rfl, begins⟩ | ⟨vanishes, given⟩
      · exact .opens member implied begins
      · exact .inherits (.seed given) implied vanishes
  | step reached isHeir inductionHypothesis =>
      obtain ⟨opener, openerInitial, openerExpects, vanishes⟩ := mem_heirs.mp isHeir
      have openerSpreads := inductionHypothesis openerInitial (mem_lineage.mpr reached)
      exact .inherits openerSpreads (mem_implied.mpr ⟨_, openerExpects, initial⟩) vanishes

section Seeds

variable (fit : ∀ seed ∈ seeds.map Prod.fst, seed ∈ grammar.allItems)

include fit

private theorem grants_of_spreads {item : Item} {lookahead : Lookahead T}
    (spreads : grammar.Spreads seeds item lookahead) :
    lookahead ∈ seeds.lookaheads item ∨
      item.marker = 0 ∧ Grants grammar seeds (grammar.rule item.rule).lhs lookahead := by
  induction spreads with
  | seed given => exact .inl given
  | opens member implied begins =>
      obtain ⟨expected, expects, initial⟩ := mem_implied.mp implied
      obtain ⟨unread, _, lhs⟩ := mem_initialItems.mp initial
      refine .inr ⟨unread, _, member, expected, expects, ?_, .inl ⟨_, rfl, begins⟩⟩
      rw [lhs]
      exact mem_lineage.mpr (.seed List.mem_cons_self)
  | @inherits item new lookahead spreads implied vanishes inductionHypothesis =>
      obtain ⟨expected, expects, initial⟩ := mem_implied.mp implied
      obtain ⟨unread, _, lhs⟩ := mem_initialItems.mp initial
      refine .inr ⟨unread, ?_⟩
      rw [lhs]
      rcases inductionHypothesis with given | ⟨itemUnread, source, member, first, firstExpects,
        belongs, offered⟩
      · exact ⟨item, spreads.mem_closure, expected, expects,
          mem_lineage.mpr (.seed List.mem_cons_self), .inr ⟨vanishes, given⟩⟩
      · -- The item is an initial one, so what it expects is an heir of its left side.
        refine ⟨source, member, first, firstExpects, ?_, offered⟩
        have bound := (mem_allItems.mp (closure_subset_allItems fit spreads.mem_closure)).1
        have isHeir : expected ∈ grammar.heirs grammar.firstFollow (grammar.rule item.rule).lhs :=
          mem_heirs.mpr ⟨item, mem_initialItems.mpr ⟨itemUnread, bound, rfl⟩, expects, vanishes⟩
        exact mem_lineage.mpr (.step (mem_lineage.mp belongs) isHeir)

/-- `spread` gives each item of the closure the lookaheads that spread to it. -/
theorem mem_of_mem_spread {item : Item} {lookaheads : List (Lookahead T)}
    (entry : (item, lookaheads) ∈ grammar.spread grammar.firstFollow seeds)
    {lookahead : Lookahead T} :
    lookahead ∈ lookaheads ↔ grammar.Spreads seeds item lookahead := by
  rw [mem_spread_iff entry]
  constructor
  · intro spreads
    rcases spreads with given | ⟨unread, grants⟩
    · exact .seed given
    · obtain ⟨_, member, made⟩ := List.mem_map.mp entry
      obtain ⟨rfl, _⟩ := Prod.mk.inj made
      have bound := (mem_allItems.mp (closure_subset_allItems fit member)).1
      exact spreads_of_grants grants (mem_initialItems.mpr ⟨unread, bound, rfl⟩)
  · exact grants_of_spreads fit

end Seeds

theorem spread_map_fst :
    (grammar.spread grammar.firstFollow seeds).map Prod.fst =
      grammar.closure (seeds.map Prod.fst) := by
  rw [spread, List.map_map]
  exact List.map_id _

theorem mem_lookaheads_spread (fit : ∀ seed ∈ seeds.map Prod.fst, seed ∈ grammar.allItems)
    {item : Item} {lookahead : Lookahead T} :
    lookahead ∈ (grammar.spread grammar.firstFollow seeds).lookaheads item ↔
      grammar.Spreads seeds item lookahead := by
  rw [LookaheadTable.mem_lookaheads]
  constructor
  · intro listed
    rcases listed with ⟨⟨_, lookaheads⟩, entry, rfl, inside⟩
    exact (mem_of_mem_spread fit entry).mp inside
  · intro spreads
    have member := spreads.mem_closure
    rw [← spread_map_fst] at member
    obtain ⟨⟨_, lookaheads⟩, entry, rfl⟩ := List.mem_map.mp member
    exact ⟨_, entry, rfl, (mem_of_mem_spread fit entry).mpr spreads⟩

/-! ## Seeds one by one -/

/-- The seed alone, with a stand-in for its lookaheads. -/
def alone (seed : Item) : LookaheadTable T := [(seed, [.inherited])]

omit [DecidableEq N] [DecidableEq T] in
theorem mem_lookaheads_alone {seed item : Item} {lookahead : Lookahead T} :
    lookahead ∈ (alone seed).lookaheads item ↔ seed = item ∧ lookahead = .inherited := by
  simp [alone, LookaheadTable.mem_lookaheads]

omit [DecidableEq T] in
theorem exists_seed_of_mem_closure {item : Item}
    (member : item ∈ grammar.closure (seeds.map Prod.fst)) :
    ∃ seed ∈ seeds.map Prod.fst, item ∈ grammar.closure [seed] := by
  have reached := mem_closure_iff.mp member
  induction reached with
  | seed isSeed => exact ⟨_, isSeed, closure_of_seed List.mem_cons_self⟩
  | step reached implied inductionHypothesis =>
      obtain ⟨seed, isSeed, inClosure⟩ := inductionHypothesis (mem_closure_iff.mpr reached)
      exact ⟨seed, isSeed, closure_of_implied inClosure implied⟩

omit [DecidableEq T] in
/-- A terminal spreads to an item from some seed: either that seed brings it forth by itself, or it
is one of the lookaheads that the stand-in of that seed stands for. -/
theorem spreads_terminal_iff {item : Item} {terminal : T} :
    grammar.Spreads seeds item (.terminal terminal) ↔
      ∃ seed ∈ seeds.map Prod.fst,
        grammar.Spreads (alone seed) item (.terminal terminal) ∨
          .terminal terminal ∈ seeds.lookaheads seed ∧
            grammar.Spreads (alone seed) item .inherited := by
  constructor
  · intro spreads
    generalize same : Lookahead.terminal terminal = lookahead at spreads
    induction spreads with
    | @seed item lookahead given =>
        obtain ⟨entry, member, sameItem, _⟩ := LookaheadTable.mem_lookaheads.mp given
        refine ⟨item, List.mem_map.mpr ⟨entry, member, sameItem⟩, .inr ⟨same ▸ given, .seed ?_⟩⟩
        exact mem_lookaheads_alone.mpr ⟨rfl, rfl⟩
    | opens member implied begins =>
        cases same
        obtain ⟨seed, isSeed, inClosure⟩ := exists_seed_of_mem_closure member
        exact ⟨seed, isSeed, .inl (.opens inClosure implied begins)⟩
    | inherits _ implied vanishes inductionHypothesis =>
        obtain ⟨seed, isSeed, byItself | ⟨given, standsIn⟩⟩ := inductionHypothesis same
        · exact ⟨seed, isSeed, .inl (.inherits byItself implied vanishes)⟩
        · exact ⟨seed, isSeed, .inr ⟨given, .inherits standsIn implied vanishes⟩⟩
  · intro reaches
    rcases reaches with ⟨seed, isSeed, byItself | ⟨given, standsIn⟩⟩
    · generalize same : Lookahead.terminal terminal = lookahead at byItself ⊢
      induction byItself with
      | seed given =>
          rw [(mem_lookaheads_alone.mp given).2] at same
          cases same
      | @opens source _ _ member implied begins =>
          have reached : Exploration.Reachable grammar.implied (seeds.map Prod.fst) source := by
            apply (mem_closure_iff.mp member).of_seeds
            intro other isOther
            rw [List.mem_singleton.mp isOther]
            exact .seed isSeed
          exact .opens (mem_closure_iff.mpr reached) implied begins
      | inherits _ implied vanishes inductionHypothesis =>
          exact .inherits (inductionHypothesis same) implied vanishes
    · generalize same : Lookahead.inherited = lookahead at standsIn
      induction standsIn with
      | seed standIn => exact .seed ((mem_lookaheads_alone.mp standIn).1 ▸ given)
      | opens => cases same
      | inherits _ implied vanishes inductionHypothesis =>
          exact .inherits (inductionHypothesis same) implied vanishes

end Grammar

end ShiftReduce
